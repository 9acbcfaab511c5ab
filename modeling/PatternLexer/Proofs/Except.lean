import Mathlib.Data.List.Forall2

/-! Computations that may fail, one after the other. A sequence gives a result when all of its steps
do, and else the error of the first step that does not. -/

namespace PatternLexer

variable {ε α β : Type}

theorem bind_eq_ok {x : Except ε α} {g : α → Except ε β} {b : β} :
    x >>= g = .ok b ↔ ∃ a, x = .ok a ∧ g a = .ok b := by
  cases x with
  | error e => simp [bind, Except.bind]
  | ok a => simp [bind, Except.bind]

theorem bind_eq_error {x : Except ε α} {g : α → Except ε β} {e : ε} :
    x >>= g = .error e ↔ x = .error e ∨ ∃ a, x = .ok a ∧ g a = .error e := by
  cases x with
  | error e' => simp [bind, Except.bind]
  | ok a => simp [bind, Except.bind]

/-! ### One computation for each element -/

variable {f : α → Except ε β} {xs : List α}

theorem mapM_eq_ok_iff {ys : List β} :
    xs.mapM f = .ok ys ↔ List.Forall₂ (fun x y => f x = .ok y) xs ys := by
  induction xs generalizing ys with
  | nil => cases ys <;> simp [pure, Except.pure]
  | cons x xs ih =>
    rw [List.mapM_cons]
    cases hx : f x with
    | error e => cases ys <;> simp [bind, Except.bind, hx]
    | ok z =>
      cases hxs : xs.mapM f <;> cases ys <;>
        simp [bind, Except.bind, pure, Except.pure, ← ih, hx, hxs]

theorem mapM_eq_error_iff {e : ε} :
    xs.mapM f = .error e ↔ ∃ before x behind, xs = before ++ x :: behind ∧
      (∀ y ∈ before, ∃ z, f y = .ok z) ∧ f x = .error e := by
  induction xs with
  | nil => simp [pure, Except.pure]
  | cons x xs ih =>
    rw [List.mapM_cons]
    cases hx : f x with
    | error e' =>
      show (Except.error e' : Except ε (List β)) = .error e ↔ _
      rw [Except.error.injEq]
      constructor
      · rintro rfl
        exact ⟨[], x, xs, rfl, by simp, hx⟩
      · rintro ⟨_ | ⟨y, before⟩, z, behind, heq, hbefore, hz⟩
        · obtain ⟨rfl, -⟩ := List.cons.inj heq
          exact Except.error.inj (hx.symm.trans hz)
        · obtain ⟨rfl, -⟩ := List.cons.inj heq
          obtain ⟨z, hok⟩ := hbefore x List.mem_cons_self
          exact nomatch hx.symm.trans hok
    | ok y =>
      have hrest : (do let z ← xs.mapM f; pure (y :: z) : Except ε (List β)) = .error e ↔
          xs.mapM f = .error e := by
        cases xs.mapM f <;> simp [bind, Except.bind, pure, Except.pure]
      refine hrest.trans (ih.trans ⟨?_, ?_⟩)
      · rintro ⟨before, z, behind, rfl, hbefore, hz⟩
        refine ⟨x :: before, z, behind, rfl, ?_, hz⟩
        rintro w (_ | ⟨_, hw⟩)
        · exact ⟨y, hx⟩
        · exact hbefore w hw
      · rintro ⟨_ | ⟨w, before⟩, z, behind, heq, hbefore, hz⟩
        · obtain ⟨rfl, -⟩ := List.cons.inj heq
          exact nomatch hx.symm.trans hz
        · obtain ⟨-, rfl⟩ := List.cons.inj heq
          exact ⟨before, z, behind, rfl, fun v hv => hbefore v (List.mem_cons_of_mem _ hv), hz⟩

theorem mapM_eq_ok_map {h : α → β} (hxs : ∀ x ∈ xs, f x = .ok (h x)) : xs.mapM f = .ok (xs.map h) :=
  mapM_eq_ok_iff.2 (List.forall₂_map_right_iff.2 (List.forall₂_same.2 hxs))

end PatternLexer
