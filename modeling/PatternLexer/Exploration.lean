/-! Breadth-first exploration of a graph given by the list of successors of each vertex. The
vertices come out in the order of their discovery, each once: first the seeds, then the successors
of the vertices already found. Exploration ends because successors come from a finite pool. -/

namespace PatternLexer

variable {α : Type} [DecidableEq α]

/-- Some list holds every successor. -/
def FiniteRange (next : α → List α) : Prop := ∃ pool : List α, ∀ x, ∀ y ∈ next x, y ∈ pool

/-- The elements of a list that were not found before, each at its first occurrence. -/
def unseen (found : List α) : List α → List α
  | [] => []
  | y :: ys => if y ∈ found then unseen found ys else y :: unseen (y :: found) ys

theorem mem_unseen {found ys : List α} {y : α} : y ∈ unseen found ys ↔ y ∈ ys ∧ y ∉ found := by
  induction ys generalizing found with
  | nil => simp [unseen]
  | cons x ys ih =>
    rw [unseen]
    split
    · rename_i hx
      rw [ih, List.mem_cons]
      refine ⟨fun h => ⟨.inr h.1, h.2⟩, fun h => ⟨h.1.resolve_left ?_, h.2⟩⟩
      rintro rfl
      exact h.2 hx
    · rename_i hx
      rw [List.mem_cons, ih, List.mem_cons, List.mem_cons]
      by_cases hy : y = x
      · subst hy
        simp [hx]
      · simp [hy]

theorem nodup_unseen (found ys : List α) : (unseen found ys).Nodup := by
  induction ys generalizing found with
  | nil => exact .nil
  | cons x ys ih =>
    rw [unseen]
    split
    · exact ih found
    · refine List.nodup_cons.2 ⟨fun h => ?_, ih _⟩
      exact (mem_unseen.1 h).2 List.mem_cons_self

/-- How much of a pool is not found yet. -/
def missing (pool found : List α) : Nat := (pool.filter (· ∉ found)).length

theorem missing_append_lt {pool found new : List α} {y : α} (hy : y ∈ new) (hpool : y ∈ pool)
    (hfound : y ∉ found) : missing pool (found ++ new) < missing pool found := by
  have hsub : pool.filter (· ∉ found ++ new) = (pool.filter (· ∉ found)).filter (· ∉ new) := by
    rw [List.filter_filter]
    refine List.filter_congr fun a _ => ?_
    by_cases ha : a ∈ found <;> by_cases hb : a ∈ new <;> simp [ha, hb]
  rw [missing, missing, hsub]
  refine List.length_filter_lt_length_iff_exists.2 ⟨y, ?_, by simpa using hy⟩
  exact List.mem_filter.2 ⟨hpool, decide_eq_true hfound⟩

/-- Only the members of what was found before count. -/
theorem unseen_congr {found found' : List α} (h : ∀ a, a ∈ found ↔ a ∈ found') (ys : List α) :
    unseen found ys = unseen found' ys := by
  induction ys generalizing found found' with
  | nil => rfl
  | cons y ys ih =>
    have hcons : ∀ a, a ∈ y :: found ↔ a ∈ y :: found' := fun a => by
      rw [List.mem_cons, List.mem_cons, h]
    simp only [unseen, h y, ih h, ih hcons]

/-- A visit finds something that was missing, or else leaves one vertex less in the queue. -/
theorem explore_decreases {next : α → List α} (finite : FiniteRange next) {found queue : List α}
    {x : α} :
    Prod.Lex (· < ·) (· < ·)
      (missing finite.choose (found ++ unseen found (next x)),
        (queue ++ unseen found (next x)).length)
      (missing finite.choose found, (x :: queue).length) := by
  cases hnew : unseen found (next x) with
  | nil =>
    rw [List.append_nil, List.append_nil]
    exact Prod.Lex.right _ (Nat.lt_succ_self _)
  | cons y new =>
    have hy : y ∈ unseen found (next x) := hnew ▸ List.mem_cons_self
    obtain ⟨hnext, hfound⟩ := mem_unseen.1 hy
    exact Prod.Lex.left _ _
      (missing_append_lt List.mem_cons_self (finite.choose_spec x y hnext) hfound)

/-- Visits the queue from its front; successors not found before are found now and queued. -/
def explore (next : α → List α) (finite : FiniteRange next) (found : List α) :
    List α → List α
  | [] => found
  | x :: queue =>
    explore next finite (found ++ unseen found (next x)) (queue ++ unseen found (next x))
termination_by queue => (missing finite.choose found, queue.length)
decreasing_by exact explore_decreases finite

/-- Everything that the seeds lead to, in the order of discovery. -/
def reachable (next : α → List α) (finite : FiniteRange next) (seeds : List α) : List α :=
  explore next finite (unseen [] seeds) (unseen [] seeds)

/-- The target lies some number of successor steps from the source. -/
inductive Leads (next : α → List α) (x : α) : α → Prop
  | refl : Leads next x x
  | step {y z : α} : Leads next x y → z ∈ next y → Leads next x z

/-- Whatever holds of the seeds and passes to successors holds of all that is found. -/
theorem explore_induction {next : α → List α} {finite : FiniteRange next} {P : α → Prop}
    (hstep : ∀ x, P x → ∀ y ∈ next x, P y) {found queue : List α}
    (hfound : ∀ x ∈ found, P x) (hqueue : ∀ x ∈ queue, P x) :
    ∀ x ∈ explore next finite found queue, P x := by
  fun_induction explore next finite found queue with
  | case1 found => exact hfound
  | case2 found x queue ih =>
    have hnew : ∀ y ∈ unseen found (next x), P y := fun y hy =>
      hstep x (hqueue x List.mem_cons_self) y (mem_unseen.1 hy).1
    refine ih (fun y hy => ?_) (fun y hy => ?_)
    · exact (List.mem_append.1 hy).elim (hfound y) (hnew y)
    · exact (List.mem_append.1 hy).elim (fun h => hqueue y (List.mem_cons_of_mem x h)) (hnew y)

/-- What was found keeps its place. -/
theorem prefix_explore (next : α → List α) (finite : FiniteRange next) (found queue : List α) :
    found <+: explore next finite found queue := by
  fun_induction explore next finite found queue with
  | case1 found => exact List.prefix_rfl
  | case2 found x queue ih => exact (List.prefix_append _ _).trans ih

theorem mem_explore_of_mem {next : α → List α} {finite : FiniteRange next} {found queue : List α}
    {y : α} (h : y ∈ found) : y ∈ explore next finite found queue :=
  (prefix_explore next finite found queue).subset h

/-- What is found is closed under successors once every found vertex was visited or waits. -/
theorem explore_closed {next : α → List α} {finite : FiniteRange next} {found queue : List α}
    (hclosed : ∀ x ∈ found, x ∉ queue → ∀ y ∈ next x, y ∈ found) :
    ∀ x ∈ explore next finite found queue, ∀ y ∈ next x, y ∈ explore next finite found queue := by
  fun_induction explore next finite found queue with
  | case1 found => exact fun x hx => hclosed x hx List.not_mem_nil
  | case2 found x queue ih =>
    refine ih fun z hz hzq y hy => ?_
    rw [List.mem_append, not_or] at hzq
    have hzf : z ∈ found := (List.mem_append.1 hz).resolve_right hzq.2
    by_cases hyf : y ∈ found
    · exact List.mem_append_left _ hyf
    · by_cases hzx : z = x
      · subst hzx
        exact List.mem_append_right _ (mem_unseen.2 ⟨hy, hyf⟩)
      · refine absurd (hclosed z hzf (fun h => ?_) y hy) hyf
        exact (List.mem_cons.1 h).elim hzx hzq.1

theorem mem_reachable {next : α → List α} {finite : FiniteRange next} {seeds : List α} {y : α} :
    y ∈ reachable next finite seeds ↔ ∃ x ∈ seeds, Leads next x y := by
  constructor
  · have hseed : ∀ x ∈ unseen [] seeds, ∃ s ∈ seeds, Leads next s x := fun x hx =>
      ⟨x, (mem_unseen.1 hx).1, .refl⟩
    refine explore_induction (fun x hx y hy => ?_) hseed hseed y
    obtain ⟨s, hs, hsx⟩ := hx
    exact ⟨s, hs, hsx.step hy⟩
  · rintro ⟨x, hx, hxy⟩
    induction hxy with
    | refl => exact mem_explore_of_mem (mem_unseen.2 ⟨hx, List.not_mem_nil⟩)
    | step _ hz ih => exact explore_closed (fun z hz hzq => absurd hz hzq) _ ih _ hz

theorem nodup_reachable (next : α → List α) (finite : FiniteRange next) (seeds : List α) :
    (reachable next finite seeds).Nodup := by
  suffices ∀ {found queue : List α}, found.Nodup → (explore next finite found queue).Nodup from
    this (nodup_unseen [] seeds)
  intro found queue h
  fun_induction explore next finite found queue with
  | case1 found => exact h
  | case2 found x queue ih =>
    refine ih (List.nodup_append.2 ⟨h, nodup_unseen found _, fun a ha b hb hab => ?_⟩)
    exact (mem_unseen.1 hb).2 (hab ▸ ha)

end PatternLexer
