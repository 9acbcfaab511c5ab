/-! Finite sets kept as strictly ascending lists. A set has one such list, so equal sets are equal
values, and listing a set in order is a projection. -/

namespace PatternLexer

/-- The members of a finite set in ascending order, each once. -/
structure Ascending (α : Type) [LT α] where
  toList : List α
  ascending : toList.Pairwise (· < ·)

namespace Ascending

variable {α : Type} [LT α]

instance : Membership α (Ascending α) := ⟨fun s a => a ∈ s.toList⟩

theorem mem_toList {s : Ascending α} {a : α} : a ∈ s.toList ↔ a ∈ s := Iff.rfl

instance [DecidableEq α] (s : Ascending α) (a : α) : Decidable (a ∈ s) :=
  inferInstanceAs (Decidable (a ∈ s.toList))

theorem eq_of_toList_eq : ∀ {s t : Ascending α}, s.toList = t.toList → s = t
  | ⟨_, _⟩, ⟨_, _⟩, rfl => rfl

instance [DecidableEq α] : DecidableEq (Ascending α) := fun s t =>
  if h : s.toList = t.toList then isTrue (eq_of_toList_eq h)
  else isFalse fun e => h (congrArg toList e)

def empty : Ascending α := ⟨[], .nil⟩

def size (s : Ascending α) : Nat := s.toList.length

def isEmpty (s : Ascending α) : Bool := s.toList.isEmpty

theorem not_mem_empty (a : α) : a ∉ (empty : Ascending α) := fun h => nomatch h

theorem isEmpty_iff {s : Ascending α} : s.isEmpty = true ↔ ∀ a, a ∉ s :=
  List.isEmpty_iff.trans List.eq_nil_iff_forall_not_mem

/-! ### Insertion -/

section Insertion

variable [DecidableLT α]

/-- Puts an element at its place in an ascending list, unless it is there already. -/
def place (a : α) : List α → List α
  | [] => [a]
  | x :: xs => if a < x then a :: x :: xs else if x < a then x :: place a xs else x :: xs

variable [Std.Trichotomous (α := α) (· < ·)]

theorem mem_place {a y : α} {xs : List α} : y ∈ place a xs ↔ y = a ∨ y ∈ xs := by
  induction xs with
  | nil => simp [place]
  | cons x xs ih =>
    rw [place]
    split
    · simp
    · rename_i hax
      split
      · rw [List.mem_cons, ih, List.mem_cons]
        exact or_left_comm
      · rename_i hxa
        obtain rfl : a = x := Std.Trichotomous.trichotomous a x hax hxa
        simp

variable [Trans (α := α) (· < ·) (· < ·) (· < ·)]

theorem pairwise_place {a : α} {xs : List α} (h : xs.Pairwise (· < ·)) :
    (place a xs).Pairwise (· < ·) := by
  induction xs with
  | nil => simp [place]
  | cons x xs ih =>
    obtain ⟨hx, hxs⟩ := List.pairwise_cons.1 h
    rw [place]
    split
    · rename_i hax
      refine List.pairwise_cons.2 ⟨fun y hy => ?_, h⟩
      rcases List.mem_cons.1 hy with rfl | hy
      · exact hax
      · exact Std.lt_trans hax (hx y hy)
    · split
      · rename_i hxa
        refine List.pairwise_cons.2 ⟨fun y hy => ?_, ih hxs⟩
        rcases mem_place.1 hy with rfl | hy
        · exact hxa
        · exact hx y hy
      · exact h

def insert (a : α) (s : Ascending α) : Ascending α :=
  ⟨place a s.toList, pairwise_place s.ascending⟩

theorem mem_insert {a y : α} {s : Ascending α} : y ∈ insert a s ↔ y = a ∨ y ∈ s := mem_place

/-- The set of the elements of a list. -/
def ofList (xs : List α) : Ascending α := xs.foldr insert empty

theorem mem_ofList {y : α} {xs : List α} : y ∈ ofList xs ↔ y ∈ xs := by
  induction xs with
  | nil => exact ⟨fun h => absurd h (not_mem_empty y), fun h => nomatch h⟩
  | cons x xs ih => rw [ofList, List.foldr_cons, mem_insert, List.mem_cons, ← ih, ofList]

end Insertion

/-! ### Equality by members -/

section Extensionality

variable [Std.Irrefl (α := α) (· < ·)] [Trans (α := α) (· < ·) (· < ·) (· < ·)]

theorem eq_of_pairwise {xs ys : List α} (hx : xs.Pairwise (· < ·)) (hy : ys.Pairwise (· < ·))
    (h : ∀ a, a ∈ xs ↔ a ∈ ys) : xs = ys := by
  induction xs generalizing ys with
  | nil =>
    cases ys with
    | nil => rfl
    | cons y ys => exact nomatch (h y).2 List.mem_cons_self
  | cons x xs ih =>
    cases ys with
    | nil => exact nomatch (h x).1 List.mem_cons_self
    | cons y ys =>
      obtain ⟨hx, hxs⟩ := List.pairwise_cons.1 hx
      obtain ⟨hy, hys⟩ := List.pairwise_cons.1 hy
      have below {a b : α} (hab : a < b) (hba : b < a) : False :=
        Std.lt_irrefl (Std.lt_trans hab hba)
      -- each head is the least member of both lists
      obtain rfl : x = y := by
        rcases List.mem_cons.1 ((h x).1 List.mem_cons_self) with hxy | hxy
        · exact hxy
        · rcases List.mem_cons.1 ((h y).2 List.mem_cons_self) with hyx | hyx
          · exact hyx.symm
          · exact (below (hx y hyx) (hy x hxy)).elim
      refine congrArg (x :: ·) (ih hxs hys fun a => ⟨fun ha => ?_, fun ha => ?_⟩)
      · rcases List.mem_cons.1 ((h a).1 (List.mem_cons_of_mem x ha)) with rfl | ha'
        · exact (Std.lt_irrefl (hx a ha)).elim
        · exact ha'
      · rcases List.mem_cons.1 ((h a).2 (List.mem_cons_of_mem x ha)) with rfl | ha'
        · exact (Std.lt_irrefl (hy a ha)).elim
        · exact ha'

theorem ext {s t : Ascending α} (h : ∀ a, a ∈ s ↔ a ∈ t) : s = t :=
  eq_of_toList_eq (eq_of_pairwise s.ascending t.ascending h)

end Extensionality

/-! ### All sets of given members -/

section Pool

variable [DecidableEq α] [DecidableLT α] [Std.Trichotomous (α := α) (· < ·)]
  [Std.Irrefl (α := α) (· < ·)] [Trans (α := α) (· < ·) (· < ·) (· < ·)]

/-- A list has finitely many sets of its elements. -/
theorem exists_pool (xs : List α) :
    ∃ pool : List (Ascending α), ∀ s, (∀ a ∈ s, a ∈ xs) → s ∈ pool := by
  induction xs with
  | nil =>
    refine ⟨[empty], fun s h => List.mem_singleton.2 (ext fun a => ?_)⟩
    exact ⟨fun ha => (nomatch h a ha), fun ha => absurd ha (not_mem_empty a)⟩
  | cons x xs ih =>
    obtain ⟨pool, hpool⟩ := ih
    refine ⟨pool ++ pool.map (insert x), fun s h => ?_⟩
    by_cases hx : x ∈ s
    · -- without its member `x` the set is in the smaller pool
      have hrest := hpool (ofList (s.toList.filter (· ≠ x))) fun a ha => by
        obtain ⟨has, hax⟩ := List.mem_filter.1 (mem_ofList.1 ha)
        exact (List.mem_cons.1 (h a has)).resolve_left (of_decide_eq_true hax)
      refine List.mem_append_right _ (List.mem_map.2 ⟨_, hrest, ext fun a => ?_⟩)
      rw [mem_insert, mem_ofList, List.mem_filter, mem_toList, decide_eq_true_eq]
      by_cases hax : a = x
      · subst hax
        exact iff_of_true (.inl rfl) hx
      · exact ⟨fun h => (h.resolve_left hax).1, fun h => .inr ⟨h, hax⟩⟩
    · refine List.mem_append_left _ (hpool s fun a ha => ?_)
      refine (List.mem_cons.1 (h a ha)).resolve_left fun hax => hx (hax ▸ ha)

end Pool

end Ascending

end PatternLexer
