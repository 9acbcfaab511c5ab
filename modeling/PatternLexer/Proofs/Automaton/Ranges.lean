import PatternLexer.Automaton.Combination

/-! States and arcs of combined fragments. Every combination is described by its size and by the
arcs that each of its states has; from this it follows that the numbers in a fragment made of leaves
by combinations are all numbers of its states. -/

namespace PatternLexer.Fragment

variable {f g left right : Fragment} {s target : Nat} {arc : Arc}

/-- The numbers that are states. -/
def HasState (f : Fragment) (s : Nat) : Prop := 1 ≤ s ∧ s ≤ f.size

/-- Start, acceptance and arcs speak of states only. -/
structure InRange (f : Fragment) : Prop where
  start : f.HasState f.start
  accepting : ∀ t ∈ f.accepting, f.HasState t
  targets : ∀ s, ∀ arc ∈ f.arcs s, f.HasState arc.target

/-! ### Sizes and starts -/

@[simp] theorem size_addArc (f : Fragment) (arc : Arc) (s : Nat) :
    (f.addArc arc s).size = f.size := by
  cases s with
  | zero => rfl
  | succ s => simp [addArc, size]

@[simp] theorem size_link (f : Fragment) (sources : List Nat) (target : Nat) :
    (f.link sources target).size = f.size := by
  induction sources generalizing f with
  | nil => rfl
  | cons s sources ih => exact (ih _).trans (size_addArc f _ s)

@[simp] theorem start_link (f : Fragment) (sources : List Nat) (target : Nat) :
    (f.link sources target).start = f.start := by
  induction sources generalizing f with
  | nil => rfl
  | cons s sources ih => exact (ih _).trans (by cases s <;> rfl)

@[simp] theorem size_embed (host guest : Fragment) :
    (host.embed guest).host.size = host.size + guest.size := by
  simp [embed, size]

@[simp] theorem size_concatenate (left right : Fragment) :
    (left.concatenate right).size = left.size + right.size :=
  (size_link _ _ _).trans (size_embed left right)

@[simp] theorem start_concatenate (left right : Fragment) :
    (left.concatenate right).start = left.start := start_link _ _ _

@[simp] theorem size_alternate (left right : Fragment) :
    (left.alternate right).size = left.size + right.size + 1 := by
  simp [alternate, embed, size, Nat.add_assoc]

@[simp] theorem start_alternate (left right : Fragment) :
    (left.alternate right).start = left.size + right.size + 1 :=
  congrArg (· + 1) (size_embed left right)

@[simp] theorem size_star (f : Fragment) : f.star.size = f.size + 1 := by
  have hlink := size_link f f.accepting f.start
  simp only [size] at hlink
  simp [star, size, hlink]

/-! ### Arcs -/

theorem mem_arcs_iff : arc ∈ f.arcs s ↔ ∃ i row, s = i + 1 ∧ f.rows[i]? = some row ∧ arc ∈ row := by
  cases s with
  | zero => simp [arcs]
  | succ s => cases hrow : f.rows[s]? <;> simp [arcs, hrow]

theorem hasState_of_mem_arcs (h : arc ∈ f.arcs s) : f.HasState s := by
  obtain ⟨i, row, rfl, hrow, -⟩ := mem_arcs_iff.1 h
  exact ⟨Nat.succ_pos i, (List.getElem?_eq_some_iff.1 hrow).1⟩

/-- Rows put behind those of a fragment belong to new states, and its states keep their arcs. -/
theorem mem_arcs_append {more : List (List Arc)} (h : g.rows = f.rows ++ more) :
    arc ∈ g.arcs s ↔
      arc ∈ f.arcs s ∨ ∃ i row, s = i + 1 + f.size ∧ more[i]? = some row ∧ arc ∈ row := by
  simp only [mem_arcs_iff, h]
  constructor
  · rintro ⟨i, row, rfl, hrow, harc⟩
    by_cases hi : i < f.rows.length
    · rw [List.getElem?_append_left hi] at hrow
      exact .inl ⟨i, row, rfl, hrow, harc⟩
    · rw [List.getElem?_append_right (by omega)] at hrow
      exact .inr ⟨i - f.rows.length, row, by rw [size]; omega, hrow, harc⟩
  · rintro (⟨i, row, rfl, hrow, harc⟩ | ⟨i, row, rfl, hrow, harc⟩)
    · have hi := (List.getElem?_eq_some_iff.1 hrow).1
      exact ⟨i, row, rfl, by rw [List.getElem?_append_left hi, hrow], harc⟩
    · refine ⟨i + f.size, row, by omega, ?_, harc⟩
      rw [List.getElem?_append_right (by rw [size]; omega), size, Nat.add_sub_cancel, hrow]

theorem mem_arcs_addArc {new : Arc} {r : Nat} :
    arc ∈ (f.addArc new r).arcs s ↔ arc ∈ f.arcs s ∨ (s = r ∧ f.HasState r ∧ arc = new) := by
  cases r with
  | zero => simp [addArc, HasState]
  | succ r =>
    simp only [mem_arcs_iff, addArc, List.getElem?_modify]
    constructor
    · rintro ⟨i, row, rfl, hrow, harc⟩
      obtain ⟨old, hold, rfl⟩ := Option.map_eq_some_iff.1 hrow
      have hi := (List.getElem?_eq_some_iff.1 hold).1
      split at harc
      · rename_i hri
        subst hri
        rcases List.mem_append.1 harc with harc | harc
        · exact .inl ⟨_, old, rfl, hold, harc⟩
        · exact .inr ⟨rfl, ⟨Nat.succ_pos _, hi⟩, List.mem_singleton.1 harc⟩
      · exact .inl ⟨i, old, rfl, hold, harc⟩
    · rintro (⟨i, row, rfl, hrow, harc⟩ | ⟨rfl, ⟨-, hr⟩, rfl⟩)
      · refine ⟨i, _, rfl, Option.map_eq_some_iff.2 ⟨row, hrow, rfl⟩, ?_⟩
        split
        · exact List.mem_append_left _ harc
        · exact harc
      · refine ⟨r, _, rfl, Option.map_eq_some_iff.2 ⟨_, List.getElem?_eq_getElem hr, rfl⟩, ?_⟩
        simp

theorem mem_arcs_link {sources : List Nat} :
    arc ∈ (f.link sources target).arcs s ↔
      arc ∈ f.arcs s ∨ (s ∈ sources ∧ f.HasState s ∧ arc = ⟨.epsilon, target⟩) := by
  induction sources generalizing f with
  | nil => simp [link]
  | cons r sources ih =>
    have hlink : f.link (r :: sources) target =
        (f.addArc ⟨.epsilon, target⟩ r).link sources target := rfl
    rw [hlink, ih, mem_arcs_addArc, HasState, HasState, HasState, size_addArc, List.mem_cons]
    grind

theorem mem_arcs_embed {host guest : Fragment} :
    arc ∈ (host.embed guest).host.arcs s ↔
      arc ∈ host.arcs s ∨
        ∃ r, s = r + host.size ∧ ∃ b ∈ guest.arcs r, arc = b.shift host.size := by
  have hrows : (host.embed guest).host.rows =
      host.rows ++ guest.rows.map fun row => row.map (Arc.shift host.size) := rfl
  rw [mem_arcs_append hrows]
  simp only [mem_arcs_iff, List.getElem?_map, Option.map_eq_some_iff]
  constructor
  · rintro (h | ⟨i, row, rfl, ⟨old, hold, rfl⟩, harc⟩)
    · exact .inl h
    · obtain ⟨b, hb, rfl⟩ := List.mem_map.1 harc
      exact .inr ⟨i + 1, rfl, b, ⟨i, old, rfl, hold, hb⟩, rfl⟩
  · rintro (h | ⟨r, rfl, b, ⟨i, row, rfl, hrow, hb⟩, rfl⟩)
    · exact .inl h
    · exact .inr ⟨i, _, rfl, ⟨row, hrow, rfl⟩, List.mem_map_of_mem hb⟩

/-- Start and acceptance have no part in the arcs. -/
theorem arcs_congr (h : f.rows = g.rows) (s : Nat) : f.arcs s = g.arcs s := by
  cases s <;> simp [arcs, h]

theorem mem_arcs_concatenate (hl : left.InRange) :
    arc ∈ (left.concatenate right).arcs s ↔
      arc ∈ left.arcs s ∨
        (∃ r, s = r + left.size ∧ ∃ b ∈ right.arcs r, arc = b.shift left.size) ∨
        (s ∈ left.accepting ∧ arc = ⟨.epsilon, right.start + left.size⟩) := by
  have hstate : s ∈ left.accepting → (left.embed right).host.HasState s := by
    intro hs
    obtain ⟨hpos, hle⟩ := hl.accepting s hs
    unfold HasState
    rw [size_embed]
    omega
  have hrows : (left.concatenate right).rows =
      ((left.embed right).host.link left.accepting (right.start + left.size)).rows := rfl
  rw [arcs_congr hrows, mem_arcs_link, mem_arcs_embed, or_assoc]
  grind

/-- The arcs of a new last state. -/
theorem mem_arcs_snoc {row : List Arc} (h : g.rows = f.rows ++ [row]) :
    arc ∈ g.arcs s ↔ arc ∈ f.arcs s ∨ (s = f.size + 1 ∧ arc ∈ row) := by
  rw [mem_arcs_append h]
  refine or_congr_right ⟨?_, ?_⟩
  · rintro ⟨i, new, rfl, hnew, harc⟩
    rw [List.getElem?_singleton] at hnew
    obtain ⟨rfl, hrow⟩ := Option.ite_none_right_eq_some.1 hnew
    obtain rfl := Option.some.inj hrow
    exact ⟨by omega, harc⟩
  · rintro ⟨rfl, harc⟩
    exact ⟨0, row, by omega, rfl, harc⟩

theorem mem_arcs_alternate :
    arc ∈ (left.alternate right).arcs s ↔
      arc ∈ left.arcs s ∨
        (∃ r, s = r + left.size ∧ ∃ b ∈ right.arcs r, arc = b.shift left.size) ∨
        (s = left.size + right.size + 1 ∧
          (arc = ⟨.epsilon, left.start⟩ ∨ arc = ⟨.epsilon, right.start + left.size⟩)) := by
  have hrows : (left.alternate right).rows = (left.embed right).host.rows ++
      [[⟨.epsilon, left.start⟩, ⟨.epsilon, right.start + left.size⟩]] := rfl
  rw [mem_arcs_snoc hrows, mem_arcs_embed, or_assoc, size_embed]
  simp

theorem mem_arcs_star (h : f.InRange) :
    arc ∈ f.star.arcs s ↔
      arc ∈ f.arcs s ∨ (s ∈ f.accepting ∧ arc = ⟨.epsilon, f.start⟩) ∨
        (s = f.size + 1 ∧ (arc = ⟨.epsilon, f.start⟩ ∨ arc = ⟨.epsilon, f.size + 1⟩)) := by
  have hrows : f.star.rows = (f.link f.accepting f.start).rows ++
      [[⟨.epsilon, f.start⟩, ⟨.epsilon, f.size + 1⟩]] := rfl
  have hstate := h.accepting s
  rw [mem_arcs_snoc hrows, mem_arcs_link, or_assoc, size_link]
  simp only [List.mem_cons, List.not_mem_nil, or_false]
  grind

/-- A symbol or an epsilon is one arc between two states. -/
theorem mem_arcs_leaf {label : Label} :
    arc ∈ (⟨[[⟨label, 2⟩], []], 1, [2]⟩ : Fragment).arcs s ↔ s = 1 ∧ arc = ⟨label, 2⟩ := by
  rcases s with _ | _ | _ | s <;> simp [arcs]

theorem not_mem_arcs_empty : arc ∉ empty.arcs s := by
  rcases s with _ | _ | s <;> simp [arcs, empty]

/-! ### Ranges -/

theorem HasState.of_le (h : f.HasState s) (hle : f.size ≤ g.size) : g.HasState s :=
  ⟨h.1, Nat.le_trans h.2 hle⟩

theorem not_hasState_succ (f : Fragment) : ¬ f.HasState (f.size + 1) := by
  intro h
  have hle := h.2
  omega

theorem HasState.shift (h : right.HasState s) (hle : left.size + right.size ≤ g.size) :
    g.HasState (s + left.size) := by
  obtain ⟨hpos, hsize⟩ := h
  exact ⟨by omega, by omega⟩

theorem inRange_leaf (label : Label) : (⟨[[⟨label, 2⟩], []], 1, [2]⟩ : Fragment).InRange where
  start := by simp [HasState, size]
  accepting := by simp [HasState, size]
  targets s arc harc := by
    obtain ⟨-, rfl⟩ := mem_arcs_leaf.1 harc
    simp [HasState, size]

theorem inRange_empty : empty.InRange where
  start := by simp [empty, HasState, size]
  accepting := by simp [empty]
  targets s arc harc := (not_mem_arcs_empty harc).elim

theorem inRange_embed {host guest : Fragment} (hh : host.InRange) (hg : guest.InRange) :
    (host.embed guest).host.InRange := by
  have hsize := size_embed host guest
  have hhost {t : Nat} (ht : host.HasState t) : (host.embed guest).host.HasState t :=
    ht.of_le (by omega)
  refine ⟨hhost hh.start, ?_, ?_⟩
  · intro t ht
    exact hhost (hh.accepting t ht)
  · intro s arc harc
    rcases mem_arcs_embed.1 harc with harc | ⟨r, rfl, b, hb, rfl⟩
    · exact hhost (hh.targets s arc harc)
    · exact (hg.targets r b hb).shift (by omega)

theorem inRange_concatenate (hl : left.InRange) (hr : right.InRange) :
    (left.concatenate right).InRange := by
  have hsize := size_concatenate left right
  have hleft {t : Nat} (ht : left.HasState t) : (left.concatenate right).HasState t :=
    ht.of_le (by omega)
  have hright {t : Nat} (ht : right.HasState t) :
      (left.concatenate right).HasState (t + left.size) := ht.shift (by omega)
  refine ⟨?_, ?_, ?_⟩
  · rw [start_concatenate]
    exact hleft hl.start
  · intro t ht
    obtain ⟨r, hacc, rfl⟩ := List.mem_map.1 ht
    exact hright (hr.accepting r hacc)
  · intro s arc harc
    rcases (mem_arcs_concatenate hl).1 harc with harc | ⟨r, rfl, b, hb, rfl⟩ | ⟨-, rfl⟩
    · exact hleft (hl.targets s arc harc)
    · exact hright (hr.targets r b hb)
    · exact hright hr.start

theorem inRange_alternate (hl : left.InRange) (hr : right.InRange) :
    (left.alternate right).InRange := by
  have hsize := size_alternate left right
  have hleft {t : Nat} (ht : left.HasState t) : (left.alternate right).HasState t :=
    ht.of_le (by omega)
  have hright {t : Nat} (ht : right.HasState t) :
      (left.alternate right).HasState (t + left.size) := ht.shift (by omega)
  have hstart := start_alternate left right
  refine ⟨⟨by omega, by omega⟩, ?_, ?_⟩
  · intro t ht
    rcases List.mem_append.1 ht with ht | ht
    · exact hleft (hl.accepting t ht)
    · obtain ⟨r, hacc, rfl⟩ := List.mem_map.1 ht
      exact hright (hr.accepting r hacc)
  · intro s arc harc
    rcases mem_arcs_alternate.1 harc with harc | ⟨r, rfl, b, hb, rfl⟩ | ⟨-, rfl | rfl⟩
    · exact hleft (hl.targets s arc harc)
    · exact hright (hr.targets r b hb)
    · exact hleft hl.start
    · exact hright hr.start

theorem inRange_star (h : f.InRange) : f.star.InRange := by
  have hsize := size_star f
  have hold {t : Nat} (ht : f.HasState t) : f.star.HasState t := ht.of_le (by omega)
  have hnew : f.star.HasState (f.size + 1) := ⟨by omega, by omega⟩
  refine ⟨hnew, ?_, ?_⟩
  · intro t ht
    rcases List.mem_append.1 ht with ht | ht
    · exact hold (h.accepting t ht)
    · rwa [List.mem_singleton.1 ht]
  · intro s arc harc
    rcases (mem_arcs_star h).1 harc with harc | ⟨-, rfl⟩ | ⟨-, rfl | rfl⟩
    · exact hold (h.targets s arc harc)
    · exact hold h.start
    · exact hold h.start
    · exact hnew

theorem Built.inRange (h : Built f) : f.InRange := by
  induction h with
  | symbol c => exact inRange_leaf (.symbol c)
  | epsilon => exact inRange_leaf .epsilon
  | empty => exact inRange_empty
  | embed _ _ hh hg => exact inRange_embed hh hg
  | concatenate _ _ hl hr => exact inRange_concatenate hl hr
  | alternate _ _ hl hr => exact inRange_alternate hl hr
  | star _ h => exact inRange_star h

end PatternLexer.Fragment
