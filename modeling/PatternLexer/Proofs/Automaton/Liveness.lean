import PatternLexer.Proofs.Automaton.Layout
import PatternLexer.Proofs.Regex

/-! Fragments without dead parts. In a live fragment every state lies between the start and
acceptance, so whatever can be read can be read on to a word, and the automaton stops at the first
character that no word of the language goes on with. Every leaf but the empty one is live, and all
combinations of live fragments are. -/

namespace PatternLexer

namespace Fragment

variable {f g left right : Fragment} {s t : Nat} {v w : Text}

/-- Some path leads from the state to acceptance. -/
def Productive (f : Fragment) (s : Nat) : Prop := ∃ w, ∃ t ∈ f.accepting, Path f s w t

/-- The start leads to every state, and every state to acceptance. -/
structure Live (f : Fragment) : Prop where
  reached : ∀ s, f.HasState s → f.Reached s
  productive : ∀ s, f.HasState s → f.Productive s

theorem Productive.path (hpath : Path f s w t) (h : f.Productive t) : f.Productive s := by
  obtain ⟨v, a, ha, hv⟩ := h
  exact ⟨w ++ v, a, ha, hpath.append hv⟩

theorem Productive.epsilon (harc : ⟨.epsilon, t⟩ ∈ f.arcs s) (h : f.Productive t) :
    f.Productive s := .path (.epsilon harc (.nil t)) h

theorem productive_of_accepting (h : t ∈ f.accepting) : f.Productive t := ⟨[], t, h, .nil t⟩

/-! ### Leaves -/

theorem live_leaf (label : Label) : (⟨[[⟨label, 2⟩], []], 1, [2]⟩ : Fragment).Live := by
  let f : Fragment := ⟨[[⟨label, 2⟩], []], 1, [2]⟩
  have hend : f.Reached 2 := f.reached_start.arc (mem_arcs_leaf.2 ⟨rfl, rfl⟩)
  have hstates (s : Nat) (hs : f.HasState s) : s = 1 ∨ s = 2 := by
    obtain ⟨hpos, hle⟩ := hs
    have hsize : s ≤ 2 := hle
    omega
  constructor
  · intro s hs
    rcases hstates s hs with rfl | rfl
    · exact f.reached_start
    · exact hend
  · intro s hs
    rcases hstates s hs with rfl | rfl
    · obtain ⟨w, hw⟩ := hend
      exact ⟨w, 2, List.mem_singleton_self 2, hw⟩
    · exact productive_of_accepting (List.mem_singleton_self 2)

/-! ### Combinations -/

namespace Joins

variable {Tie : Nat → Arc → Prop}

theorem reached_left (hj : Joins g left right Tie) (hstart : g.Reached left.start)
    (h : left.Reached s) : g.Reached s := by
  obtain ⟨w, hw⟩ := h
  exact hstart.path (hj.path_left hw)

theorem reached_right (hj : Joins g left right Tie) (hstart : g.Reached (right.start + left.size))
    (h : right.Reached s) : g.Reached (s + left.size) := by
  obtain ⟨w, hw⟩ := h
  exact hstart.path (hj.path_right hw)

theorem productive_left (hj : Joins g left right Tie)
    (haccepting : ∀ a ∈ left.accepting, g.Productive a) (h : left.Productive s) :
    g.Productive s := by
  obtain ⟨w, a, ha, hw⟩ := h
  exact (haccepting a ha).path (hj.path_left hw)

theorem productive_right (hj : Joins g left right Tie)
    (haccepting : ∀ a ∈ right.accepting, g.Productive (a + left.size)) (h : right.Productive s) :
    g.Productive (s + left.size) := by
  obtain ⟨w, a, ha, hw⟩ := h
  exact (haccepting a ha).path (hj.path_right hw)

/-- A state of two parts side by side is a state of one of them. -/
theorem hasState_parts (hpos : 1 ≤ s) (hle : s ≤ left.size + right.size) :
    left.HasState s ∨ ∃ r, s = r + left.size ∧ right.HasState r := by
  by_cases hs : s ≤ left.size
  · exact .inl ⟨hpos, hs⟩
  · exact .inr ⟨s - left.size, by omega, by omega, by omega⟩

/-- Live parts stay live where the start of the whole leads to the starts of both, and all that they
accept leads to acceptance. Only the states added to theirs are left to look at. -/
theorem live (hj : Joins g left right Tie) (hl : left.Live) (hr : right.Live)
    (hleft : g.Reached left.start) (hright : g.Reached (right.start + left.size))
    (hleftEnds : ∀ a ∈ left.accepting, g.Productive a)
    (hrightEnds : ∀ a ∈ right.accepting, g.Productive (a + left.size))
    (hadded : ∀ s, g.HasState s → left.size + right.size < s → g.Reached s ∧ g.Productive s) :
    g.Live := by
  have hstates (s : Nat) (hstate : g.HasState s) : g.Reached s ∧ g.Productive s := by
    by_cases hlt : left.size + right.size < s
    · exact hadded s hstate hlt
    · rcases hasState_parts hstate.1 (Nat.le_of_not_lt hlt) with hs | ⟨r, rfl, hs⟩
      · exact ⟨hj.reached_left hleft (hl.reached s hs),
          hj.productive_left hleftEnds (hl.productive s hs)⟩
      · exact ⟨hj.reached_right hright (hr.reached r hs),
          hj.productive_right hrightEnds (hr.productive r hs)⟩
  exact ⟨fun s hs => (hstates s hs).1, fun s hs => (hstates s hs).2⟩

end Joins

/-- The right part is reached through the acceptance of the left part, which in turn comes to
acceptance through the right part. -/
theorem live_concatenate (hlr : left.InRange) (hrr : right.InRange) (hl : left.Live)
    (hr : right.Live) : (left.concatenate right).Live := by
  have hjoin := joins_concatenate hlr right
  have htie (a : Nat) (ha : a ∈ left.accepting) :
      ⟨.epsilon, right.start + left.size⟩ ∈ (left.concatenate right).arcs a :=
    (hjoin _ _).2 (.inr (.inr ⟨ha, rfl⟩))
  have hstart : (left.concatenate right).Reached left.start := by
    have h := reached_start (left.concatenate right)
    rwa [start_concatenate] at h
  have hmiddle : (left.concatenate right).Reached (right.start + left.size) := by
    obtain ⟨w, a, ha, hw⟩ := hl.productive left.start hlr.start
    exact (hjoin.reached_left hstart ⟨w, hw⟩).arc (htie a ha)
  have hends (a : Nat) (ha : a ∈ right.accepting) :
      (left.concatenate right).Productive (a + left.size) :=
    productive_of_accepting (List.mem_map_of_mem ha)
  have hthrough : (left.concatenate right).Productive (right.start + left.size) :=
    hjoin.productive_right hends (hr.productive right.start hrr.start)
  refine hjoin.live hl hr hstart hmiddle (fun a ha => .epsilon (htie a ha) hthrough) hends ?_
  intro s hstate hlt
  have hle : s ≤ left.size + right.size := size_concatenate left right ▸ hstate.2
  omega

/-- The new start leads to both parts, and each part accepts by itself. -/
theorem live_alternate (hlr : left.InRange) (hl : left.Live) (hr : right.Live) :
    (left.alternate right).Live := by
  have hjoin := joins_alternate left right
  have hnew := start_alternate left right
  have hstart := reached_start (left.alternate right)
  have htoLeft : ⟨.epsilon, left.start⟩ ∈
      (left.alternate right).arcs (left.alternate right).start :=
    (hjoin _ _).2 (.inr (.inr ⟨hnew, .inl rfl⟩))
  have htoRight : ⟨.epsilon, right.start + left.size⟩ ∈
      (left.alternate right).arcs (left.alternate right).start :=
    (hjoin _ _).2 (.inr (.inr ⟨hnew, .inr rfl⟩))
  have hleft (a : Nat) (ha : a ∈ left.accepting) : (left.alternate right).Productive a :=
    productive_of_accepting (mem_accepting_alternate.2 (.inl ha))
  have hright (a : Nat) (ha : a ∈ right.accepting) :
      (left.alternate right).Productive (a + left.size) :=
    productive_of_accepting (mem_accepting_alternate.2 (.inr ⟨a, ha, rfl⟩))
  refine hjoin.live hl hr (hstart.arc htoLeft) (hstart.arc htoRight) hleft hright ?_
  intro s hstate hlt
  have hle : s ≤ left.size + right.size + 1 := size_alternate left right ▸ hstate.2
  obtain rfl : s = (left.alternate right).start := by omega
  exact ⟨hstart, .epsilon htoLeft (hjoin.productive_left hleft (hl.productive _ hlr.start))⟩

theorem live_star (hf : f.InRange) (h : f.Live) : f.star.Live := by
  have hstart := reached_start f.star
  have harc : ⟨.epsilon, f.start⟩ ∈ f.star.arcs f.star.start :=
    (mem_arcs_star hf).2 (.inr (.inr ⟨rfl, .inl rfl⟩))
  have hparts {s : Nat} (hs : f.star.HasState s) : s = f.star.start ∨ f.HasState s := by
    obtain ⟨hpos, hle⟩ := hs
    rw [size_star] at hle
    by_cases hs : s = f.size + 1
    · exact .inl hs
    · exact .inr ⟨hpos, by omega⟩
  constructor
  · intro s hstate
    rcases hparts hstate with rfl | hs
    · exact hstart
    · obtain ⟨w, hw⟩ := h.reached s hs
      exact (hstart.arc harc).path (path_star_of_path hf hw)
  · intro s hstate
    rcases hparts hstate with rfl | hs
    · exact productive_of_accepting (mem_accepting_star.2 (.inr rfl))
    · obtain ⟨w, a, ha, hw⟩ := h.productive s hs
      exact ⟨w, a, mem_accepting_star.2 (.inl ha), path_star_of_path hf hw⟩

/-! ### Words that can be read on -/

/-- Some state is left behind a word as long as the word can be read on to one of the language. -/
theorem isEmpty_reach_iff (hf : f.InRange) (h : f.Live) :
    (f.reach w).isEmpty = false ↔ ∃ x ∈ f.language, w <+: x := by
  rw [← Bool.not_eq_true, Ascending.isEmpty_iff, not_forall]
  simp only [not_not, Graph.mem_reach]
  constructor
  · rintro ⟨t, hpath⟩
    obtain ⟨v, a, ha, hv⟩ := h.productive t (hasState_of_reached hf ⟨w, hpath⟩)
    exact ⟨w ++ v, ⟨a, ha, hpath.append hv⟩, List.prefix_append w v⟩
  · rintro ⟨x, ⟨a, -, hx⟩, v, rfl⟩
    obtain ⟨t, ht, -⟩ := hx.split
    exact ⟨t, ht⟩

theorem exists_run?_iff (hf : f.InRange) (h : f.Live) :
    (∃ q, f.determinize.run? 0 w = some q) ↔ ∃ x ∈ f.language, w <+: x := by
  rw [← isEmpty_reach_iff hf h]
  simp only [Graph.run?_zero_eq_some_iff, exists_and_left, exists_eq', and_true]

end Fragment

namespace Pattern.Tree

/-- Whether some leaf of the tree is empty. -/
def hasEmpty : Tree → Bool
  | symbol _ | epsilon => false
  | empty => true
  | concat left right | union left right => left.hasEmpty || right.hasEmpty
  | star operand => operand.hasEmpty

theorem live_toFragment {t : Tree} (h : t.hasEmpty = false) : t.toFragment.Live := by
  induction t with
  | symbol c => exact Fragment.live_leaf (.symbol c)
  | epsilon => exact Fragment.live_leaf .epsilon
  | empty => exact nomatch h
  | concat left right hl hr =>
    obtain ⟨hleft, hright⟩ := Bool.or_eq_false_iff.1 h
    exact Fragment.live_concatenate left.built_toFragment.inRange right.built_toFragment.inRange
      (hl hleft) (hr hright)
  | union left right hl hr =>
    obtain ⟨hleft, hright⟩ := Bool.or_eq_false_iff.1 h
    exact Fragment.live_alternate left.built_toFragment.inRange (hl hleft) (hr hright)
  | star operand ih => exact Fragment.live_star operand.built_toFragment.inRange (ih h)

/-- A tree without empty leaves has a fragment without dead states: the start leads to each of them
and each leads on to acceptance. Its automaton gets through exactly those words that begin a word of
the tree, and so refuses all others at the first character that cannot be right. -/
theorem rejects_earliest (t : Tree) (h : t.hasEmpty = false) :
    (∀ s, t.toFragment.HasState s →
      (∃ w, Fragment.Path t.toFragment t.toFragment.start w s) ∧
      ∃ w, ∃ a ∈ t.toFragment.accepting, Fragment.Path t.toFragment s w a) ∧
    ∀ w : Text, (∃ q, t.toFragment.determinize.run? 0 w = some q) ↔
      ∃ x ∈ t.language, w <+: x := by
  have hlive := live_toFragment h
  refine ⟨fun s hs => ⟨hlive.reached s hs, hlive.productive s hs⟩, fun w => ?_⟩
  rw [Fragment.exists_run?_iff t.built_toFragment.inRange hlive, language_toFragment]

/-- The tree of `(a|e)*b`. Nothing goes on behind its last character. -/
theorem rejects_earliest_nullable :
    let t : Tree := .concat (.star (.union (.symbol 'a') .epsilon)) (.symbol 'b')
    t.hasEmpty = false ∧
      (∀ s, t.toFragment.HasState s → t.toFragment.Reached s ∧ t.toFragment.Productive s) ∧
      (∃ q, t.toFragment.determinize.run? 0 ['a', 'a'] = some q) ∧
      ¬ ∃ x ∈ t.language, ['a', 'b', 'a'] <+: x := by
  intro t
  have hmem : ['a', 'a', 'b'] ∈ t.language := (t.recognizes_toFragment _).1 (by cbv)
  have hnone : t.toFragment.determinize.run? 0 ['a', 'b', 'a'] = none :=
    Graph.run?_zero_eq_none_iff.2 (by cbv)
  obtain ⟨hstates, hruns⟩ := rejects_earliest t rfl
  refine ⟨rfl, hstates, (hruns _).2 ⟨_, hmem, ['b'], rfl⟩, ?_⟩
  rw [← hruns, hnone]
  simp

end Pattern.Tree

end PatternLexer
