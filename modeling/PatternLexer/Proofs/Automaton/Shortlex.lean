import Mathlib.Data.List.Shortlex
import PatternLexer.Proofs.Automaton.Determinization

/-! The numbers of deterministic states. A breadth-first search that takes the characters in order
comes to the words in shortlex order, so every set is found first by the least word that leads to
it, and the states are numbered as their least words are ordered. -/

namespace PatternLexer

/-! ### The order of words -/

namespace Text

/-- The shorter word comes first, and of two words of one length the one that is first by code
points. -/
abbrev Before : Text → Text → Prop := List.Shortlex (· < ·)

variable {u v w : Text} {c d : Char}

theorem before_iff : u.Before v ↔ u.length < v.length ∨ (u.length = v.length ∧ u < v) :=
  List.shortlex_def

theorem Before.trans (h : u.Before v) (k : v.Before w) : u.Before w := by
  rw [before_iff] at h k ⊢
  rcases h with h | ⟨heq, h⟩
  · left
    omega
  · rcases k with k | ⟨keq, k⟩
    · left
      omega
    · exact .inr ⟨heq.trans keq, List.lt_trans h k⟩

/-- One character more on either word changes nothing, whatever characters these are. -/
theorem Before.snoc (h : u.Before v) (c d : Char) : Before (u ++ [c]) (v ++ [d]) := by
  rw [before_iff] at h ⊢
  simp only [List.length_append, List.length_singleton]
  rcases h with h | ⟨heq, h⟩
  · left
    omega
  · refine .inr ⟨by omega, ?_⟩
    induction h with
    | nil => simp at heq
    | rel h => exact .rel h
    | cons _ ih => exact .cons (ih (Nat.succ.inj heq))

theorem Before.append_char (h : c < d) (u : Text) : Before (u ++ [c]) (u ++ [d]) :=
  .append_left ((List.shortlex_singleton_iff c d).2 h) u

end Text

/-! ### What one visit finds -/

section Unseen

variable {α β : Type} [DecidableEq α] {r : β → β → Prop}

/-- Of elements with one image the first in order is kept, unless the image was found before. -/
theorem exists_unseen_map (g : β → α) {xs ys : List β} (h : (xs ++ ys).Pairwise r) :
    ∃ new, new.Sublist ys ∧ unseen (xs.map g) (ys.map g) = new.map g ∧
      ∀ y ∈ ys, ∃ z ∈ xs ++ new, g z = g y ∧ (z = y ∨ r z y) := by
  induction ys generalizing xs with
  | nil => exact ⟨[], .slnil, rfl, by simp⟩
  | cons y ys ih =>
    have hbefore : ∀ x ∈ xs, r x y := fun x hx =>
      (List.pairwise_append.1 h).2.2 x hx y List.mem_cons_self
    rw [List.map_cons, unseen]
    split
    · rename_i hy
      have htail : (xs ++ ys).Sublist (xs ++ y :: ys) :=
        (List.sublist_cons_self y ys).append_left xs
      obtain ⟨new, hnew, hunseen, hfirst⟩ := ih (h.sublist htail)
      refine ⟨new, hnew.cons y, hunseen, ?_⟩
      intro z hz
      rcases List.mem_cons.1 hz with rfl | hz
      · obtain ⟨x, hx, hxy⟩ := List.mem_map.1 hy
        exact ⟨x, List.mem_append_left new hx, hxy, .inr (hbefore x hx)⟩
      · exact hfirst z hz
    · rename_i hy
      have hfound : ∀ a, a ∈ g y :: xs.map g ↔ a ∈ (xs ++ [y]).map g := by
        simp [or_comm]
      rw [List.append_cons] at h
      obtain ⟨new, hnew, hunseen, hfirst⟩ := ih h
      rw [← List.append_cons] at hfirst
      refine ⟨y :: new, hnew.cons_cons y, ?_, ?_⟩
      · rw [unseen_congr hfound, hunseen, List.map_cons]
      · intro z hz
        rcases List.mem_cons.1 hz with rfl | hz
        · exact ⟨z, by simp, rfl, .inl rfl⟩
        · exact hfirst z hz

end Unseen

namespace Graph

variable {g : Graph} {v w : Text} {words done waiting : List Text} {c : Char}

theorem reach_snoc (g : Graph) (w : Text) (c : Char) :
    g.reach (w ++ [c]) = g.step (g.reach w) c := reach_append g w [c]

/-- The words that led to the sets found so far, those of the sets visited in front of those of the
sets that wait. They ascend; each is the empty word or grew out of a word of a visited set; and the
words that grow out of visited sets come to sets already found, by words that are no later. -/
structure Discovered (g : Graph) (done waiting : List Text) : Prop where
  ascending : (done ++ waiting).Pairwise Text.Before
  start : [] ∈ done ++ waiting
  grown : ∀ w ∈ done ++ waiting, w = [] ∨ ∃ u ∈ done, ∃ c, w = u ++ [c]
  closed : ∀ w ∈ done, ∀ c, (g.reach (w ++ [c])).isEmpty = false →
    ∃ v ∈ done ++ waiting, g.reach v = g.reach (w ++ [c]) ∧ (v = w ++ [c] ∨ v.Before (w ++ [c]))

namespace Discovered

/-- The words that the next set is left by. -/
def leaving (g : Graph) (w : Text) : List Text :=
  (g.symbols (g.reach w)).toList.map fun c => w ++ [c]

theorem mem_leaving (h : (g.reach (w ++ [c])).isEmpty = false) : w ++ [c] ∈ leaving g w := by
  rw [reach_snoc, ← mem_symbols_iff] at h
  exact List.mem_map_of_mem h

theorem map_reach_leaving (g : Graph) (w : Text) :
    (leaving g w).map g.reach = g.successors (g.reach w) := by
  simp only [leaving, successors, List.map_map, Function.comp_def, reach_snoc]

theorem before_snoc (h : Discovered g done (w :: waiting)) (hv : v ∈ done ++ w :: waiting)
    (c : Char) : v.Before (w ++ [c]) := by
  rcases h.grown v hv with rfl | ⟨u, hu, d, rfl⟩
  · exact .of_length_lt (by simp)
  · have huw : u.Before w := (List.pairwise_append.1 h.ascending).2.2 u hu w List.mem_cons_self
    exact huw.snoc d c

theorem pairwise_leaving (h : Discovered g done (w :: waiting)) :
    ((done ++ w :: waiting) ++ leaving g w).Pairwise Text.Before := by
  refine List.pairwise_append.2 ⟨h.ascending, ?_, ?_⟩
  · refine List.pairwise_map.2 ((g.symbols (g.reach w)).ascending.imp fun hcd => ?_)
    exact .append_char hcd w
  · intro v hv u hu
    obtain ⟨c, -, rfl⟩ := List.mem_map.1 hu
    exact h.before_snoc hv c

/-- A visit of the first set that waits finds more sets, by later words. -/
theorem visit (h : Discovered g done (w :: waiting)) :
    ∃ new, unseen ((done ++ w :: waiting).map g.reach) (g.successors (g.reach w)) =
        new.map g.reach ∧ Discovered g (done ++ [w]) (waiting ++ new) := by
  obtain ⟨new, hnew, hunseen, hfirst⟩ := exists_unseen_map g.reach h.pairwise_leaving
  rw [map_reach_leaving] at hunseen
  have hall : (done ++ [w]) ++ (waiting ++ new) = (done ++ w :: waiting) ++ new := by simp
  refine ⟨new, hunseen, ?_, ?_, ?_, ?_⟩
  · rw [hall]
    exact h.pairwise_leaving.sublist (hnew.append_left _)
  · rw [hall]
    exact List.mem_append_left new h.start
  · rw [hall]
    intro v hv
    rcases List.mem_append.1 hv with hv | hv
    · refine (h.grown v hv).imp_right ?_
      rintro ⟨u, hu, hgrown⟩
      exact ⟨u, List.mem_append_left [w] hu, hgrown⟩
    · obtain ⟨c, -, rfl⟩ := List.mem_map.1 (hnew.subset hv)
      exact .inr ⟨w, by simp, c, rfl⟩
  · rw [hall]
    intro v hv c hc
    rcases List.mem_append.1 hv with hv | hv
    · obtain ⟨u, hu, hreach, hle⟩ := h.closed v hv c hc
      exact ⟨u, List.mem_append_left new hu, hreach, hle⟩
    · obtain rfl := List.mem_singleton.1 hv
      exact hfirst _ (mem_leaving hc)

theorem explore (h : Discovered g done waiting) :
    ∃ words, Discovered g words [] ∧
      PatternLexer.explore g.successors g.successors_finite ((done ++ waiting).map g.reach)
        (waiting.map g.reach) = words.map g.reach := by
  generalize hfound : (done ++ waiting).map g.reach = found
  generalize hqueue : waiting.map g.reach = queue
  fun_induction PatternLexer.explore g.successors g.successors_finite found queue
      generalizing done waiting with
  | case1 found =>
    obtain rfl := List.map_eq_nil_iff.1 hqueue
    rw [List.append_nil] at hfound
    exact ⟨done, h, hfound.symm⟩
  | case2 found x queue ih =>
    obtain ⟨w, waiting, rfl, rfl, rfl⟩ := List.map_eq_cons_iff.1 hqueue
    subst hfound
    obtain ⟨new, hunseen, hvisit⟩ := h.visit
    refine ih hvisit ?_ ?_
    · rw [hunseen, ← List.map_append]
      simp
    · rw [hunseen, List.map_append]

end Discovered

/-- The sets that the graph may be in, as the sets after words found in shortlex order. -/
theorem exists_discovered (g : Graph) :
    ∃ words, Discovered g words [] ∧ g.subsets = words.map g.reach := by
  have hstart : Discovered g [] [[]] := ⟨by simp, by simp, by simp, by simp⟩
  exact hstart.explore

/-! ### Least words -/

/-- The first of the words after which the graph holds one set. -/
structure LeastWord (g : Graph) (w : Text) : Prop where
  holds : (g.reach w).isEmpty = false
  least : ∀ v, g.reach v = g.reach w → w = v ∨ w.Before v

theorem isEmpty_reach_of_snoc (h : (g.reach (w ++ [c])).isEmpty = false) :
    (g.reach w).isEmpty = false := by
  rw [← Bool.not_eq_true] at h ⊢
  intro hw
  rw [reach_snoc] at h
  exact h (isEmpty_step hw c)

/-- Whatever a word leads to was found by a word that is no later. -/
theorem Discovered.exists_le (h : Discovered g words []) (hv : (g.reach v).isEmpty = false) :
    ∃ w ∈ words, g.reach w = g.reach v ∧ (w = v ∨ w.Before v) := by
  have hclosed := h.closed
  have hstart := h.start
  rw [List.append_nil] at hclosed hstart
  induction v using List.reverseRecOn with
  | nil => exact ⟨[], hstart, rfl, .inl rfl⟩
  | append_singleton v c ih =>
    obtain ⟨u, hu, hreach, hle⟩ := ih (isEmpty_reach_of_snoc hv)
    have hsnoc : g.reach (u ++ [c]) = g.reach (v ++ [c]) := by
      rw [reach_snoc, reach_snoc, hreach]
    obtain ⟨w, hw, hwreach, hwle⟩ := hclosed u hu c (hsnoc ▸ hv)
    refine ⟨w, hw, hwreach.trans hsnoc, ?_⟩
    rcases hle with rfl | hle
    · exact hwle
    · right
      rcases hwle with rfl | hwle
      · exact hle.snoc c c
      · exact hwle.trans (hle.snoc c c)

theorem Discovered.mem_iff (h : Discovered g words []) (hsubsets : g.subsets = words.map g.reach) :
    w ∈ words ↔ g.LeastWord w := by
  constructor
  · intro hw
    have hreach : g.reach w ∈ g.subsets := hsubsets ▸ List.mem_map_of_mem hw
    have hholds : (g.reach w).isEmpty = false := by
      obtain ⟨-, -, hholds⟩ := exists_reach_of_mem_subsets hreach
      exact hholds
    refine ⟨hholds, fun v hv => ?_⟩
    obtain ⟨u, hu, hureach, hle⟩ := h.exists_le (hv ▸ hholds)
    have hnodup : (words.map g.reach).Nodup := hsubsets ▸ g.nodup_subsets
    obtain rfl := List.inj_on_of_nodup_map hnodup hu hw (hureach.trans hv)
    exact hle
  · intro hw
    obtain ⟨u, hu, hreach, hle⟩ := h.exists_le hw.holds
    rcases hw.least u hreach with rfl | hlt
    · exact hu
    · rcases hle with rfl | hle
      · exact hu
      · exact absurd hlt (Std.Asymm.asymm _ _ hle)

/-- The states of the automaton, each for its least word, in the order of these words. -/
theorem exists_leastWords (g : Graph) : ∃ words : List Text,
    words.Pairwise Text.Before ∧ (∀ w, w ∈ words ↔ g.LeastWord w) ∧
      g.subsets = words.map g.reach := by
  obtain ⟨words, h, hsubsets⟩ := g.exists_discovered
  have hascending := h.ascending
  rw [List.append_nil] at hascending
  exact ⟨words, hascending, fun w => h.mem_iff hsubsets, hsubsets⟩

end Graph

/-! ### The numbers of states -/

/-- The first of the words that lead from the start to a state. -/
structure DetAutomaton.LeastWord (d : DetAutomaton) (q : Nat) (w : Text) : Prop where
  leads : d.run? 0 w = some q
  least : ∀ v, d.run? 0 v = some q → w = v ∨ w.Before v

theorem DetAutomaton.LeastWord.singleton {d : DetAutomaton} {q : Nat} {c : Char} (hq : 0 ≠ q)
    (hc : d.next? 0 c = some q) (honly : ∀ b, d.next? 0 b = some q → c = b) :
    d.LeastWord q [c] := by
  refine ⟨by simp [run?, hc], fun v hv => ?_⟩
  rcases v with _ | ⟨b, _ | ⟨b', v⟩⟩
  · exact absurd (Option.some.inj hv) hq
  · exact .inl (congrArg (fun b => [b]) (honly b (by simpa [run?] using hv)))
  · exact .inr (.of_length_lt (by simp))

namespace Graph

variable {g : Graph} {w : Text} {words : List Text} {q : Nat}

/-- The set after a least word has the number that the word has among the least words. -/
theorem idxOf_reach_iff (hsubsets : g.subsets = words.map g.reach) (hw : w ∈ words) :
    g.subsets.idxOf (g.reach w) = q ↔ words[q]? = some w := by
  have hnodup : (words.map g.reach).Nodup := hsubsets ▸ g.nodup_subsets
  obtain ⟨i, hi, rfl⟩ := List.mem_iff_getElem.1 hw
  have hindex : g.subsets.idxOf (g.reach words[i]) = i := by
    have hat := hnodup.idxOf_getElem i (by rwa [List.length_map])
    rw [List.getElem_map] at hat
    rw [hsubsets, hat]
  rw [hindex, List.getElem?_eq_some_iff]
  constructor
  · rintro rfl
    exact ⟨hi, rfl⟩
  · rintro ⟨hq, heq⟩
    exact ((hnodup.of_map g.reach).getElem_inj_iff.1 heq).symm

theorem leastWord_determinize_iff (hwords : ∀ w, w ∈ words ↔ g.LeastWord w)
    (hsubsets : g.subsets = words.map g.reach) :
    g.determinize.LeastWord q w ↔ words[q]? = some w := by
  constructor
  · rintro ⟨hleads, hleast⟩
    obtain ⟨hholds, hnumber⟩ := run?_zero_eq_some_iff.1 hleads
    refine (idxOf_reach_iff hsubsets ((hwords w).2 ⟨hholds, fun v hv => hleast v ?_⟩)).1 hnumber
    exact run?_zero_eq_some_iff.2 ⟨hv ▸ hholds, hv ▸ hnumber⟩
  · intro hq
    have hw : w ∈ words := List.mem_of_getElem? hq
    have hnumber := (idxOf_reach_iff hsubsets hw).2 hq
    obtain ⟨hholds, hleast⟩ := (hwords w).1 hw
    refine ⟨run?_zero_eq_some_iff.2 ⟨hholds, hnumber⟩, fun v hv => hleast v ?_⟩
    obtain ⟨hvholds, hvnumber⟩ := run?_zero_eq_some_iff.1 hv
    exact (List.idxOf_inj (reach_mem_subsets hvholds)).1 (hvnumber.trans hnumber.symm)

end Graph

namespace Fragment

/-- The states of an automaton are numbered without gaps by the order of their least words. Every
state has a least word, the start has the empty one, and of two states the one with the smaller
number has the word that comes first. -/
theorem determinize_numbers_by_leastWord (f : Fragment) :
    (∀ q, q < f.determinize.size ↔ ∃ w, f.determinize.run? 0 w = some q) ∧
    (∀ q < f.determinize.size, ∃ w, f.determinize.LeastWord q w) ∧
    f.determinize.LeastWord 0 [] ∧
    ∀ p q v w, f.determinize.LeastWord p v → f.determinize.LeastWord q w →
      (p < q ↔ v.Before w) := by
  obtain ⟨words, hascending, hwords, hsubsets⟩ := f.graph.exists_leastWords
  have hleast {q : Nat} {w : Text} :=
    Graph.leastWord_determinize_iff (q := q) (w := w) hwords hsubsets
  have hsize : f.determinize.size = words.length := by
    rw [Graph.size_determinize, hsubsets, List.length_map]
  refine ⟨fun q => ⟨Graph.exists_run?_of_lt, ?_⟩, ?_, ?_, ?_⟩
  · rintro ⟨w, hw⟩
    obtain ⟨hholds, rfl⟩ := Graph.run?_zero_eq_some_iff.1 hw
    rw [Graph.size_determinize]
    exact List.idxOf_lt_length_of_mem (Graph.reach_mem_subsets hholds)
  · intro q hq
    rw [hsize] at hq
    exact ⟨words[q], hleast.2 (List.getElem?_eq_getElem hq)⟩
  · refine ⟨rfl, fun v _ => ?_⟩
    exact (List.shortlex_nil_or_eq_nil v).symm.imp_left Eq.symm
  · intro p q v w hv hw
    obtain ⟨hp, rfl⟩ := List.getElem?_eq_some_iff.1 (hleast.1 hv)
    obtain ⟨hq, rfl⟩ := List.getElem?_eq_some_iff.1 (hleast.1 hw)
    have hbefore := List.pairwise_iff_getElem.1 hascending
    refine ⟨hbefore p q hp hq, fun hlt => ?_⟩
    rcases Nat.lt_trichotomy p q with hpq | rfl | hqp
    · exact hpq
    · exact absurd hlt (Std.Irrefl.irrefl _)
    · exact absurd hlt (Std.Asymm.asymm _ _ (hbefore q p hq hp hqp))

/-- A star over two characters, of which the one that is first by code points was put second. -/
theorem determinize_numbers_by_leastWord_either :
    let d := ((symbol 'b').alternate (symbol 'a')).star.determinize
    d.size = 3 ∧ d.LeastWord 1 ['a'] ∧ d.LeastWord 2 ['b'] ∧
      (1 < 2 ↔ Text.Before ['a'] ['b']) := by
  intro d
  have hd : d = ⟨.replicate 3 ⟨[('a', 1), ('b', 2)], true⟩⟩ := by
    show ((symbol 'b').alternate (symbol 'a')).star.determinize = _
    cbv
  have hnext {b : Char} {q : Nat} (hb : d.next? 0 b = some q) : (b, q) ∈ [('a', 1), ('b', 2)] := by
    rw [hd] at hb
    obtain ⟨before, behind, hmoves, -⟩ := List.lookup_eq_some_iff.1 hb
    have hmem : (b, q) ∈ before ++ (b, q) :: behind := by simp
    rwa [← hmoves] at hmem
  have ha : d.LeastWord 1 ['a'] := .singleton (by decide) (by rw [hd]; rfl) fun b hb => by
    simpa [eq_comm] using hnext hb
  have hb : d.LeastWord 2 ['b'] := .singleton (by decide) (by rw [hd]; rfl) fun b hb => by
    simpa [eq_comm] using hnext hb
  exact ⟨by rw [hd]; rfl, ha, hb, (determinize_numbers_by_leastWord _).2.2.2 1 2 _ _ ha hb⟩

end Fragment

end PatternLexer
