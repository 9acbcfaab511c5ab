import PatternLexer.Automaton.Combination
import PatternLexer.Automaton.Determinization
import PatternLexer.Proofs.Automaton.Simulation

/-! The subset construction as a simulation. The worklist makes one state for every set that the
fragment may be in, numbered in the order of discovery, and the automaton goes from the number of a
set to the number of the set one step further. -/

namespace PatternLexer

variable {g : Graph} {set : StateSet} {c : Char} {processed : List StateSet}
  {w rest final : Worklist}

/-! ### The worklist -/

namespace Worklist

/-- A number stays right while more sets are found. -/
theorem number_fst (w : Worklist) (set : StateSet) {all : List StateSet}
    (h : (w.number set).2.found <+: all) : (w.number set).1 = all.idxOf set := by
  obtain ⟨more, rfl⟩ := h
  unfold number
  split
  · rename_i hset
    rw [List.idxOf_append_of_mem hset]
  · rename_i hset
    have hmem : set ∈ w.found ++ [set] := List.mem_append_right _ (List.mem_singleton_self set)
    rw [List.idxOf_append_of_mem hmem, List.idxOf_append_of_notMem hset]
    simp

theorem prefix_moves (g : Graph) (set : StateSet) (w : Worklist) (cs : List Char) :
    w.found <+: (w.moves g set cs).2.found := by
  rw [moves_snd]
  exact List.prefix_append _ _

theorem moves_fst (g : Graph) (set : StateSet) (w : Worklist) (cs : List Char)
    {all : List StateSet} (h : (w.moves g set cs).2.found <+: all) :
    (w.moves g set cs).1 = cs.map fun c => (c, all.idxOf (g.step set c)) := by
  induction cs generalizing w with
  | nil => rfl
  | cons c cs ih =>
    have hrest : ((w.number (g.step set c)).2.moves g set cs).2.found <+: all := h
    have hnumber := (prefix_moves g set (w.number (g.step set c)).2 cs).trans hrest
    simp only [moves, List.map_cons]
    rw [ih _ hrest, number_fst w _ hnumber]

theorem states_visit (g : Graph) (set : StateSet) (w : Worklist) {all : List StateSet}
    (h : (w.visit g set).found <+: all) :
    (w.visit g set).states = w.states ++ [g.detState all set] := by
  have hrow := moves_fst g set w _ h
  simp only [visit, hrow, moves_snd, Graph.detState]

/-! ### Its rounds -/

/-- One round of the worklist. -/
def process? (g : Graph) (w : Worklist) : Option (StateSet × Worklist) :=
  match w.queue with
  | [] => none
  | set :: behind => some (set, { w with queue := behind }.visit g set)

/-- Only the set that the graph starts in is found, and it waits. -/
def initial (g : Graph) : Worklist := ⟨[g.closure [g.start]], [g.closure [g.start]], []⟩

/-- What is found in the end. -/
def outlook (g : Graph) (w : Worklist) : List StateSet :=
  explore g.successors g.successors_finite w.found w.queue

/-- Sets are found and wait as in an exploration of the successors. -/
theorem visit?_process? (g : Graph) (w : Worklist) :
    visit? g.successors (w.found, w.queue) =
      (w.process? g).map (Prod.map id fun w => (w.found, w.queue)) := by
  unfold process?
  cases hqueue : w.queue with
  | nil => rfl
  | cons set behind => simp [visit?, found_visit, queue_visit]

theorem rounds_visit?_iff {state : List StateSet × List StateSet} :
    Rounds (visit? g.successors) (w.found, w.queue) processed state ↔
      ∃ final, Rounds (process? g) w processed final ∧ (final.found, final.queue) = state :=
  rounds_image_iff (g := fun w : Worklist => (w.found, w.queue)) (visit?_process? g)

theorem run_of_queue_eq_nil (h : w.queue = []) : w.run g = w.states := by
  obtain ⟨found, queue, states⟩ := w
  subst h
  rw [run]

theorem run_of_queue_eq_cons {behind : List StateSet} (h : w.queue = set :: behind) :
    w.run g = ({ w with queue := behind }.visit g set).run g := by
  obtain ⟨found, queue, states⟩ := w
  subst h
  rw [run]

/-- A round makes one state, and changes nothing of what is found and of what is made in the
end. -/
theorem process?_eq_some (h : w.process? g = some (set, rest)) :
    rest.outlook g = w.outlook g ∧ rest.run g = w.run g ∧
      rest.states = w.states ++ [g.detState (w.outlook g) set] := by
  unfold process? at h
  split at h
  · exact nomatch h
  · rename_i front behind hqueue
    obtain ⟨rfl, rfl⟩ := Prod.mk.inj (Option.some.inj h)
    have houtlook : (visit g front { w with queue := behind }).outlook g = w.outlook g := by
      simp only [outlook, found_visit, queue_visit, hqueue]
      rw [explore]
    refine ⟨houtlook, ?_, states_visit g front _ ?_⟩
    · exact (run_of_queue_eq_cons hqueue).symm
    · rw [← houtlook]
      exact prefix_explore _ _ _ _

/-- The states made are those of the sets processed. -/
theorem states_of_rounds (h : Rounds (process? g) w processed final) :
    final.states = w.states ++ processed.map (g.detState (w.outlook g)) := by
  induction h with
  | nil => simp
  | cons hround _ ih =>
    obtain ⟨houtlook, -, hstates⟩ := process?_eq_some hround
    rw [ih, houtlook, hstates]
    simp

/-- Rounds that leave nothing in the queue are the whole run. -/
theorem run_eq_of_rounds (h : Rounds (process? g) w processed final) (hend : final.queue = []) :
    w.run g = final.states := by
  induction h with
  | nil w => exact run_of_queue_eq_nil hend
  | cons hround _ ih => rw [← (process?_eq_some hround).2.1, ih hend]

/-- The rounds process all sets that are found, and then nothing waits. -/
theorem exists_rounds_initial (g : Graph) :
    ∃ final, Rounds (process? g) (initial g) g.subsets final ∧ final.queue = [] := by
  have hrounds := rounds_reachable g.successors_finite [g.closure [g.start]]
  obtain ⟨final, hfinal, hend⟩ := (rounds_visit?_iff (w := initial g)).1 hrounds
  exact ⟨final, hfinal, (Prod.mk.inj hend).2⟩

end Worklist

namespace Graph

/-! ### The sets found -/

theorem prefix_subsets (g : Graph) : [g.closure [g.start]] <+: g.subsets :=
  prefix_explore g.successors g.successors_finite _ _

theorem nodup_subsets (g : Graph) : g.subsets.Nodup :=
  nodup_reachable g.successors g.successors_finite _

theorem idxOf_start (g : Graph) : g.subsets.idxOf (g.closure [g.start]) = 0 := by
  obtain ⟨more, heq⟩ := g.prefix_subsets
  rw [← heq, List.singleton_append, List.idxOf_cons_self]

/-- The automaton has the state of every set found, in the order of discovery. -/
theorem states_determinize (g : Graph) :
    g.determinize.states = g.subsets.map (g.detState g.subsets) := by
  obtain ⟨final, hrounds, hend⟩ := Worklist.exists_rounds_initial g
  calc g.determinize.states = final.states := Worklist.run_eq_of_rounds hrounds hend
    _ = g.subsets.map (g.detState g.subsets) := Worklist.states_of_rounds hrounds

/-- A character is on some arc of a set when it leads somewhere from there. -/
theorem mem_symbols_iff : c ∈ g.symbols set ↔ (g.step set c).isEmpty = false := by
  rw [symbols, Ascending.mem_ofList, ← Bool.not_eq_true, step, isEmpty_closure_iff]
  simp only [List.mem_flatMap, List.mem_filterMap, List.flatMap_eq_nil_iff, not_forall]
  constructor
  · rintro ⟨s, hs, ⟨label, t⟩, harc, hlabel⟩
    cases label with
    | epsilon => cases hlabel
    | symbol d =>
      obtain rfl := Option.some.inj hlabel
      exact ⟨s, hs, List.ne_nil_of_mem (mem_targets.2 harc)⟩
  · rintro ⟨s, hs, hne⟩
    obtain ⟨t, ht⟩ := List.exists_mem_of_ne_nil _ hne
    exact ⟨s, hs, _, mem_targets.1 ht, rfl⟩

theorem mem_successors_iff {next : StateSet} :
    next ∈ g.successors set ↔ ∃ c, (g.step set c).isEmpty = false ∧ g.step set c = next := by
  simp only [successors, List.mem_map, Ascending.mem_toList, mem_symbols_iff]

theorem step_mem_subsets (h : set ∈ g.subsets) (hc : (g.step set c).isEmpty = false) :
    g.step set c ∈ g.subsets := by
  obtain ⟨start, hstart, hleads⟩ := mem_reachable.1 h
  exact mem_reachable.2 ⟨start, hstart, hleads.step (mem_successors_iff.2 ⟨c, hc, rfl⟩)⟩

/-- Every set found is held after some word, and is not empty. -/
theorem exists_reach_of_mem_subsets (h : set ∈ g.subsets) :
    ∃ word, g.reach word = set ∧ set.isEmpty = false := by
  obtain ⟨start, hstart, hleads⟩ := mem_reachable.1 h
  obtain rfl := List.mem_singleton.1 hstart
  induction hleads with
  | refl => exact ⟨[], rfl, by rw [← Bool.not_eq_true, isEmpty_closure_iff]; simp⟩
  | step hleads hnext ih =>
    obtain ⟨c, hc, rfl⟩ := mem_successors_iff.1 hnext
    obtain ⟨word, rfl, -⟩ := ih (mem_reachable.2 ⟨_, hstart, hleads⟩)
    exact ⟨word ++ [c], reach_append g word [c], hc⟩

/-! ### Moves and runs -/

theorem lookup_map_pair {β : Type} (h : Char → β) (cs : List Char) (c : Char) :
    (cs.map fun d => (d, h d)).lookup c = if c ∈ cs then some (h c) else none := by
  induction cs with
  | nil => rfl
  | cons d cs ih =>
    by_cases hd : c = d
    · subst hd
      simp
    · simp [List.lookup_cons, beq_false_of_ne hd, ih, hd]

theorem getElem?_determinize (h : set ∈ g.subsets) :
    g.determinize.states[g.subsets.idxOf set]? = some (g.detState g.subsets set) := by
  rw [states_determinize, List.getElem?_map, List.getElem?_idxOf h, Option.map_some]

/-- The move from the number of a set leads to the number of the set one step on. -/
theorem next?_idxOf (h : set ∈ g.subsets) (c : Char) :
    g.determinize.next? (g.subsets.idxOf set) c =
      if (g.step set c).isEmpty then none else some (g.subsets.idxOf (g.step set c)) := by
  rw [DetAutomaton.next?, getElem?_determinize h, Option.bind_some, detState, lookup_map_pair]
  simp only [Ascending.mem_toList, mem_symbols_iff]
  cases (g.step set c).isEmpty <;> rfl

theorem run?_idxOf (h : set ∈ g.subsets) (hset : set.isEmpty = false) (word : Text) :
    g.determinize.run? (g.subsets.idxOf set) word =
      if (word.foldl g.step set).isEmpty then none
      else some (g.subsets.idxOf (word.foldl g.step set)) := by
  induction word generalizing set with
  | nil => simp [DetAutomaton.run?, hset]
  | cons c word ih =>
    rw [DetAutomaton.run?, next?_idxOf h, List.foldl_cons]
    cases hc : (g.step set c).isEmpty with
    | true => simp [isEmpty_foldl_step hc word]
    | false => simp [ih (step_mem_subsets h hc) hc]

theorem start_mem_subsets (g : Graph) : g.closure [g.start] ∈ g.subsets :=
  g.prefix_subsets.subset (List.mem_singleton_self _)

/-- From its start the automaton goes to the number of the set that the graph holds. -/
theorem run?_zero (g : Graph) (word : Text) :
    g.determinize.run? 0 word =
      if (g.reach word).isEmpty then none else some (g.subsets.idxOf (g.reach word)) := by
  have hstart : (g.closure [g.start]).isEmpty = false := by
    rw [← Bool.not_eq_true, isEmpty_closure_iff]
    simp
  have hrun := run?_idxOf g.start_mem_subsets hstart word
  rwa [idxOf_start] at hrun

theorem run?_zero_eq_none_iff {word : Text} :
    g.determinize.run? 0 word = none ↔ (g.reach word).isEmpty = true := by
  rw [run?_zero]
  cases (g.reach word).isEmpty <;> simp

theorem run?_zero_eq_some_iff {word : Text} {q : Nat} :
    g.determinize.run? 0 word = some q ↔
      (g.reach word).isEmpty = false ∧ g.subsets.idxOf (g.reach word) = q := by
  rw [run?_zero]
  cases (g.reach word).isEmpty <;> simp

/-- What the graph holds after a word is a set found, unless it is empty. -/
theorem reach_mem_subsets {word : Text} (h : (g.reach word).isEmpty = false) :
    g.reach word ∈ g.subsets := by
  induction word using List.reverseRecOn with
  | nil => exact g.start_mem_subsets
  | append_singleton word c ih =>
    rw [reach_append] at h ⊢
    have hword : (g.reach word).isEmpty = false := by
      rw [← Bool.not_eq_true] at h ⊢
      exact fun hempty => h (isEmpty_foldl_step hempty [c])
    exact step_mem_subsets (ih hword) h

theorem isAccepting_idxOf (h : set ∈ g.subsets) :
    g.determinize.isAccepting (g.subsets.idxOf set) = g.isAccepting set := by
  unfold DetAutomaton.isAccepting
  rw [getElem?_determinize h]
  rfl

theorem size_determinize (g : Graph) : g.determinize.size = g.subsets.length := by
  rw [DetAutomaton.size, states_determinize, List.length_map]

theorem exists_run?_of_lt {q : Nat} (h : q < g.determinize.size) :
    ∃ word, g.determinize.run? 0 word = some q := by
  rw [size_determinize] at h
  obtain ⟨word, hword, hset⟩ := exists_reach_of_mem_subsets (List.getElem_mem h)
  refine ⟨word, run?_zero_eq_some_iff.2 ⟨hword ▸ hset, ?_⟩⟩
  rw [hword, g.nodup_subsets.idxOf_getElem q h]

theorem recognizes_determinize (g : Graph) (word : Text) :
    g.determinize.recognizes word = g.recognizes word := by
  unfold DetAutomaton.recognizes
  rw [run?_zero, recognizes_eq]
  cases h : (g.reach word).isEmpty with
  | true => exact (isAccepting_of_isEmpty h).symm
  | false => exact isAccepting_idxOf (reach_mem_subsets h)

end Graph

namespace Fragment

/-- The automaton follows the sets of the fragment exactly: it stops where no state is left, comes
to one state for one set and to different states for different sets, accepts with the sets and has
no state that no word leads to. -/
theorem determinize_simulates (f : Fragment) :
    (∀ u, f.determinize.run? 0 u = none ↔ (f.reach u).isEmpty = true) ∧
    (∀ u v p q, f.determinize.run? 0 u = some p → f.determinize.run? 0 v = some q →
      (p = q ↔ f.reach u = f.reach v)) ∧
    (∀ u q, f.determinize.run? 0 u = some q →
      f.determinize.isAccepting q = f.isAccepting (f.reach u)) ∧
    (∀ q < f.determinize.size, ∃ u, f.determinize.run? 0 u = some q) ∧
    ∀ w, f.determinize.recognizes w = f.recognizes w := by
  refine ⟨fun u => Graph.run?_zero_eq_none_iff, ?_, ?_, fun q hq => Graph.exists_run?_of_lt hq,
    f.graph.recognizes_determinize⟩
  · intro u v p q hu hv
    obtain ⟨hne, rfl⟩ := Graph.run?_zero_eq_some_iff.1 hu
    obtain ⟨-, rfl⟩ := Graph.run?_zero_eq_some_iff.1 hv
    exact List.idxOf_inj (Graph.reach_mem_subsets hne)
  · intro u q hu
    obtain ⟨hne, rfl⟩ := Graph.run?_zero_eq_some_iff.1 hu
    exact Graph.isAccepting_idxOf (Graph.reach_mem_subsets hne)

/-- Two words over two characters with the same end come to one state, which accepts. -/
theorem determinize_simulates_either :
    let f := ((symbol 'a').alternate (symbol 'b')).star
    f.determinize.run? 0 ['a'] = some 1 ∧ f.determinize.run? 0 ['b', 'a'] = some 1 ∧
      f.reach ['a'] = f.reach ['b', 'a'] ∧
      f.determinize.isAccepting 1 = f.isAccepting (f.reach ['a']) := by
  intro f
  have hu : f.determinize.run? 0 ['a'] = some 1 := Graph.run?_zero_eq_some_iff.2 ⟨by cbv, by cbv⟩
  have hv : f.determinize.run? 0 ['b', 'a'] = some 1 :=
    Graph.run?_zero_eq_some_iff.2 ⟨by cbv, by cbv⟩
  obtain ⟨-, hsame, haccept, -⟩ := determinize_simulates f
  exact ⟨hu, hv, (hsame _ _ 1 1 hu hv).1 rfl, haccept _ 1 hu⟩

end Fragment

end PatternLexer
