import Mathlib.Data.Finset.Powerset
import Mathlib.Order.Interval.Finset.Nat
import PatternLexer.Automaton.Construction
import PatternLexer.Proofs.Automaton.Determinization
import PatternLexer.Proofs.Automaton.Layout

/-! How long the subset construction takes. Its data move in step: the numbers go to the sets
processed and then to the queue, and every set processed has a row and a flag at its number. The
sets are distinct, not empty, and made of states, so there are fewer of them than subsets of the
states. -/

namespace PatternLexer

variable {g : Graph} {set : StateSet} {processed : List StateSet} {w : Worklist}
  {k : Construction} {n : Nat}

/-- Distinct non-empty sets of elements of a pool are fewer than the subsets of the pool. -/
theorem Ascending.length_lt_two_pow_card {sets : List (Ascending Nat)} {pool : Finset Nat}
    (hnodup : sets.Nodup) (hpool : ∀ s ∈ sets, ∀ a ∈ s, a ∈ pool)
    (hne : ∀ s ∈ sets, s.isEmpty = false) : sets.length < 2 ^ pool.card := by
  have hinjective : Function.Injective fun s : Ascending Nat => s.toList.toFinset := by
    intro s t h
    refine Ascending.ext fun a => ?_
    rw [← mem_toList, ← mem_toList, ← List.mem_toFinset, ← List.mem_toFinset]
    exact iff_of_eq (congrArg (a ∈ ·) h)
  have hdistinct := hnodup.map hinjective
  have hsubset : (sets.map fun s => s.toList.toFinset).toFinset ⊂ pool.powerset := by
    refine (Finset.ssubset_iff_of_subset fun members h => ?_).2
      ⟨∅, Finset.empty_mem_powerset pool, fun h => ?_⟩
    · obtain ⟨s, hs, rfl⟩ := List.mem_map.1 (List.mem_toFinset.1 h)
      exact Finset.mem_powerset.2 fun a ha => hpool s hs a (List.mem_toFinset.1 ha)
    · obtain ⟨s, hs, hempty⟩ := List.mem_map.1 (List.mem_toFinset.1 h)
      have hlist : s.toList = [] := (List.toFinset_eq_empty_iff _).1 hempty
      simpa [isEmpty, hlist] using hne s hs
  calc sets.length = (sets.map fun s => s.toList.toFinset).toFinset.card := by
        rw [List.toFinset_card_of_nodup hdistinct, List.length_map]
    _ < pool.powerset.card := Finset.card_lt_card hsubset
    _ = 2 ^ pool.card := Finset.card_powerset pool

/-! ### The worklist with its data apart -/

namespace Worklist

/-- The same data, with the numbers written out, and the rows and flags in two lists. -/
def columns (w : Worklist) : Construction where
  numbers := w.found.zipIdx
  queue := w.queue
  rows := w.states.map DetState.moves
  flags := w.states.map DetState.accepting

theorem lookup_zipIdx (sets : List StateSet) (n : Nat) (set : StateSet) :
    (sets.zipIdx n).lookup set = if set ∈ sets then some (sets.idxOf set + n) else none := by
  induction sets generalizing n with
  | nil => rfl
  | cons other sets ih =>
    by_cases h : set = other
    · subst h
      simp
    · simp [List.lookup_cons, beq_false_of_ne h, ih, h, List.idxOf_cons_ne _ (Ne.symm h),
        Nat.add_right_comm _ 1 n, Nat.add_assoc]

theorem number_columns (w : Worklist) (set : StateSet) :
    w.columns.number set = ((w.number set).1, (w.number set).2.columns) := by
  unfold Construction.number number columns
  by_cases h : set ∈ w.found
  · simp [lookup_zipIdx, h]
  · simp [lookup_zipIdx, h, List.zipIdx_append]

theorem moves_columns (g : Graph) (set : StateSet) (w : Worklist) (cs : List Char) :
    w.columns.moves g set cs = ((w.moves g set cs).1, (w.moves g set cs).2.columns) := by
  induction cs generalizing w with
  | nil => rfl
  | cons c cs ih => simp only [Construction.moves, moves, number_columns, ih]

/-- A round comes to the same when the data are apart. -/
theorem process?_columns (g : Graph) (w : Worklist) :
    w.columns.process? g = (w.process? g).map (Prod.map id columns) := by
  obtain ⟨found, queue, states⟩ := w
  cases queue with
  | nil => rfl
  | cons set behind =>
    have hmoves := moves_columns g set ⟨found, behind, states⟩ (g.symbols set).toList
    simp only [columns] at hmoves
    simp [process?, Construction.process?, columns, hmoves, visit]

theorem rounds_columns_iff :
    Rounds (Construction.process? g) w.columns processed k ↔
      ∃ final, Rounds (process? g) w processed final ∧ final.columns = k :=
  rounds_image_iff (process?_columns g)

end Worklist

/-! ### The construction -/

namespace Graph

/-- Every move leads to a state. -/
theorem lt_size_determinize {state : DetState} (hstate : state ∈ g.determinize.states)
    {move : Char × Nat} (hmove : move ∈ state.moves) : move.2 < g.determinize.size := by
  rw [states_determinize] at hstate
  obtain ⟨set, hset, rfl⟩ := List.mem_map.1 hstate
  obtain ⟨c, hc, rfl⟩ := List.mem_map.1 hmove
  have hstep := step_mem_subsets hset (mem_symbols_iff.1 hc)
  rw [size_determinize]
  exact List.idxOf_lt_length_of_mem hstep

/-- The sets found are made of what is reached. -/
theorem reached_of_mem_subsets (hset : set ∈ g.subsets) : ∀ s ∈ set, g.Reached s := by
  obtain ⟨word, rfl, -⟩ := exists_reach_of_mem_subsets hset
  intro s hs
  exact ⟨word, mem_reach.1 hs⟩

theorem isEmpty_of_mem_subsets (hset : set ∈ g.subsets) : set.isEmpty = false := by
  obtain ⟨word, -, hne⟩ := exists_reach_of_mem_subsets hset
  exact hne

theorem length_subsets_lt (hbound : ∀ s, g.Reached s → 1 ≤ s ∧ s ≤ n) :
    g.subsets.length < 2 ^ n := by
  have hpool : ∀ set ∈ g.subsets, ∀ s ∈ set, s ∈ Finset.Icc 1 n := by
    intro set hset s hs
    exact Finset.mem_Icc.2 (hbound s (reached_of_mem_subsets hset s hs))
  have hlength := Ascending.length_lt_two_pow_card g.nodup_subsets hpool
    fun set => isEmpty_of_mem_subsets
  rwa [Nat.card_Icc, Nat.add_sub_cancel] at hlength

end Graph

namespace Construction

/-- The data in step after some sets were processed. -/
structure InStep (processed : List StateSet) (k : Construction) : Prop where
  numbers : k.numbers = (processed ++ k.queue).zipIdx
  distinct : (processed ++ k.queue).Nodup
  nonempty : ∀ set ∈ processed ++ k.queue, set.isEmpty = false
  rows : k.rows.length = processed.length
  flags : k.flags.length = processed.length

/-- Behind any number of rounds there is the worklist with the same data. -/
theorem exists_worklist (h : Rounds (process? g) (initial g) processed k) :
    ∃ w : Worklist, w.columns = k ∧ w.states = processed.map (g.detState g.subsets) ∧
      w.found = processed ++ k.queue ∧
      Rounds (visit? g.successors) ([g.closure [g.start]], [g.closure [g.start]]) processed
        (w.found, k.queue) := by
  obtain ⟨w, hw, rfl⟩ := (Worklist.rounds_columns_iff (w := .initial g)).1 h
  have hrounds := Worklist.rounds_visit?_iff.2 ⟨w, hw, rfl⟩
  have hfound : w.found = [] ++ processed ++ w.queue := hrounds.found_eq rfl
  exact ⟨w, rfl, Worklist.states_of_rounds hw, hfound, hrounds⟩

theorem prefix_subsets (h : Rounds (process? g) (initial g) processed k) :
    processed ++ k.queue <+: g.subsets := by
  obtain ⟨w, -, -, hfound, hrounds⟩ := exists_worklist h
  rw [← hfound]
  exact hrounds.prefix_reachable g.successors_finite

theorem inStep (h : Rounds (process? g) (initial g) processed k) : k.InStep processed := by
  have hseen := prefix_subsets h
  obtain ⟨w, rfl, hstates, hfound, -⟩ := exists_worklist h
  refine ⟨congrArg List.zipIdx hfound, g.nodup_subsets.sublist hseen.sublist, ?_, ?_, ?_⟩
  · exact fun set hset => Graph.isEmpty_of_mem_subsets (hseen.subset hset)
  · simp [Worklist.columns, hstates]
  · simp [Worklist.columns, hstates]

/-- When nothing waits any more, the automaton is made. -/
theorem eq_determinize_of_queue_eq_nil (h : Rounds (process? g) (initial g) processed k)
    (hqueue : k.queue = []) : processed = g.subsets ∧
      k.rows = g.determinize.states.map DetState.moves ∧
      k.flags = g.determinize.states.map DetState.accepting := by
  obtain ⟨w, rfl, hstates, -, hrounds⟩ := exists_worklist h
  rw [hqueue] at hrounds
  have hprocessed : processed = g.subsets := hrounds.visited_eq_reachable g.successors_finite
  rw [hprocessed, ← Graph.states_determinize] at hstates
  exact ⟨hprocessed, congrArg _ hstates, congrArg _ hstates⟩

theorem exists_rounds (g : Graph) :
    ∃ processed k, Rounds (process? g) (initial g) processed k ∧ k.queue = [] := by
  obtain ⟨final, hrounds, hend⟩ := Worklist.exists_rounds_initial g
  exact ⟨g.subsets, final.columns, Worklist.rounds_columns_iff.2 ⟨final, hrounds, rfl⟩, hend⟩

end Construction

/-- The construction ends within its bound. Whatever number of rounds was made, the data are in step
and no set was processed twice. Some number of rounds empties the queue, and then every set that the
table may be in was processed, and the rows and flags are those of the automaton, which has a state
and no move that leads nowhere. If the table was made without a fault, the sets are sets of its
states, and rounds and states of the automaton are fewer than the subsets of them. -/
theorem Table.determinize_bounded (t : Table) :
    (∀ processed k, Rounds (Construction.process? t.graph) (.initial t.graph) processed k →
      k.InStep processed ∧
      (k.queue = [] → k.rows = t.graph.determinize.states.map DetState.moves ∧
        k.flags = t.graph.determinize.states.map DetState.accepting ∧
        ∀ word, (t.graph.reach word).isEmpty = false → t.graph.reach word ∈ processed)) ∧
    (∃ processed k, Rounds (Construction.process? t.graph) (.initial t.graph) processed k ∧
      k.queue = []) ∧
    1 ≤ t.graph.determinize.size ∧
    (∀ state ∈ t.graph.determinize.states, ∀ move ∈ state.moves,
      move.2 < t.graph.determinize.size) ∧
    (t.Built → t.graph.determinize.size ≤ 2 ^ t.size - 1 ∧
      ∀ processed k, Rounds (Construction.process? t.graph) (.initial t.graph) processed k →
        processed.length ≤ 2 ^ t.size - 1 ∧
        ∀ set ∈ processed ++ k.queue, ∀ s ∈ set, t.HasState s) := by
  refine ⟨fun processed k h => ⟨Construction.inStep h, fun hqueue => ?_⟩,
    Construction.exists_rounds t.graph, ?_,
    fun state hstate move => Graph.lt_size_determinize hstate, fun ht => ?_⟩
  · obtain ⟨rfl, hrows, hflags⟩ := Construction.eq_determinize_of_queue_eq_nil h hqueue
    exact ⟨hrows, hflags, fun word => Graph.reach_mem_subsets⟩
  · rw [Graph.size_determinize]
    exact List.length_pos_of_mem t.graph.start_mem_subsets
  · obtain ⟨a, -, -, hrepresents⟩ := ht.exists_assembly
    have hstates (s : Nat) (hs : t.graph.Reached s) : t.HasState s :=
      (hrepresents.inRange a.built_fragment.inRange).hasState_of_reached hs
    have hlength := Graph.length_subsets_lt hstates
    rw [Graph.size_determinize]
    refine ⟨by omega, fun processed k h => ?_⟩
    have hseen := Construction.prefix_subsets h
    have hle := hseen.length_le
    rw [List.length_append] at hle
    exact ⟨by omega, fun set hset s hs =>
      hstates s (Graph.reached_of_mem_subsets (hseen.subset hset) s hs)⟩

-- The bound is reached: one state is one set.
example : Fragment.empty.determinize.size = 2 ^ Fragment.empty.size - 1 := by cbv

/-- Six states have sixty-three subsets that are not empty, of which three are processed. -/
theorem Table.determinize_bounded_either :
    let t : Table := {
      size := 6
      start := 6
      accepting := [2, 4, 6]
      filed := [(1, [⟨1, .symbol 'a', 2⟩]), (2, [⟨2, .epsilon, 5⟩]), (3, [⟨3, .symbol 'b', 4⟩]),
        (4, [⟨4, .epsilon, 5⟩]), (5, [⟨5, .epsilon, 1⟩, ⟨5, .epsilon, 3⟩]),
        (6, [⟨6, .epsilon, 5⟩, ⟨6, .epsilon, 6⟩])] }
    t.Built ∧ t.graph.determinize.size = 3 ∧ t.graph.determinize.size ≤ 2 ^ t.size - 1 ∧
      ∃ processed k, Rounds (Construction.process? t.graph) (.initial t.graph) processed k ∧
        k.queue = [] ∧ processed.length = 3 ∧ k.InStep processed := by
  intro t
  let a : Assembly := .star (.alternate (.symbol 'a') (.symbol 'b'))
  have hbuilt : a.table .checked = .ok t := rfl
  have ht : t.Built := ⟨a, hbuilt⟩
  have hsize : t.graph.determinize.size = 3 := by
    rw [(Assembly.represents hbuilt (by decide)).graph_eq]
    cbv
  obtain ⟨hrounds, ⟨processed, k, hrun, hqueue⟩, -, -, hbound⟩ := t.determinize_bounded
  obtain ⟨hstep, hend⟩ := hrounds processed k hrun
  have hlength : processed.length = 3 := by
    rw [← hstep.rows, (hend hqueue).1, List.length_map]
    exact hsize
  exact ⟨ht, hsize, (hbound ht).1, processed, k, hrun, hqueue, hlength, hstep⟩

/-- When the count of the states wraps around to none, nothing but the empty set is a set of states,
and the automaton has a state all the same. -/
theorem Table.not_determinize_bounded_doubled :
    (Assembly.doubled 64).table .checked = .error .overflow ∧
    ∃ t, (Assembly.doubled 64).table .unchecked = .ok t ∧ t.size = 0 ∧
      t.graph.determinize.size = 1 ∧ ¬ t.graph.determinize.size ≤ 2 ^ t.size - 1 := by
  let t : Table := { size := 0 }
  have ht : (Assembly.doubled 64).table .unchecked = .ok t := Assembly.unchecked_table_doubled 64
  have hsize : t.graph.determinize.size = 1 := by
    rw [show t.graph = Fragment.empty.graph from Table.represents_empty.graph_eq]
    cbv
  refine ⟨Assembly.checked_table_eq_error _ Assembly.wordSize_le_doubled, t, ht, rfl, hsize, ?_⟩
  rw [hsize]
  decide

end PatternLexer
