import Mathlib.Data.List.Sort
import Mathlib.Data.Set.Function
import PatternLexer.Proofs.Automaton.Assemblies
import PatternLexer.Proofs.Automaton.Shortlex

/-! What determinization does not look at. The automaton hangs only on which words lead nowhere,
which lead to one set, and which sets accept. None of this changes when the states are numbered in
another way, so automata that differ in their layout alone are determinized to one automaton. -/

namespace PatternLexer

namespace Graph

variable {g k : Graph} {φ : Nat → Nat} {s t : Nat} {v w : Text} {label : Label}

/-! ### Graphs of another layout -/

/-- Some path leads to the number from the start. -/
def Reached (g : Graph) (s : Nat) : Prop := ∃ w, Path g.arcs g.start w s

/-- What is reached in the first graph, in the numbers of the second. The start stays the start,
accepting numbers accept, and between two numbers there are arcs of the same labels. -/
structure Renumbers (φ : Nat → Nat) (g k : Graph) : Prop where
  bijOn : Set.BijOn φ {s | g.Reached s} {t | k.Reached t}
  start : φ g.start = k.start
  accepting : ∀ s, g.Reached s → (φ s ∈ k.accepting ↔ s ∈ g.accepting)
  arcs : ∀ s t label, g.Reached s → g.Reached t →
    (⟨label, φ t⟩ ∈ k.arcs (φ s) ↔ ⟨label, t⟩ ∈ g.arcs s)

theorem reached_start (g : Graph) : g.Reached g.start := ⟨[], .nil _⟩

theorem Reached.path (h : g.Reached s) (hpath : Path g.arcs s w t) : g.Reached t := by
  obtain ⟨v, hv⟩ := h
  exact ⟨v ++ w, hv.append hpath⟩

theorem Reached.arc (h : g.Reached s) (harc : ⟨label, t⟩ ∈ g.arcs s) : g.Reached t := by
  cases label with
  | epsilon => exact h.path (.epsilon harc (.nil t))
  | symbol c => exact h.path (.symbol harc (.nil t))

/-- What holds of the start and passes along arcs holds of all that is reached. -/
theorem Reached.induction {P : Nat → Prop} (hstart : P g.start)
    (harc : ∀ s arc, P s → arc ∈ g.arcs s → P arc.target) (h : g.Reached s) : P s := by
  obtain ⟨w, hpath⟩ := h
  generalize g.start = r at hstart hpath
  induction hpath with
  | nil => exact hstart
  | epsilon hmem _ ih => exact ih (harc _ _ hstart hmem)
  | symbol hmem _ ih => exact ih (harc _ _ hstart hmem)

/-! ### The automaton by words -/

theorem idxOf_map_congr {α β γ : Type} [DecidableEq α] [DecidableEq β] {F : γ → α} {G : γ → β}
    (h : ∀ x y, F x = F y ↔ G x = G y) (xs : List γ) (x : γ) :
    (xs.map F).idxOf (F x) = (xs.map G).idxOf (G x) := by
  induction xs with
  | nil => rfl
  | cons y ys ih =>
    simp only [List.map_cons, List.idxOf_cons, ih, beq_eq_decide, h]

/-- Two graphs have one automaton when the same words lead nowhere, the same words lead to one
set, and after the same words acceptance is possible. -/
theorem determinize_congr (hempty : ∀ w, (g.reach w).isEmpty = (k.reach w).isEmpty)
    (hsame : ∀ v w, g.reach v = g.reach w ↔ k.reach v = k.reach w)
    (haccepting : ∀ w, g.isAccepting (g.reach w) = k.isAccepting (k.reach w)) :
    g.determinize = k.determinize := by
  obtain ⟨words, hascending, hwords, hsubsets⟩ := g.exists_leastWords
  obtain ⟨words', hascending', hwords', hsubsets'⟩ := k.exists_leastWords
  have hleast (w : Text) : g.LeastWord w ↔ k.LeastWord w := by
    constructor
    · rintro ⟨hholds, hleast⟩
      exact ⟨hempty w ▸ hholds, fun v hv => hleast v ((hsame v w).2 hv)⟩
    · rintro ⟨hholds, hleast⟩
      exact ⟨(hempty w).symm ▸ hholds, fun v hv => hleast v ((hsame v w).1 hv)⟩
  obtain rfl : words = words' := hascending.eq_of_mem_iff hascending' fun w => by
    rw [hwords, hwords', hleast]
  have hsymbols (w : Text) : g.symbols (g.reach w) = k.symbols (k.reach w) := by
    refine Ascending.ext fun c => ?_
    rw [mem_symbols_iff, mem_symbols_iff, ← reach_snoc, ← reach_snoc, hempty]
  have hstate (w : Text) :
      g.detState g.subsets (g.reach w) = k.detState k.subsets (k.reach w) := by
    simp only [detState, hsymbols, haccepting, hsubsets, hsubsets', ← reach_snoc,
      idxOf_map_congr hsame]
  have hstates : g.determinize.states = k.determinize.states := by
    rw [states_determinize, states_determinize, hsubsets, hsubsets', List.map_map, List.map_map]
    rw [← hsubsets, ← hsubsets']
    exact List.map_congr_left fun w _ => hstate w
  exact congrArg DetAutomaton.mk hstates

/-! ### Paths in other numbers -/

namespace Renumbers

theorem path (h : Renumbers φ g k) (hs : g.Reached s) (hpath : Path g.arcs s w t) :
    Path k.arcs (φ s) w (φ t) := by
  induction hpath with
  | nil => exact .nil _
  | epsilon harc _ ih =>
    exact .epsilon ((h.arcs _ _ _ hs (hs.arc harc)).2 harc) (ih (hs.arc harc))
  | symbol harc _ ih =>
    exact .symbol ((h.arcs _ _ _ hs (hs.arc harc)).2 harc) (ih (hs.arc harc))

/-- An arc in the other numbers is the image of an arc. -/
theorem exists_arc (h : Renumbers φ g k) (hs : g.Reached s) (harc : ⟨label, t⟩ ∈ k.arcs (φ s)) :
    ∃ u, g.Reached u ∧ φ u = t ∧ ⟨label, u⟩ ∈ g.arcs s := by
  have ht : k.Reached t := Reached.arc (h.bijOn.mapsTo hs) harc
  obtain ⟨u, hu, rfl⟩ := h.bijOn.surjOn ht
  exact ⟨u, hu, rfl, (h.arcs s u label hs hu).1 harc⟩

theorem exists_path (h : Renumbers φ g k) (hs : g.Reached s) (hpath : Path k.arcs (φ s) w t) :
    ∃ u, φ u = t ∧ Path g.arcs s w u := by
  generalize hp : φ s = p at hpath
  induction hpath generalizing s with
  | nil => exact ⟨s, hp, .nil s⟩
  | epsilon harc _ ih =>
    subst hp
    obtain ⟨r, hr, rfl, hback⟩ := h.exists_arc hs harc
    obtain ⟨u, hu, hpath⟩ := ih hr rfl
    exact ⟨u, hu, .epsilon hback hpath⟩
  | symbol harc _ ih =>
    subst hp
    obtain ⟨r, hr, rfl, hback⟩ := h.exists_arc hs harc
    obtain ⟨u, hu, hpath⟩ := ih hr rfl
    exact ⟨u, hu, .symbol hback hpath⟩

/-- After every word the second graph holds the same states in its own numbers. -/
theorem mem_reach_iff (h : Renumbers φ g k) : t ∈ k.reach w ↔ ∃ s ∈ g.reach w, φ s = t := by
  simp only [mem_reach, ← h.start]
  constructor
  · intro hpath
    obtain ⟨u, hu, hpath⟩ := h.exists_path g.reached_start hpath
    exact ⟨u, hpath, hu⟩
  · rintro ⟨s, hpath, rfl⟩
    exact h.path g.reached_start hpath

theorem mem_reach_map (h : Renumbers φ g k) (hs : g.Reached s) :
    φ s ∈ k.reach w ↔ s ∈ g.reach w := by
  rw [h.mem_reach_iff]
  constructor
  · rintro ⟨r, hr, heq⟩
    rwa [← h.bijOn.injOn ⟨w, mem_reach.1 hr⟩ hs heq]
  · intro hreach
    exact ⟨s, hreach, rfl⟩

theorem isEmpty_reach (h : Renumbers φ g k) (w : Text) :
    (g.reach w).isEmpty = (k.reach w).isEmpty := by
  rw [Bool.eq_iff_iff, Ascending.isEmpty_iff, Ascending.isEmpty_iff]
  simp only [h.mem_reach_iff, not_exists, not_and]
  constructor
  · intro hempty t s hs
    exact absurd hs (hempty s)
  · intro hempty s hs
    exact hempty _ s hs rfl

theorem reach_eq_iff (h : Renumbers φ g k) (v w : Text) :
    g.reach v = g.reach w ↔ k.reach v = k.reach w := by
  constructor
  · intro heq
    refine Ascending.ext fun t => ?_
    rw [h.mem_reach_iff, h.mem_reach_iff, heq]
  · intro heq
    refine Ascending.ext fun s => ?_
    by_cases hs : g.Reached s
    · rw [← h.mem_reach_map hs, ← h.mem_reach_map hs, heq]
    · exact iff_of_false (fun hv => hs ⟨v, mem_reach.1 hv⟩) fun hw => hs ⟨w, mem_reach.1 hw⟩

theorem isAccepting_reach (h : Renumbers φ g k) (w : Text) :
    g.isAccepting (g.reach w) = k.isAccepting (k.reach w) := by
  rw [Bool.eq_iff_iff, isAccepting_iff, isAccepting_iff]
  constructor
  · rintro ⟨s, hacc, hs⟩
    have hreached : g.Reached s := ⟨w, mem_reach.1 hs⟩
    exact ⟨φ s, (h.accepting s hreached).2 hacc, (h.mem_reach_map hreached).2 hs⟩
  · rintro ⟨t, hacc, ht⟩
    obtain ⟨s, hs, rfl⟩ := h.mem_reach_iff.1 ht
    exact ⟨s, (h.accepting s ⟨w, mem_reach.1 hs⟩).1 hacc, hs⟩

theorem determinize_eq (h : Renumbers φ g k) : g.determinize = k.determinize :=
  determinize_congr h.isEmpty_reach h.reach_eq_iff h.isAccepting_reach

end Renumbers

/-- Nothing is renumbered where all that is reached keeps its arcs. -/
theorem renumbers_id (hstart : k.start = g.start) (haccepting : k.accepting = g.accepting)
    (harcs : ∀ s, g.Reached s → k.arcs s = g.arcs s) : Renumbers id g k := by
  have hreached : {s | g.Reached s} = {t | k.Reached t} := by
    ext s
    constructor
    · intro hs
      refine (hs.induction (P := fun s => g.Reached s ∧ k.Reached s)
        ⟨g.reached_start, hstart ▸ k.reached_start⟩ ?_).2
      rintro s arc ⟨hg, hk⟩ harc
      exact ⟨hg.arc harc, hk.arc (harcs s hg ▸ harc)⟩
    · intro hs
      exact hs.induction (hstart ▸ g.reached_start)
        fun s arc hg harc => hg.arc (harcs s hg ▸ harc)
  refine ⟨hreached ▸ Set.bijOn_id _, hstart.symm, fun s _ => ?_, fun s t label hs _ => ?_⟩
  · rw [id_eq, haccepting]
  · rw [id_eq, id_eq, harcs s hs]

end Graph

/-- Some path leads to the state from the start. -/
abbrev Fragment.Reached (f : Fragment) (s : Nat) : Prop := f.graph.Reached s

theorem Fragment.reached_start (f : Fragment) : f.Reached f.start := f.graph.reached_start

theorem Fragment.hasState_of_reached {f : Fragment} {s : Nat} (hf : f.InRange) (h : f.Reached s) :
    f.HasState s :=
  h.induction hf.start fun s arc _ hmem => hf.targets s arc hmem

namespace Table

variable {t host guest : Table} {s : Nat}

theorem InRange.hasState_of_reached (ht : t.InRange) (h : t.graph.Reached s) : t.HasState s := by
  refine h.induction ht.start ?_
  rintro s arc - hmem
  obtain ⟨e, he, rfl⟩ := List.mem_map.1 hmem
  exact (ht.ends e (mem_transitions_of_mem_transitionsFrom he)).2

/-! ### An unlinked guest -/

/-- The states of the guest stand behind those of the host. -/
theorem transitionsFrom_embedding (hh : host.InRange) (hg : guest.InRange) (hs : s ≤ host.size) :
    (host.embedding guest).host.transitionsFrom s = host.transitionsFrom s := by
  obtain ⟨-, htransitions⟩ := filed_embedding hh.filed guest
  rw [htransitions, Transition.filter_shift_of_le (fun e he => (hg.ends e he).1.1) hs,
    List.append_nil]

/-- A guest that is only embedded is never reached, and all else keeps its number. -/
theorem renumbers_embedding (hh : host.InRange) (hg : guest.InRange) :
    Graph.Renumbers id host.graph (host.embedding guest).host.graph :=
  Graph.renumbers_id rfl rfl fun _ hs =>
    congrArg (List.map Transition.arc)
      (transitionsFrom_embedding hh hg (hh.hasState_of_reached hs).2)

/-- Determinization gives equal automata for tables that differ only in the numbers of their states,
in the order and number of transitions and accepting states, and in what is never reached. In
particular an embedded guest that nothing is linked to leaves the automaton of its host alone, as
long as there is room for the states of both. -/
theorem determinize_ignores_layout (mode : Mode) (t u : Table) :
    (∀ φ : Nat → Nat, Graph.Renumbers φ t.graph u.graph →
      t.graph.determinize = u.graph.determinize) ∧
    (t.InRange → u.InRange → t.size + u.size < wordSize → ∃ e, t.embed mode u = .ok e ∧
      e.host.graph.determinize = t.graph.determinize) :=
  ⟨fun _ h => h.determinize_eq, fun ht hu hroom =>
    ⟨t.embedding u, embed_eq_ok hu hroom mode, (renumbers_embedding ht hu).determinize_eq.symm⟩⟩

/-- One symbol, against a table with its two states exchanged, the transition and the accepting
state doubled, and a third state that leads to the start but is not reached. -/
theorem determinize_ignores_layout_exchanged :
    let t : Table := { size := 2, accepting := [2], filed := [(1, [⟨1, .symbol 'a', 2⟩])] }
    let u : Table := {
      size := 3
      start := 2
      accepting := [1, 1]
      filed := [(2, [⟨2, .symbol 'a', 1⟩, ⟨2, .symbol 'a', 1⟩]), (3, [⟨3, .symbol 'b', 2⟩])] }
    Graph.Renumbers (3 - ·) t.graph u.graph ∧ t.graph.determinize = u.graph.determinize ∧
      t.InRange ∧ u.InRange ∧ ∃ e, t.embed .checked u = .ok e ∧
        e.host.graph.determinize = t.graph.determinize := by
  intro t u
  have harcs : t.graph.arcs 1 = [⟨.symbol 'a', 2⟩] ∧ t.graph.arcs 2 = [] ∧
      u.graph.arcs 1 = [] ∧ u.graph.arcs 2 = [⟨.symbol 'a', 1⟩, ⟨.symbol 'a', 1⟩] :=
    ⟨rfl, rfl, rfl, rfl⟩
  have ht (s : Nat) : t.graph.Reached s ↔ s = 1 ∨ s = 2 := by
    constructor
    · refine Graph.Reached.induction (P := fun s => s = 1 ∨ s = 2) (.inl rfl) ?_
      rintro _ arc (rfl | rfl) harc <;> simp_all
    · rintro (rfl | rfl)
      · exact t.graph.reached_start
      · exact t.graph.reached_start.arc (List.mem_singleton_self _)
  have hu (s : Nat) : u.graph.Reached s ↔ s = 1 ∨ s = 2 := by
    constructor
    · refine Graph.Reached.induction (P := fun s => s = 1 ∨ s = 2) (.inr rfl) ?_
      rintro _ arc (rfl | rfl) harc <;> simp_all
    · rintro (rfl | rfl)
      · exact u.graph.reached_start.arc List.mem_cons_self
      · exact u.graph.reached_start
  have hrenumbers : Graph.Renumbers (3 - ·) t.graph u.graph := by
    refine ⟨⟨?_, ?_, ?_⟩, rfl, ?_, ?_⟩
    · intro s hs
      have hs := (ht s).1 hs
      exact (hu (3 - s)).2 (by omega)
    · intro s hs r hr heq
      have hs := (ht s).1 hs
      have hr := (ht r).1 hr
      have heq : 3 - s = 3 - r := heq
      omega
    · intro s hs
      have hs := (hu s).1 hs
      exact ⟨3 - s, (ht _).2 (by omega), show 3 - (3 - s) = s by omega⟩
    · intro s hs
      rcases (ht s).1 hs with rfl | rfl <;> simp [t, u, graph]
    · intro s r label hs hr
      rcases (ht s).1 hs with rfl | rfl <;> rcases (ht r).1 hr with rfl | rfl <;> simp [harcs]
  have ht : t.InRange := ⟨by decide, by decide, by decide, by decide, by decide⟩
  have hu : u.InRange := ⟨by decide, by decide, by decide, by decide, by decide⟩
  obtain ⟨hlayout, hembed⟩ := determinize_ignores_layout .checked t u
  exact ⟨hrenumbers, hlayout _ hrenumbers, ht, hu, hembed ht hu (by decide)⟩

/-- Half of the words are states of the host, and a few more are states of the guest. Unchecked, the
transition of the guest wraps around to the states of the host. -/
theorem not_determinize_embed_padded :
    let host := Assembly.padded 'a' 62
    let guest := (Assembly.doubled 63).embed (.symbol 'b')
    (host.embed guest).table .checked = .error .overflow ∧
    ∃ t u e, host.table .unchecked = .ok t ∧ guest.table .unchecked = .ok u ∧ t.InRange ∧
      u.InRange ∧ t.embed .unchecked u = .ok e ∧
      e.host.graph.determinize ≠ t.graph.determinize := by
  intro host guest
  have hhost : host.fragment.size = 2 ^ 63 := Assembly.size_padded 'a' 62
  have hguest : guest.fragment.size = 2 ^ 63 + 2 := by
    rw [Assembly.fragment, Fragment.size_embed, Assembly.size_doubled]
    rfl
  have hfull : wordSize ≤ (host.embed guest).fragment.size := by
    rw [Assembly.fragment, Fragment.size_embed, hhost, hguest]
    decide
  let t : Table := { size := 2 ^ 63, accepting := [2], filed := [(1, [⟨1, .symbol 'a', 2⟩])] }
  let u : Table := {
    size := 2 ^ 63 + 2
    filed := [(2 ^ 63 + 1, [⟨2 ^ 63 + 1, .symbol 'b', 2 ^ 63 + 2⟩])] }
  let e : Embedding Table := {
    host := {
      size := 2
      accepting := [2]
      filed := [(1, [⟨1, .symbol 'a', 2⟩, ⟨1, .symbol 'b', 2⟩])] }
    offset := 2 ^ 63
    start := 2 ^ 63 + 1
    accepting := [] }
  have ht : host.table .unchecked = .ok t := Assembly.unchecked_table_padded 'a' 62
  have hu : guest.table .unchecked = .ok u :=
    bind_eq_ok.2 ⟨_, Assembly.unchecked_table_doubled 63, rfl⟩
  have he : t.embed .unchecked u = .ok e := by decide
  have hrt := Assembly.represents ht (hhost ▸ by decide)
  have hru := Assembly.represents hu (hguest ▸ by decide)
  refine ⟨Assembly.checked_table_eq_error _ hfull, t, u, e, ht, hu,
    hrt.inRange host.built_fragment.inRange, hru.inRange guest.built_fragment.inRange, he, ?_⟩
  intro hsame
  have hhosted : e.host.graph.recognizes ['b'] = true :=
    (e.host.graph.recognizes_iff _).2 ⟨2, by decide, .symbol (u := 2) (by decide) (.nil 2)⟩
  have hword : t.graph.recognizes ['b'] = true := by
    rwa [← Graph.recognizes_determinize, ← hsame, Graph.recognizes_determinize]
  obtain ⟨r, -, hpath⟩ := (t.graph.recognizes_iff _).1 hword
  have honly {arc : Arc} (harc : arc ∈ t.graph.arcs 1) : arc = ⟨.symbol 'a', 2⟩ :=
    List.mem_singleton.1 harc
  cases hpath with
  | epsilon harc _ => exact absurd (honly harc) (by simp)
  | symbol harc _ => exact absurd (honly harc) (by simp)

end Table

end PatternLexer
