import PatternLexer.Automaton.Graph

/-! Automaton fragments: finite automata with epsilon arcs, one start state and any number of
accepting states. A fragment of size `n` has the states `1` to `n`. -/

namespace PatternLexer

/-- The arcs of the states from the first on, in the order in which they were added. -/
structure Fragment where
  rows : List (List Arc)
  start : Nat
  accepting : List Nat
  deriving DecidableEq

namespace Fragment

def size (f : Fragment) : Nat := f.rows.length

/-- The arcs of a state; a number that is no state has none. -/
def arcs (f : Fragment) : Nat → List Arc
  | 0 => []
  | s + 1 => f.rows[s]?.getD []

/-! ### Leaves -/

/-- Accepts the word of one given character. -/
def symbol (c : Char) : Fragment := ⟨[[⟨.symbol c, 2⟩], []], 1, [2]⟩

/-- Accepts the empty word. -/
def epsilon : Fragment := ⟨[[⟨.epsilon, 2⟩], []], 1, [2]⟩

/-- Accepts nothing. -/
def empty : Fragment := ⟨[[]], 1, []⟩

/-! ### Membership of arcs -/

theorem mem_rows_of_mem_arcs {f : Fragment} {s : Nat} {arc : Arc} (h : arc ∈ f.arcs s) :
    ∃ row ∈ f.rows, arc ∈ row := by
  cases s with
  | zero => exact nomatch h
  | succ s =>
    rw [arcs] at h
    cases hrow : f.rows[s]? with
    | none => rw [hrow] at h; exact nomatch h
    | some row => exact ⟨row, List.mem_of_getElem? hrow, by simpa [hrow] using h⟩

/-! ### The graph -/

theorem finiteRange_arcs (f : Fragment) : FiniteRange fun s => (f.arcs s).map Arc.target := by
  refine ⟨f.rows.flatten.map Arc.target, fun s t h => ?_⟩
  obtain ⟨arc, harc, rfl⟩ := List.mem_map.1 h
  obtain ⟨row, hrow, hmem⟩ := mem_rows_of_mem_arcs harc
  exact List.mem_map_of_mem (List.mem_flatten.2 ⟨row, hrow, hmem⟩)

/-- What a run of the fragment looks at. -/
abbrev graph (f : Fragment) : Graph where
  arcs := f.arcs
  start := f.start
  accepting := f.accepting
  finite := f.finiteRange_arcs

end Fragment

end PatternLexer
