import PatternLexer.Exploration
import PatternLexer.Text

/-! Graphs whose arcs read characters or nothing. A graph is all that a run of an automaton looks
at: the arcs of every number, where runs start, and which numbers accept. Numbers without arcs need
not be states of anything. -/

namespace PatternLexer

/-- What an arc reads: one character, or nothing. -/
inductive Label where
  | symbol (c : Char)
  | epsilon
  deriving DecidableEq

/-- The character that a label reads. -/
def Label.symbol? : Label → Option Char
  | symbol c => some c
  | epsilon => none

structure Arc where
  label : Label
  target : Nat
  deriving DecidableEq

/-- The arcs of each number, in the order in which they were added. They lead to finitely many
numbers. -/
structure Graph where
  arcs : Nat → List Arc
  start : Nat
  accepting : List Nat
  finite : FiniteRange fun s => (arcs s).map Arc.target

namespace Graph

variable {g k : Graph} {label : Label} {s t : Nat}

theorem eq_of_arcs (harcs : ∀ s, g.arcs s = k.arcs s) (hstart : g.start = k.start)
    (haccepting : g.accepting = k.accepting) : g = k := by
  cases g
  cases k
  cases funext harcs
  cases hstart
  cases haccepting
  rfl

/-- The targets of the arcs of a number with a given label. -/
def targets (g : Graph) (label : Label) (s : Nat) : List Nat :=
  ((g.arcs s).filter fun arc => arc.label = label).map Arc.target

theorem mem_targets : t ∈ g.targets label s ↔ ⟨label, t⟩ ∈ g.arcs s := by
  simp only [targets, List.mem_map, List.mem_filter, decide_eq_true_eq]
  constructor
  · rintro ⟨⟨l, u⟩, ⟨h, rfl⟩, rfl⟩
    exact h
  · exact fun h => ⟨⟨label, t⟩, ⟨h, rfl⟩, rfl⟩

/-- One pool holds the targets for all labels. -/
theorem exists_pool (g : Graph) :
    ∃ pool : List Nat, ∀ label s, ∀ t ∈ g.targets label s, t ∈ pool := by
  obtain ⟨pool, hpool⟩ := g.finite
  exact ⟨pool, fun label s t h => hpool s t (List.mem_map_of_mem (mem_targets.1 h))⟩

theorem targets_finite (g : Graph) (label : Label) : FiniteRange (g.targets label) := by
  obtain ⟨pool, hpool⟩ := g.exists_pool
  exact ⟨pool, hpool label⟩

end Graph

end PatternLexer
