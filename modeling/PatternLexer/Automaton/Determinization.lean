import PatternLexer.Automaton.Simulation

/-! Deterministic automata, and the subset construction that makes one of a graph. The states of the
automaton are the sets that the graph may be in, numbered from zero in the order in which a
breadth-first search finds them, the characters in ascending order. The empty set is no state: where
it would be, there is no move. -/

namespace PatternLexer

/-- The moves of a state, ascending by character, and whether the state accepts. -/
structure DetState where
  moves : List (Char × Nat)
  accepting : Bool
  deriving DecidableEq

/-- A partial deterministic automaton that starts in state zero. -/
structure DetAutomaton where
  states : List DetState
  deriving DecidableEq

namespace DetAutomaton

def size (d : DetAutomaton) : Nat := d.states.length

/-- A number that is no state does not accept. -/
def isAccepting (d : DetAutomaton) (q : Nat) : Bool :=
  d.states[q]?.any DetState.accepting

/-- Where a character leads from a state, if it leads anywhere. -/
def next? (d : DetAutomaton) (q : Nat) (c : Char) : Option Nat :=
  d.states[q]?.bind fun state => state.moves.lookup c

/-- The state at the end of a word. -/
def run? (d : DetAutomaton) (q : Nat) : Text → Option Nat
  | [] => some q
  | c :: rest => (d.next? q c).bind fun r => d.run? r rest

def recognizes (d : DetAutomaton) (word : Text) : Bool :=
  (d.run? 0 word).any d.isAccepting

end DetAutomaton

namespace Graph

/-- The characters on the arcs of a set of states. -/
def symbols (g : Graph) (states : StateSet) : Alphabet :=
  .ofList (states.toList.flatMap fun s => (g.arcs s).filterMap fun arc => arc.label.symbol?)

/-- The sets one step from a set, in the order of the characters that lead there. -/
def successors (g : Graph) (states : StateSet) : List StateSet :=
  (g.symbols states).toList.map (g.step states)

theorem successors_finite (g : Graph) : FiniteRange g.successors := by
  obtain ⟨targets, htargets⟩ := g.exists_pool
  obtain ⟨pool, hpool⟩ := Ascending.exists_pool targets
  refine ⟨pool, fun states next h => ?_⟩
  obtain ⟨c, _, rfl⟩ := List.mem_map.1 h
  exact hpool _ fun _ => mem_pool_of_mem_step htargets

/-- The sets that the graph may be in, in the order of discovery. -/
def subsets (g : Graph) : List StateSet :=
  reachable g.successors g.successors_finite [g.closure [g.start]]

/-- The deterministic state of a set, when sets are numbered by their place in a list. -/
def detState (g : Graph) (subsets : List StateSet) (states : StateSet) : DetState where
  moves := (g.symbols states).toList.map fun c => (c, subsets.idxOf (g.step states c))
  accepting := g.isAccepting states

end Graph

/-! ### The worklist -/

/-- The sets found so far, numbered by their places; those among them that still wait; and the
states made of those that were visited. -/
structure Worklist where
  found : List StateSet
  queue : List StateSet
  states : List DetState

namespace Worklist

/-- The number of a set. A set not found before gets the next number, and waits. -/
def number (w : Worklist) (set : StateSet) : Nat × Worklist :=
  if set ∈ w.found then (w.found.idxOf set, w)
  else (w.found.length, { w with found := w.found ++ [set], queue := w.queue ++ [set] })

/-- The moves of a set for the given characters, each with the number of the set it leads to. -/
def moves (g : Graph) (set : StateSet) (w : Worklist) :
    List Char → List (Char × Nat) × Worklist
  | [] => ([], w)
  | c :: rest =>
    let (q, numbered) := w.number (g.step set c)
    let (row, final) := numbered.moves g set rest
    ((c, q) :: row, final)

/-- Makes the state of a set. Its moves go by the characters in ascending order. -/
def visit (g : Graph) (set : StateSet) (w : Worklist) : Worklist :=
  let (row, final) := w.moves g set (g.symbols set).toList
  { final with states := final.states ++ [⟨row, g.isAccepting set⟩] }

theorem moves_snd (g : Graph) (set : StateSet) (w : Worklist) (cs : List Char) :
    (w.moves g set cs).2 =
      { w with
        found := w.found ++ unseen w.found (cs.map (g.step set))
        queue := w.queue ++ unseen w.found (cs.map (g.step set)) } := by
  induction cs generalizing w with
  | nil => simp [moves, unseen]
  | cons c cs ih =>
    simp only [moves, number, List.map_cons, unseen]
    split
    · exact ih w
    · have hmem : ∀ a, a ∈ w.found ++ [g.step set c] ↔ a ∈ g.step set c :: w.found := fun a => by
        simp [or_comm]
      simp [ih, unseen_congr hmem]

theorem found_visit (g : Graph) (set : StateSet) (w : Worklist) :
    (w.visit g set).found = w.found ++ unseen w.found (g.successors set) := by
  simp only [visit, moves_snd, Graph.successors]

theorem queue_visit (g : Graph) (set : StateSet) (w : Worklist) :
    (w.visit g set).queue = w.queue ++ unseen w.found (g.successors set) := by
  simp only [visit, moves_snd, Graph.successors]

/-- Visits the sets that wait, from the front, until none does. -/
def run (g : Graph) (w : Worklist) : List DetState :=
  match _h : w.queue with
  | [] => w.states
  | set :: rest => ({ w with queue := rest }.visit g set).run g
termination_by (missing g.successors_finite.choose w.found, w.queue.length)
decreasing_by
  rw [found_visit, queue_visit, _h]
  exact explore_decreases g.successors_finite

end Worklist

namespace Graph

/-- The deterministic automaton of the graph. The set it starts in is found first. -/
def determinize (g : Graph) : DetAutomaton :=
  let start := g.closure [g.start]
  ⟨Worklist.run g ⟨[start], [start], []⟩⟩

end Graph

abbrev Fragment.determinize (f : Fragment) : DetAutomaton := f.graph.determinize

end PatternLexer
