import PatternLexer.Automaton.Determinization

/-! The subset construction with its data apart: a table of the numbers given out, a queue, and the
moves and the acceptance of the states made in two lists. The queue knows nothing of the numbers,
and a row of moves belongs to a flag only by its place. -/

namespace PatternLexer

/-- The numbers of the sets found so far, the sets that wait, and for every set that does not wait
any more a row of moves and a flag that tells whether its state accepts. -/
structure Construction where
  numbers : List (StateSet × Nat)
  queue : List StateSet
  rows : List (List (Char × Nat))
  flags : List Bool

namespace Construction

/-- The set that the graph starts in has number zero, and waits. -/
def initial (g : Graph) : Construction where
  numbers := [(g.closure [g.start], 0)]
  queue := [g.closure [g.start]]
  rows := []
  flags := []

/-- The number of a set. A set without a number gets the count of those given out, and waits. -/
def number (k : Construction) (set : StateSet) : Nat × Construction :=
  match k.numbers.lookup set with
  | some q => (q, k)
  | none =>
    (k.numbers.length, { k with
      numbers := k.numbers ++ [(set, k.numbers.length)]
      queue := k.queue ++ [set] })

/-- The moves of a set for the given characters. -/
def moves (g : Graph) (set : StateSet) (k : Construction) :
    List Char → List (Char × Nat) × Construction
  | [] => ([], k)
  | c :: rest =>
    let (q, numbered) := k.number (g.step set c)
    let (row, final) := numbered.moves g set rest
    ((c, q) :: row, final)

/-- One round: the set at the front leaves the queue, and its row and its flag are added. -/
def process? (g : Graph) (k : Construction) : Option (StateSet × Construction) :=
  match k.queue with
  | [] => none
  | set :: rest =>
    let (row, final) := moves g set { k with queue := rest } (g.symbols set).toList
    some (set, { final with
      rows := final.rows ++ [row]
      flags := final.flags ++ [g.isAccepting set] })

end Construction

end PatternLexer
