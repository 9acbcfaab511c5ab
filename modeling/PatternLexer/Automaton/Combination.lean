import PatternLexer.Automaton.Fragment

/-! Combining fragments. A guest fragment is embedded behind the states of its host, with all of
its state numbers moved up by the size of the host, and epsilon arcs tie the parts together. -/

namespace PatternLexer

/-- The same arc once its states have moved up. -/
def Arc.shift (offset : Nat) (arc : Arc) : Arc := ⟨arc.label, arc.target + offset⟩

/-- A host with a guest in it, and where the guest begins, starts and accepts there. -/
structure Embedding (α : Type) where
  host : α
  offset : Nat
  start : Nat
  accepting : List Nat
  deriving DecidableEq

namespace Fragment

/-- Adds an arc behind the arcs that a state has; a number that is no state stays without. -/
def addArc (f : Fragment) (arc : Arc) : Nat → Fragment
  | 0 => f
  | s + 1 => { f with rows := f.rows.modify s (· ++ [arc]) }

/-- Adds an epsilon arc to one target from each of the given states, one after the other. -/
def link (f : Fragment) (sources : List Nat) (target : Nat) : Fragment :=
  sources.foldl (fun g s => g.addArc ⟨.epsilon, target⟩ s) f

/-- The states of the guest become states of the host, which keeps its own start and acceptance. -/
def embed (host guest : Fragment) : Embedding Fragment where
  host := { host with rows := host.rows ++ guest.rows.map fun row => row.map (Arc.shift host.size) }
  offset := host.size
  start := guest.start + host.size
  accepting := guest.accepting.map (· + host.size)

/-- A word of the left fragment, then one of the right. -/
def concatenate (left right : Fragment) : Fragment :=
  let embedding := left.embed right
  { embedding.host.link left.accepting embedding.start with accepting := embedding.accepting }

/-- A word of either fragment. A new last state chooses between the two starts. -/
def alternate (left right : Fragment) : Fragment :=
  let embedding := left.embed right
  { rows := embedding.host.rows ++ [[⟨.epsilon, left.start⟩, ⟨.epsilon, embedding.start⟩]]
    start := embedding.host.size + 1
    accepting := left.accepting ++ embedding.accepting }

/-- Any number of words of the fragment. A new last state starts and accepts, with an arc to the
old start and one to itself; the accepting states lead back to the old start. -/
def star (f : Fragment) : Fragment :=
  { rows := (f.link f.accepting f.start).rows ++
      [[⟨.epsilon, f.start⟩, ⟨.epsilon, f.size + 1⟩]]
    start := f.size + 1
    accepting := f.accepting ++ [f.size + 1] }

/-- The fragments made of leaves by any number of combinations. -/
inductive Built : Fragment → Prop
  | symbol (c : Char) : Built (symbol c)
  | epsilon : Built epsilon
  | empty : Built empty
  | embed {host guest : Fragment} : Built host → Built guest → Built (host.embed guest).host
  | concatenate {left right : Fragment} :
    Built left → Built right → Built (left.concatenate right)
  | alternate {left right : Fragment} : Built left → Built right → Built (left.alternate right)
  | star {f : Fragment} : Built f → Built f.star

end Fragment

end PatternLexer
