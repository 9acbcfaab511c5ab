import PatternLexer.Automaton.Combination
import PatternLexer.Automaton.Simulation

/-! Fragments as tables of transitions, made with the numbers of a machine. A transition knows both
of its ends, and a table files it under a number. Tables are made as fragments are, one transition
after the other; what a fragment counts without a bound, a table counts in words. -/

namespace PatternLexer

/-! ### Machine numbers -/

/-- A word holds the numbers below this one. -/
def wordSize : Nat := UInt64.size

/-- Why an operation stops without a result. -/
inductive Fault where
  | overflow
  | outOfRange
  deriving DecidableEq

/-- In checked mode a sum that no word holds and an assertion that fails are faults. In unchecked
mode sums wrap around, and nothing is asserted. -/
inductive Mode where
  | checked
  | unchecked
  deriving DecidableEq

namespace Mode

def add : Mode → Nat → Nat → Except Fault Nat
  | checked, m, n => if m + n < wordSize then .ok (m + n) else .error .overflow
  | unchecked, m, n => .ok ((m + n) % wordSize)

/-- Asserts that the number is one of a range. -/
def require (mode : Mode) (inRange : Prop) [Decidable inRange] : Except Fault Unit :=
  match mode with
  | checked => if inRange then .ok () else .error .outOfRange
  | unchecked => .ok ()

end Mode

/-! ### Transitions -/

structure Transition where
  source : Nat
  label : Label
  target : Nat
  deriving DecidableEq

namespace Transition

/-- The arc of the state that the transition leaves. -/
def arc (t : Transition) : Arc := ⟨t.label, t.target⟩

/-- The same transition once its states have moved up. -/
def move (mode : Mode) (offset : Nat) (t : Transition) : Except Fault Transition := do
  return ⟨← mode.add t.source offset, t.label, ← mode.add t.target offset⟩

/-- Puts a transition behind those that are filed under its source. -/
def file (t : Transition) : List (Nat × List Transition) → List (Nat × List Transition)
  | [] => [(t.source, [t])]
  | (s, ts) :: rest =>
    if t.source < s then (t.source, [t]) :: (s, ts) :: rest
    else if s < t.source then (s, ts) :: t.file rest
    else (s, ts ++ [t]) :: rest

end Transition

/-! ### Tables -/

/-- The states `1` to `size`, and the transitions filed under each number, by ascending numbers and
in the order in which they were added. -/
structure Table where
  size : Nat
  start : Nat := 1
  accepting : List Nat := []
  filed : List (Nat × List Transition) := []
  deriving DecidableEq

namespace Table

def transitions (t : Table) : List Transition := t.filed.flatMap Prod.snd

/-- What is filed under a number. -/
def transitionsFrom (t : Table) (s : Nat) : List Transition := (t.filed.lookup s).getD []

theorem mem_transitions_of_mem_transitionsFrom {t : Table} {s : Nat} {e : Transition}
    (h : e ∈ t.transitionsFrom s) : e ∈ t.transitions := by
  rw [transitionsFrom] at h
  cases hlookup : t.filed.lookup s with
  | none =>
    rw [hlookup] at h
    exact nomatch h
  | some ts =>
    obtain ⟨before, behind, hfiled, -⟩ := List.lookup_eq_some_iff.1 hlookup
    rw [hlookup] at h
    exact List.mem_flatMap.2 ⟨(s, ts), by rw [hfiled]; simp, h⟩

theorem finiteRange_transitionsFrom (t : Table) :
    FiniteRange fun s => ((t.transitionsFrom s).map Transition.arc).map Arc.target := by
  refine ⟨t.transitions.map Transition.target, fun s target h => ?_⟩
  obtain ⟨arc, harc, rfl⟩ := List.mem_map.1 h
  obtain ⟨e, he, rfl⟩ := List.mem_map.1 harc
  exact List.mem_map_of_mem (f := Transition.target) (mem_transitions_of_mem_transitionsFrom he)

/-- What a run of the table looks at. -/
def graph (t : Table) : Graph where
  arcs s := (t.transitionsFrom s).map Transition.arc
  start := t.start
  accepting := t.accepting
  finite := t.finiteRange_transitionsFrom

/-- The numbers that are states. -/
abbrev HasState (t : Table) (s : Nat) : Prop := 1 ≤ s ∧ s ≤ t.size

/-- The new state is the last one. -/
def addState (mode : Mode) (t : Table) : Except Fault Table := do
  return { t with size := ← mode.add t.size 1 }

def insert (t : Table) (e : Transition) : Table := { t with filed := e.file t.filed }

/-- Asserts that both ends are states. -/
def addTransition (mode : Mode) (t : Table) (e : Transition) : Except Fault Table := do
  mode.require (t.HasState e.source)
  mode.require (t.HasState e.target)
  return t.insert e

/-- Adds an epsilon transition to one target from each of the given states. -/
def link (mode : Mode) (t : Table) (sources : List Nat) (target : Nat) : Except Fault Table :=
  sources.foldlM (fun t s => t.addTransition mode ⟨s, .epsilon, target⟩) t

/-- Adds epsilon transitions from the last state to two targets. -/
def branch (mode : Mode) (t : Table) (first second : Nat) : Except Fault Table := do
  (← t.addTransition mode ⟨t.size, .epsilon, first⟩).addTransition mode ⟨t.size, .epsilon, second⟩

/-! ### Operations -/

/-- Two states and a transition between them. -/
def leaf (mode : Mode) (label : Label) : Except Fault Table :=
  addTransition mode { size := 2, accepting := [2] } ⟨1, label, 2⟩

def empty : Table := { size := 1 }

/-- Files the transitions of the guest again once they have moved up. -/
def embed (mode : Mode) (host guest : Table) : Except Fault (Embedding Table) := do
  let size ← mode.add host.size guest.size
  let moved ← guest.transitions.mapM (·.move mode host.size)
  let start ← mode.add guest.start host.size
  let accepting ← guest.accepting.mapM (mode.add · host.size)
  return {
    host := { host with size, filed := moved.foldl (fun filed e => e.file filed) host.filed }
    offset := host.size
    start
    accepting }

def concatenate (mode : Mode) (left right : Table) : Except Fault Table := do
  let embedding ← left.embed mode right
  let linked ← embedding.host.link mode left.accepting embedding.start
  return { linked with accepting := embedding.accepting }

def alternate (mode : Mode) (left right : Table) : Except Fault Table := do
  let embedding ← left.embed mode right
  let grown ← embedding.host.addState mode
  let both ← grown.branch mode left.start embedding.start
  return { both with start := grown.size, accepting := left.accepting ++ embedding.accepting }

def star (mode : Mode) (t : Table) : Except Fault Table := do
  let linked ← t.link mode t.accepting t.start
  let grown ← linked.addState mode
  let both ← grown.branch mode t.start grown.size
  return { both with start := grown.size, accepting := t.accepting ++ [grown.size] }

end Table

/-! ### Operations one after the other -/

/-- How something is put together: leaves, and operations on what was put together before. -/
inductive Assembly where
  | symbol (c : Char)
  | epsilon
  | empty
  | embed (host guest : Assembly)
  | concatenate (left right : Assembly)
  | alternate (left right : Assembly)
  | star (operand : Assembly)

namespace Assembly

def fragment : Assembly → Fragment
  | symbol c => .symbol c
  | epsilon => .epsilon
  | empty => .empty
  | embed host guest => (host.fragment.embed guest.fragment).host
  | concatenate left right => left.fragment.concatenate right.fragment
  | alternate left right => left.fragment.alternate right.fragment
  | star operand => operand.fragment.star

/-- The table, unless there is a fault on the way. -/
def table (mode : Mode) : Assembly → Except Fault Table
  | symbol c => Table.leaf mode (.symbol c)
  | epsilon => Table.leaf mode .epsilon
  | empty => .ok .empty
  | embed host guest => do
    return (← (← host.table mode).embed mode (← guest.table mode)).host
  | concatenate left right => do (← left.table mode).concatenate mode (← right.table mode)
  | alternate left right => do (← left.table mode).alternate mode (← right.table mode)
  | star operand => do (← operand.table mode).star mode

theorem built_fragment (a : Assembly) : a.fragment.Built := by
  induction a with
  | symbol c => exact .symbol c
  | epsilon => exact .epsilon
  | empty => exact .empty
  | embed host guest hh hg => exact .embed hh hg
  | concatenate left right hl hr => exact .concatenate hl hr
  | alternate left right hl hr => exact .alternate hl hr
  | star operand h => exact .star h

end Assembly

/-- The tables that come of operations without a fault. -/
def Table.Built (t : Table) : Prop := ∃ a : Assembly, a.table .checked = .ok t

end PatternLexer
