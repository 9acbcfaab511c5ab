import PatternLexer.Source.Cursor

/-! Sequences of calls of a cursor, and what each call gives. -/

namespace PatternLexer.Cursor

inductive Call where
  | next
  | peek
  | atEnd
  | position
  | skipBlanks
  | word
  deriving DecidableEq

inductive Outcome where
  | next (c : Option Char)
  | peeked (c : Option Char)
  | atEnd (answer : Bool)
  | position (p : Position)
  | skipped
  | word (candidate : Option Candidate)
  deriving DecidableEq

def perform (c : Cursor) : Call → Outcome × Cursor
  | .next =>
    let (char, behind) := c.next
    (.next char, behind)
  | .peek => (.peeked c.peek?, c)
  | .atEnd => (.atEnd c.atEnd, c)
  | .position => (.position c.position, c)
  | .skipBlanks => (.skipped, c.skipBlanks)
  | .word =>
    let (candidate, behind) := c.word
    (.word candidate, behind)

/-- Performs calls one after the other. -/
def run (c : Cursor) : List Call → List Outcome × Cursor
  | [] => ([], c)
  | call :: calls =>
    let (outcome, behind) := c.perform call
    let (outcomes, final) := behind.run calls
    (outcome :: outcomes, final)

end PatternLexer.Cursor
