import PatternLexer.Text

/-! Positions in a source, by line and column. -/

namespace PatternLexer

/-- The place of the character read last: lines count from one and the columns of a line from one,
and column zero stands before the first character of a line. -/
structure Position where
  line : Nat := 1
  column : Nat := 0
  deriving DecidableEq

namespace Position

/-- Some columns further on the same line. -/
def advanced (p : Position) (columns : Nat) : Position := ⟨p.line, p.column + columns⟩

/-- The position once a character was read. Only the line feed begins a line. -/
def after (p : Position) (c : Char) : Position :=
  if c = '\n' then ⟨p.line + 1, 0⟩ else p.advanced 1

/-- The position once a whole text was read. -/
def past (p : Position) (text : Text) : Position := text.foldl after p

def display (p : Position) : String := toString p.line ++ ":" ++ toString p.column

theorem past_append (p : Position) (s t : Text) : p.past (s ++ t) = (p.past s).past t :=
  List.foldl_append

end Position

end PatternLexer
