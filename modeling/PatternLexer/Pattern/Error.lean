import PatternLexer.Text.Quoted

/-! The ways in which a pattern can be malformed, and what is said about each. Positions count the
characters of the pattern from zero. -/

namespace PatternLexer.Pattern

inductive Error where
  | escapedNothing
  | unknownSymbol (symbol : Char) (position : Nat)
  | missingOperand (operator : Char) (position : Nat)
  | unexpectedClosing (position : Nat)
  | unclosedOpening (position : Nat)
  | emptyExpression
  | danglingOperands (count : Nat)
  deriving DecidableEq

def Error.message : Error → String
  | escapedNothing => "Trailing backslash escapes nothing"
  | unknownSymbol symbol position =>
    "Symbol " ++ Text.quoteChar symbol ++ " at position " ++ toString position ++
      " is not part of the alphabet"
  | missingOperand operator position =>
    "Operator '" ++ operator.toString ++ "' at position " ++ toString position ++
      " is missing an operand"
  | unexpectedClosing position =>
    "Closing parenthesis at position " ++ toString position ++ " has no matching '('"
  | unclosedOpening position =>
    "Parenthesis opened at position " ++ toString position ++ " is never closed"
  | emptyExpression => "Expression is empty"
  | danglingOperands count =>
    "Expression leaves " ++ toString count ++ " unconnected operands"

end PatternLexer.Pattern
