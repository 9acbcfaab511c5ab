import PatternLexer.Text

/-! The tokens of a pattern, and the trees that patterns stand for. Tokens are symbols, the two
markers for the empty word and for no word at all, the operators and the parentheses; trees have no
parentheses. -/

namespace PatternLexer.Pattern

/-- Union and concatenation stand between two operands, the star follows one. -/
inductive Operator where
  | union | concat | star
  deriving DecidableEq

namespace Operator

def char : Operator → Char
  | union => '|'
  | concat => '&'
  | star => '*'

/-- Of two operators the one with the greater precedence is applied first. -/
def precedence : Operator → Nat
  | union => 1
  | concat => 2
  | star => 3

end Operator

inductive Token where
  | symbol (c : Char)
  | epsilon
  | empty
  | operator (op : Operator)
  | opening
  | closing
  deriving DecidableEq

namespace Token

/-- The tokens that can be the last of an operand. -/
def endsOperand : Token → Bool
  | symbol _ | epsilon | empty | closing | operator .star => true
  | _ => false

/-- The tokens that can be the first of an operand. -/
def startsOperand : Token → Bool
  | symbol _ | epsilon | empty | opening => true
  | _ => false

/-- One character for each token. The markers have signs of their own here, whichever characters
stood for them in the pattern. -/
def char : Token → Char
  | symbol c => c
  | epsilon => 'ε'
  | empty => '∅'
  | operator op => op.char
  | opening => '('
  | closing => ')'

/-- The token that a reserved character stands for, the backslash apart. -/
def reserved? : Char → Option Token
  | '*' => some (operator .star)
  | '&' => some (operator .concat)
  | '|' => some (operator .union)
  | '(' => some opening
  | ')' => some closing
  | _ => none

/-- The reserved characters are those with a meaning in every pattern. -/
def isReserved (c : Char) : Bool := c = '\\' || (reserved? c).isSome

/-- The text of a token. A symbol that is a reserved character is escaped. -/
def spelling : Token → Text
  | symbol c => if isReserved c then ['\\', c] else [c]
  | token => [token.char]

end Token

/-- A token and the number of characters before it in its pattern. -/
structure Placed where
  position : Nat
  token : Token
  deriving DecidableEq

/-- The characters that stand for the empty word and for no word. -/
structure Markers where
  epsilon : Char := 'e'
  empty : Char := 'N'
  deriving DecidableEq

inductive Tree where
  | symbol (c : Char)
  | epsilon
  | empty
  | concat (left right : Tree)
  | union (left right : Tree)
  | star (operand : Tree)
  deriving DecidableEq

end PatternLexer.Pattern
