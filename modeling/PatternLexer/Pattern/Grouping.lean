import PatternLexer.Pattern.Token

/-! Patterns put together from patterns, each in parentheses of its own: the text of a whole tree,
and chains of patterns one behind the other, grouped from the left or from the right. -/

namespace PatternLexer.Pattern

def grouped (text : Text) : Text := '(' :: (text ++ [')'])

/-- One pattern behind another, with the sign of concatenation between the two or without. -/
def juxtaposed (sign : Bool) (left right : Text) : Text :=
  grouped left ++ ((if sign then ['&'] else []) ++ grouped right)

/-- The text of a tree. Every operand is in parentheses and every symbol is escaped. -/
def Tree.render (markers : Markers) (sign : Bool) : Tree → Text
  | symbol c => ['\\', c]
  | epsilon => [markers.epsilon]
  | empty => [markers.empty]
  | concat left right => juxtaposed sign (left.render markers sign) (right.render markers sign)
  | union left right =>
    grouped (left.render markers sign) ++ '|' :: grouped (right.render markers sign)
  | star operand => grouped (operand.render markers sign) ++ ['*']

/-! ### Chains -/

/-- The first two patterns of the chain form a group, which forms one with the third, and so on. -/
def leftChain (sign : Bool) (first : Text) (rest : List Text) : Text :=
  rest.foldl (juxtaposed sign) first

/-- The last two patterns of the chain form a group, which forms one with the one before. -/
def rightChain (sign : Bool) : Text → List Text → Text
  | first, [] => first
  | first, next :: rest => juxtaposed sign first (rightChain sign next rest)

/-- The parts that a tree concatenates, however it groups them. -/
def Tree.parts : Tree → List Tree
  | concat left right => left.parts ++ right.parts
  | tree => [tree]

end PatternLexer.Pattern
