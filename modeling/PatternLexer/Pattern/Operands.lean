import PatternLexer.Pattern.Parentheses

/-! The operands of an operator in a list of tokens: when one is missing, and how far the right one
goes. -/

namespace PatternLexer.Pattern

/-- A group with nothing in it but parentheses. -/
def HollowGroup (list : List Placed) : Prop :=
  ∃ i j inside, Balanced inside ∧ list = ⟨i, .opening⟩ :: (inside ++ [⟨j, .closing⟩])

/-- An operator between the given tokens has no operand right before it, or none right behind it
although it joins two, or stands next to a group that is none. -/
def LacksOperand (before : List Placed) (op : Operator) (behind : List Placed) : Prop :=
  (∀ t ∈ before.getLast?, t.token.endsOperand = false) ∨
  (op ≠ .star ∧ ∀ t ∈ behind.head?, t.token.startsOperand = false) ∨
  ∃ group, HollowGroup group ∧ (group <:+ before ∨ group <+: behind)

/-- The number of groups open within the right operand of an operator, once one token more was read.
The operand ends before a parenthesis that closes a group around it, and before an operator outside
of its groups that does not bind more tightly. -/
def Operator.depth? (op : Operator) (depth : Nat) (t : Placed) : Option Nat :=
  match t.token, depth with
  | .opening, depth => some (depth + 1)
  | .closing, 0 => none
  | .closing, depth + 1 => some depth
  | .operator next, 0 => if op.precedence < next.precedence then some 0 else none
  | _, depth => some depth

/-- Tokens that stand behind an operator and all belong to its right operand. -/
def Operator.Spans (op : Operator) (tokens : List Placed) : Prop :=
  (tokens.foldlM op.depth? 0).isSome = true

/-- An operator in the right operand of the one given lacks an operand. -/
def LacksWithin (before : List Placed) (op : Operator) (position : Nat) (behind : List Placed) :
    Prop :=
  ∃ inside next other last, behind = inside ++ ⟨next, .operator other⟩ :: last ∧
    op.Spans (inside ++ [⟨next, .operator other⟩]) ∧
    LacksOperand (before ++ ⟨position, .operator op⟩ :: inside) other last

end PatternLexer.Pattern
