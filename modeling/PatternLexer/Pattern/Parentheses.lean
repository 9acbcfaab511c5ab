import PatternLexer.Pattern.Token

/-! The parentheses of a pattern, read off its text alone: which of them stand for themselves, and
which one closes which. -/

namespace PatternLexer.Pattern

/-- The number of backslashes that a text ends with. -/
def trailingBackslashes (text : Text) : Nat := (text.reverse.takeWhile fun c => c = '\\').length

/-- Of an odd number of backslashes the last escapes the character behind them. -/
def isEscaped (pattern : Text) (position : Nat) : Bool :=
  trailingBackslashes (pattern.take position) % 2 = 1

/-- The parenthesis at a position, if one stands there that is not escaped. -/
def parenthesisAt? (pattern : Text) (position : Nat) : Option Placed :=
  if isEscaped pattern position then none
  else
    match pattern[position]? with
    | some '(' => some ⟨position, .opening⟩
    | some ')' => some ⟨position, .closing⟩
    | _ => none

/-- The parentheses of a pattern in order, without those that are escaped. -/
def parentheses (pattern : Text) : List Placed :=
  (List.range pattern.length).filterMap (parenthesisAt? pattern)

/-- Lists of parentheses in which all groups are closed. -/
inductive Balanced : List Placed → Prop
  | nil : Balanced []
  | group {inside behind : List Placed} (i j : Nat) : Balanced inside → Balanced behind →
    Balanced (⟨i, .opening⟩ :: (inside ++ ⟨j, .closing⟩ :: behind))

/-- The closing parenthesis at the second position belongs to the opening one at the first. -/
def Closes (list : List Placed) (i j : Nat) : Prop :=
  ∃ before inside behind, Balanced inside ∧
    list = before ++ ⟨i, .opening⟩ :: (inside ++ ⟨j, .closing⟩ :: behind)

end PatternLexer.Pattern
