import PatternLexer.Pattern.Tokens

/-! Operator-precedence parsing with two stacks. One holds the trees of the operands read so far,
the other the operators that still wait for their right operand and the groups that are still open.
An operator is applied as soon as one comes that does not bind tighter, or its group closes. -/

namespace PatternLexer.Pattern

/-- An open group, or an operator that waits. -/
inductive Frame where
  | opening (position : Nat)
  | operator (op : Operator) (position : Nat)
  deriving DecidableEq

/-- Both stacks with their tops in front, and whether the token before ended an operand. -/
structure Parser where
  operands : List Tree := []
  frames : List Frame := []
  afterOperand : Bool := false
  deriving DecidableEq

/-! ### Applying operators -/

/-- Replaces the operands of an operator by the tree that joins them. The right one is on top. -/
def reduce (op : Operator) (position : Nat) (operands : List Tree) : Except Error (List Tree) :=
  match op, operands with
  | .star, operand :: rest => .ok (.star operand :: rest)
  | .concat, right :: left :: rest => .ok (.concat left right :: rest)
  | .union, right :: left :: rest => .ok (.union left right :: rest)
  | _, _ => .error (.missingOperand op.char position)

/-- Applies operators from the top of the stack as long as they are due, within the open group. -/
def unwind (due : Operator → Bool) :
    List Frame → List Tree → Except Error (List Frame × List Tree)
  | .operator op position :: frames, operands =>
    if due op then do unwind due frames (← reduce op position operands)
    else .ok (.operator op position :: frames, operands)
  | frames, operands => .ok (frames, operands)

/-! ### One token -/

namespace Parser

def pushOperand (p : Parser) (tree : Tree) : Parser :=
  { p with operands := tree :: p.operands, afterOperand := true }

def openGroup (p : Parser) (position : Nat) : Parser :=
  { p with frames := .opening position :: p.frames, afterOperand := false }

/-- Applies the operators that bind at least as tightly, so that operators of one precedence group
to the left. -/
def pushOperator (p : Parser) (op : Operator) (position : Nat) : Except Error Parser :=
  if p.afterOperand then do
    let (frames, operands) ←
      unwind (fun top => op.precedence ≤ top.precedence) p.frames p.operands
    return ⟨operands, .operator op position :: frames, (Token.operator op).endsOperand⟩
  else .error (.missingOperand op.char position)

/-- Applies everything that waits within the innermost group and closes it. -/
def closeGroup (p : Parser) (position : Nat) : Except Error Parser := do
  match ← unwind (fun _ => true) p.frames p.operands with
  | (.opening _ :: frames, operands) => return ⟨operands, frames, true⟩
  | _ => throw (.unexpectedClosing position)

def step (p : Parser) (t : Placed) : Except Error Parser :=
  match t.token with
  | .symbol c => .ok (p.pushOperand (.symbol c))
  | .epsilon => .ok (p.pushOperand .epsilon)
  | .empty => .ok (p.pushOperand .empty)
  | .operator op => p.pushOperator op t.position
  | .opening => .ok (p.openGroup t.position)
  | .closing => p.closeGroup t.position

/-- Applies everything that waits; a single operand has to be left. -/
def finish (p : Parser) : Except Error Tree := do
  match ← unwind (fun _ => true) p.frames p.operands with
  | (.opening position :: _, _) => throw (.unclosedOpening position)
  | (_, [tree]) => return tree
  | (_, []) => throw .emptyExpression
  | (_, operands) => throw (.danglingOperands operands.length)

end Parser

/-! ### Whole patterns -/

def parseTokens (tokens : List Placed) : Except Error Tree := do
  (← tokens.foldlM Parser.step {}).finish

def parse (alphabet : Alphabet) (markers : Markers) (pattern : Text) : Except Error Tree := do
  parseTokens (withConcatenations (← tokenize alphabet markers pattern))

end PatternLexer.Pattern
