import PatternLexer.Alphabet
import PatternLexer.Pattern.Error
import PatternLexer.Pattern.Token

/-! From the text of a pattern to its tokens, and the concatenation signs that a pattern may
leave out. -/

namespace PatternLexer.Pattern

/-! ### Reading -/

/-- What a character means that is not escaped: a reserved character goes before a marker, a
marker before a symbol, the epsilon marker before the empty one. -/
def classify? (alphabet : Alphabet) (markers : Markers) (c : Char) : Option Token :=
  match Token.reserved? c with
  | some token => some token
  | none =>
    if c = markers.epsilon then some .epsilon
    else if c = markers.empty then some .empty
    else if c ∈ alphabet then some (.symbol c)
    else none

/-- The tokens of a text that begins at the given position of its pattern. A backslash makes a
symbol of any character after it, in the alphabet or not. -/
def tokensFrom (alphabet : Alphabet) (markers : Markers) (position : Nat) :
    Text → Except Error (List Placed)
  | [] => .ok []
  | ['\\'] => .error .escapedNothing
  | '\\' :: c :: rest => do
    let tokens ← tokensFrom alphabet markers (position + 2) rest
    return ⟨position, .symbol c⟩ :: tokens
  | c :: rest =>
    match classify? alphabet markers c with
    | none => .error (.unknownSymbol c position)
    | some token => do
      let tokens ← tokensFrom alphabet markers (position + 1) rest
      return ⟨position, token⟩ :: tokens

/-- A character that is read by itself is no backslash. -/
theorem ne_backslash_of_plain {c : Char} {rest : Text} (hlast : c = '\\' → rest = [] → False)
    (hescape : ∀ d behind, c = '\\' → rest = d :: behind → False) : c ≠ '\\' := by
  rintro rfl
  cases rest with
  | nil => exact hlast rfl rfl
  | cons d rest => exact hescape d rest rfl rfl

def tokenize (alphabet : Alphabet) (markers : Markers) (pattern : Text) :
    Except Error (List Placed) :=
  tokensFrom alphabet markers 0 pattern

/-! ### Implicit concatenation -/

/-- Writes a concatenation sign between the end of an operand and an operand that follows at
once; the sign takes the position of the latter. The flag says whether an operand has just ended. -/
def concatenationsFrom (afterOperand : Bool) : List Placed → List Placed
  | [] => []
  | t :: rest =>
    let tail := t :: concatenationsFrom t.token.endsOperand rest
    if afterOperand && t.token.startsOperand then ⟨t.position, .operator .concat⟩ :: tail else tail

def withConcatenations (tokens : List Placed) : List Placed := concatenationsFrom false tokens

/-- Whether a sign is left out right before the token at a place, where one operand ends and another
begins. Places count from zero, and nothing is left out before the first token. -/
def lacksSign (tokens : List Placed) : Nat → Bool
  | 0 => false
  | i + 1 =>
    tokens[i]?.any (fun t => t.token.endsOperand) &&
      tokens[i + 1]?.any fun t => t.token.startsOperand

/-- The tokens with a sign right before each of those at the chosen places, and for each whether it
is such a sign. A sign takes the position of the token behind it. -/
def writeSigns (chosen : Nat → Bool) : List Placed → List (Placed × Bool)
  | [] => []
  | t :: rest =>
    let tail := (t, false) :: writeSigns (fun i => chosen (i + 1)) rest
    if chosen 0 then (⟨t.position, .operator .concat⟩, true) :: tail else tail

/-- The spellings of the tokens one after the other. -/
def spell (tokens : List Placed) : Text := tokens.flatMap fun t => t.token.spelling

end PatternLexer.Pattern
