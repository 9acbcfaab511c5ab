import PatternLexer.Alphabet
import PatternLexer.Pattern.Token

/-! The texts that a list of tokens may be written as. Every token has a written form of its own,
a symbol up to two, and a pattern is one written form after the other. -/

namespace PatternLexer.Pattern

/-- A written form of one token. A marker is of no use when it is a reserved character, nor is the
empty marker when it is the epsilon marker. -/
inductive Piece (alphabet : Alphabet) (markers : Markers) : Token → Text → Prop
  | operator (op : Operator) : Piece alphabet markers (.operator op) [op.char]
  | opening : Piece alphabet markers .opening ['(']
  | closing : Piece alphabet markers .closing [')']
  | epsilon : Token.isReserved markers.epsilon = false →
    Piece alphabet markers .epsilon [markers.epsilon]
  | empty : Token.isReserved markers.empty = false → markers.empty ≠ markers.epsilon →
    Piece alphabet markers .empty [markers.empty]
  | escaped (c : Char) : Piece alphabet markers (.symbol c) ['\\', c]
  | bare {c : Char} : c ∈ alphabet → Token.isReserved c = false → c ≠ markers.epsilon →
    c ≠ markers.empty → Piece alphabet markers (.symbol c) [c]

/-- The text is written behind the given number of characters, and every token stands at the
number of characters before it. -/
inductive Writing (alphabet : Alphabet) (markers : Markers) : Nat → List Placed → Text → Prop
  | nil (position : Nat) : Writing alphabet markers position [] []
  | cons {position : Nat} {token : Token} {piece rest : Text} {tokens : List Placed} :
    Piece alphabet markers token piece →
    Writing alphabet markers (position + piece.length) tokens rest →
    Writing alphabet markers position (⟨position, token⟩ :: tokens) (piece ++ rest)

end PatternLexer.Pattern
