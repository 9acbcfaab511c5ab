import PatternLexer.Ascending
import PatternLexer.Text

/-! Alphabets: the finite sets of characters that a pattern may mention and a source may hold. -/

namespace PatternLexer

/-- A finite set of characters, listed by code point. -/
abbrev Alphabet := Ascending Char

namespace Alphabet

/-- The characters that a declaration lists, in any order and number. -/
def ofText (declaration : Text) : Alphabet := Ascending.ofList declaration

/-- The first character of a text outside the alphabet. -/
def firstForeign? (alphabet : Alphabet) (text : Text) : Option Char :=
  text.find? fun c => decide (c ∉ alphabet)

/-- The members in order between double quotes, none of them escaped. -/
def display (alphabet : Alphabet) : String :=
  String.ofList ('"' :: (alphabet.toList ++ ['"']))

end Alphabet

end PatternLexer
