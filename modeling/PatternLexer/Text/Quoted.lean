import PatternLexer.Text.Extender
import PatternLexer.Text.Unprintable

/-! Quoted characters and texts as messages show them. A character stands between apostrophes and
a text between double quotes; inside, the quote in use and the backslash are escaped, and so is
every character that would not show as itself there. -/

namespace PatternLexer.Text

/-- The halfwidth Katakana sound marks. They attach to the character before them, yet fill a cell
of their own and can be read alone. -/
def isHalfwidthMark (c : Char) : Bool := c = '\uff9e' || c = '\uff9f'

/-- Whether a reader sees a character as itself, whatever stands before it. -/
def showsItself (c : Char) : Bool :=
  isPrintable c && !isIgnorable c && (!isExtender c || isHalfwidthMark c)

/-- The code point in lower-case hexadecimal, between braces after a `u`. -/
def codePointEscape (c : Char) : Text :=
  ['\\', 'u', '\x7b'] ++ Nat.toDigits 16 c.toNat ++ ['\x7d']

/-- The written form of one character between two of the given quotes. -/
def escapeIn (quote : Char) (c : Char) : Text :=
  if c = '\x00' then ['\\', '0']
  else if c = '\t' then ['\\', 't']
  else if c = '\r' then ['\\', 'r']
  else if c = '\n' then ['\\', 'n']
  else if c = '\\' || c = quote then ['\\', c]
  else if showsItself c then [c]
  else codePointEscape c

/-- A character between apostrophes. -/
def quoteChar (c : Char) : String :=
  String.ofList ('\'' :: (escapeIn '\'' c ++ ['\'']))

/-- A text between double quotes. -/
def quote (text : Text) : String :=
  String.ofList ('"' :: (text.flatMap (escapeIn '"') ++ ['"']))

end PatternLexer.Text
