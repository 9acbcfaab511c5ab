/-! Texts are lists of characters: patterns, sources, words and lexemes are all read character by
character, and every position and length counts characters. Some characters matter by their class,
which is given by ranges of code points. -/

namespace PatternLexer

/-- A finite sequence of characters. -/
abbrev Text := List Char

namespace Text

/-! ### Classes of characters -/

/-- Whether the code point of a character lies in one of the ranges, each of which is given by its
first and its last member. -/
def inRanges (ranges : List (Nat × Nat)) (c : Char) : Bool :=
  ranges.any fun range => range.1 ≤ c.toNat && c.toNat ≤ range.2

/-! ### Blank characters

They separate the words of a source and belong to none. The line feed is one of them, and so are the
no-break space and the Unicode line and paragraph separators. -/

/-- The ranges of the White_Space property, ascending. -/
def blanks : List (Nat × Nat) :=
  [(0x9, 0xd), (0x20, 0x20), (0x85, 0x85), (0xa0, 0xa0), (0x1680, 0x1680), (0x2000, 0x200a),
   (0x2028, 0x2029), (0x202f, 0x202f), (0x205f, 0x205f), (0x3000, 0x3000)]

/-- Whether a character separates words. -/
def isBlank (c : Char) : Bool := inRanges blanks c

end Text

end PatternLexer
