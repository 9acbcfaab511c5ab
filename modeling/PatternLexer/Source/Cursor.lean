import PatternLexer.Source.Position

/-! A cursor reads a source from its start. It gives single characters, skips blanks and takes
words, which are the longest runs without blanks, and keeps count of lines and columns. -/

namespace PatternLexer

/-- A word of a source, or what is left of one, and the position of its first character. -/
structure Candidate where
  text : Text
  position : Position
  deriving DecidableEq

/-- The position reached, and what is not read yet. -/
structure Cursor where
  position : Position := {}
  rest : Text
  deriving DecidableEq

namespace Cursor

def ofText (source : Text) : Cursor := ⟨{}, source⟩

def peek? (c : Cursor) : Option Char := c.rest.head?

def atEnd (c : Cursor) : Bool := c.rest.isEmpty

/-- Reads one character. At the end the cursor stays. -/
def next (c : Cursor) : Option Char × Cursor :=
  match c.rest with
  | [] => (none, c)
  | char :: rest => (some char, ⟨c.position.after char, rest⟩)

/-- Reads characters as long as they are of one kind. -/
def takeWhile (c : Cursor) (kind : Char → Bool) : Text × Cursor :=
  let taken := c.rest.takeWhile kind
  (taken, ⟨c.position.past taken, c.rest.dropWhile kind⟩)

def skipBlanks (c : Cursor) : Cursor := (c.takeWhile Text.isBlank).2

/-- Skips blanks and reads the word behind them. -/
def word (c : Cursor) : Option Candidate × Cursor :=
  let start := c.skipBlanks
  match start.rest with
  | [] => (none, start)
  | _ :: _ =>
    let (text, stop) := start.takeWhile fun char => !Text.isBlank char
    (some ⟨text, start.position.advanced 1⟩, stop)

/-! ### All words -/

/-- What stands behind characters of a kind does not begin with another one of them. -/
theorem not_of_mem_head?_dropWhile (kind : Char → Bool) (text : Text) :
    ∀ d ∈ (text.dropWhile kind).head?, kind d = false := by
  intro d hd
  have hnot := List.head?_dropWhile_not kind text
  simpa [Option.mem_def.1 hd] using hnot

theorem rest_skipBlanks (c : Cursor) : c.skipBlanks.rest = c.rest.dropWhile Text.isBlank := rfl

theorem rest_word_lt {c : Cursor} (h : c.word.1.isSome) :
    c.word.2.rest.length < c.rest.length := by
  cases hrest : c.skipBlanks.rest with
  | nil => simp [word, hrest] at h
  | cons char rest =>
    -- the first character behind the blanks belongs to the word
    have hchar : Text.isBlank char = false :=
      not_of_mem_head?_dropWhile Text.isBlank c.rest char (by rw [← rest_skipBlanks, hrest]; rfl)
    have hskip : (char :: rest).length ≤ c.rest.length := by
      rw [← hrest, rest_skipBlanks]
      exact (List.dropWhile_suffix _).length_le
    have hword : (rest.dropWhile fun char => !Text.isBlank char).length ≤ rest.length :=
      (List.dropWhile_suffix _).length_le
    simp only [word, hrest, takeWhile, List.dropWhile_cons, hchar, Bool.not_false, if_true]
    rw [List.length_cons] at hskip
    omega

/-- The words from here to the end. -/
def words (c : Cursor) : List Candidate :=
  match _h : c.word.1 with
  | none => []
  | some word => word :: c.word.2.words
termination_by c.rest.length
decreasing_by exact rest_word_lt (_h ▸ rfl)

end Cursor

end PatternLexer
