import PatternLexer.Alphabet
import PatternLexer.Catalog
import PatternLexer.Lexer.Error
import PatternLexer.Source.Cursor

/-! The lexer. It holds the words of its source that are not read yet, and takes from the front
word the longest beginning that some kind of token recognizes. Words with a character outside the
alphabet yield no token at all. -/

namespace PatternLexer

/-- The kinds of token are named in order of declaration, each with the words that it accepts. -/
structure Lexer where
  alphabet : Alphabet
  recognizers : Catalog (Text → Bool)
  pending : List Candidate

namespace Lexer

structure Token where
  kind : String
  lexeme : Text
  position : Position
  deriving DecidableEq

def Token.display (t : Token) : String := "(" ++ t.kind ++ ", " ++ Text.quote t.lexeme ++ ")"

def ofRecognizers (alphabet : Alphabet) (recognizers : List (String × (Text → Bool)))
    (source : Text) : Lexer :=
  ⟨alphabet, .ofList recognizers, (Cursor.ofText source).words⟩

def kinds (lexer : Lexer) : List String := lexer.recognizers.names

def isExhausted (lexer : Lexer) : Bool := lexer.pending.isEmpty

/-! ### The longest match -/

/-- The first kind declared that accepts a word. -/
def kindOf? (recognizers : Catalog (Text → Bool)) (word : Text) : Option String :=
  (recognizers.entries.find? fun entry => entry.2 word).map Prod.fst

/-- The longest accepted beginning of a word, of at least one and at most `n` characters, by the
kind that accepts it and its length. -/
def longestWithin (recognizers : Catalog (Text → Bool)) (word : Text) : Nat → Option (String × Nat)
  | 0 => none
  | n + 1 =>
    match kindOf? recognizers (word.take (n + 1)) with
    | some kind => some (kind, n + 1)
    | none => longestWithin recognizers word n

/-- The longest match of a word over the alphabet. -/
def longestMatch (lexer : Lexer) (word : Text) : Except Reason (String × Nat) :=
  match lexer.alphabet.firstForeign? word with
  | some c => .error (.outOfAlphabet c)
  | none =>
    match longestWithin lexer.recognizers word word.length with
    | some found => .ok found
    | none => .error .noMatch

theorem longestWithin_bounds {recognizers : Catalog (Text → Bool)} {word : Text} {kind : String}
    {n length : Nat} (h : longestWithin recognizers word n = some (kind, length)) :
    0 < length ∧ length ≤ n := by
  induction n with
  | zero => exact nomatch h
  | succ n ih =>
    rw [longestWithin] at h
    split at h
    · obtain ⟨-, rfl⟩ := Prod.mk.inj (Option.some.inj h)
      exact ⟨Nat.succ_pos n, Nat.le_refl _⟩
    · exact ⟨(ih h).1, Nat.le_succ_of_le (ih h).2⟩

theorem longestMatch_bounds {lexer : Lexer} {word : Text} {kind : String} {length : Nat}
    (h : lexer.longestMatch word = .ok (kind, length)) : 0 < length ∧ length ≤ word.length := by
  rw [longestMatch] at h
  split at h
  · exact nomatch h
  · split at h
    · rename_i found hfound
      exact longestWithin_bounds (hfound.trans (congrArg some (Except.ok.inj h)))
    · exact nomatch h

/-! ### Reading tokens -/

/-- What is left of a candidate behind its first characters, if anything is. -/
def remainder (candidate : Candidate) (length : Nat) : List Candidate :=
  match candidate.text.drop length with
  | [] => []
  | rest => [⟨rest, candidate.position.advanced length⟩]

/-- Takes a token from the front candidate, of which the rest stays in front. When there is no
token the lexer stays as it is. -/
def next (lexer : Lexer) : Except Error Token × Lexer :=
  match lexer.pending with
  | [] => (.error ⟨.endOfInput, none⟩, lexer)
  | candidate :: rest =>
    match lexer.longestMatch candidate.text with
    | .error reason =>
      (.error ⟨.invalidToken candidate.text reason, some candidate.position⟩, lexer)
    | .ok (kind, length) =>
      (.ok ⟨kind, candidate.text.take length, candidate.position⟩,
        { lexer with pending := remainder candidate length ++ rest })

theorem next_eq_ok {lexer rest : Lexer} {token : Token} (h : lexer.next = (.ok token, rest)) :
    ∃ candidate behind kind length, lexer.pending = candidate :: behind ∧
      lexer.longestMatch candidate.text = .ok (kind, length) ∧
      token = ⟨kind, candidate.text.take length, candidate.position⟩ ∧
      rest = { lexer with pending := remainder candidate length ++ behind } := by
  unfold Lexer.next at h
  split at h
  · exact nomatch h
  · rename_i candidate behind hpending
    split at h
    · exact nomatch h
    · rename_i kind length hmatch
      obtain ⟨htoken, hrest⟩ := Prod.mk.inj h
      exact ⟨candidate, behind, kind, length, hpending, hmatch, (Except.ok.inj htoken).symm,
        hrest.symm⟩

/-- A lexer that yields no token has come to the end, or to a candidate without a match. -/
theorem next_eq_error {lexer rest : Lexer} {error : Error}
    (h : lexer.next = (.error error, rest)) :
    rest = lexer ∧ (lexer.pending = [] ∧ error = ⟨.endOfInput, none⟩ ∨
      ∃ candidate behind reason, lexer.pending = candidate :: behind ∧
        lexer.longestMatch candidate.text = .error reason ∧
        error = ⟨.invalidToken candidate.text reason, some candidate.position⟩) := by
  unfold Lexer.next at h
  split at h
  · rename_i hpending
    obtain ⟨herror, hrest⟩ := Prod.mk.inj h
    exact ⟨hrest.symm, .inl ⟨hpending, (Except.error.inj herror).symm⟩⟩
  · rename_i candidate behind hpending
    split at h
    · rename_i reason hmatch
      obtain ⟨herror, hrest⟩ := Prod.mk.inj h
      exact ⟨hrest.symm, .inr ⟨candidate, behind, reason, hpending, hmatch,
        (Except.error.inj herror).symm⟩⟩
    · exact nomatch h

/-- A lexer that yields no token stays as it is. -/
theorem eq_of_next_eq_error {lexer rest : Lexer} {error : Error}
    (h : lexer.next = (.error error, rest)) : rest = lexer := (next_eq_error h).1

/-- Gives up the front candidate. -/
def skip (lexer : Lexer) : Option Candidate × Lexer :=
  (lexer.pending.head?, { lexer with pending := lexer.pending.tail })

/-- The characters that are in no token yet, without the blanks between them. -/
def unread (lexer : Lexer) : Text := lexer.pending.flatMap Candidate.text

theorem flatMap_remainder (candidate : Candidate) (length : Nat) :
    (remainder candidate length).flatMap Candidate.text = candidate.text.drop length := by
  rw [remainder]
  split
  · rename_i h
    exact h.symm
  · exact List.append_nil _

theorem length_unread_next_lt {lexer rest : Lexer} {token : Token}
    (h : lexer.next = (.ok token, rest)) : rest.unread.length < lexer.unread.length := by
  obtain ⟨candidate, behind, kind, length, hpending, hmatch, -, rfl⟩ := next_eq_ok h
  obtain ⟨hpos, hle⟩ := longestMatch_bounds hmatch
  rw [unread, unread, hpending, List.flatMap_append, flatMap_remainder, List.flatMap_cons,
    List.length_append, List.length_append, List.length_drop]
  omega

/-- Tokens as long as they come, and the error that ended them unless the input ended. -/
def tokenize (lexer : Lexer) : (List Token × Option Error) × Lexer :=
  match _h : lexer.next with
  | (.ok token, rest) =>
    let ((tokens, error), final) := rest.tokenize
    ((token :: tokens, error), final)
  | (.error error, rest) => (([], if error.isEndOfInput then none else some error), rest)
termination_by lexer.unread.length
decreasing_by exact length_unread_next_lt _h

theorem tokenize_of_next_eq_ok {lexer rest : Lexer} {token : Token}
    (h : lexer.next = (.ok token, rest)) :
    lexer.tokenize = ((token :: rest.tokenize.1.1, rest.tokenize.1.2), rest.tokenize.2) := by
  rw [tokenize]
  split
  · rename_i token' rest' h'
    obtain ⟨htoken, rfl⟩ := Prod.mk.inj (h.symm.trans h')
    obtain rfl := Except.ok.inj htoken
    rfl
  · rename_i h'
    simp [h] at h'

theorem tokenize_of_next_eq_error {lexer rest : Lexer} {error : Error}
    (h : lexer.next = (.error error, rest)) :
    lexer.tokenize = (([], if error.isEndOfInput then none else some error), rest) := by
  rw [tokenize]
  split
  · rename_i h'
    simp [h] at h'
  · rename_i error' rest' h'
    obtain ⟨herror, rfl⟩ := Prod.mk.inj (h.symm.trans h')
    obtain rfl := Except.error.inj herror
    rfl

end Lexer

end PatternLexer
