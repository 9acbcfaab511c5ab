import Mathlib.Tactic.SplitIfs
import PatternLexer.Pattern.Tokens
import PatternLexer.Pattern.Writing
import PatternLexer.Proofs.Pattern.Stacks

/-! Reading a pattern and writing one. A character that is not a backslash is read as the token of
which it is the written form by itself, and a backslash is the first half of a form with two
characters. So the tokens read are exactly those that the pattern is a writing of, and what a text
is read as does not depend on what stands before and behind it. -/

namespace PatternLexer.Pattern

variable {alphabet : Alphabet} {markers : Markers} {position : Nat}
  {text text' rest piece : Text} {c : Char} {token : Token} {kinds kinds' : List Token}
  {tokens : List Placed}

/-! ### One character -/

theorem isReserved_eq_false_iff :
    Token.isReserved c = false ↔ c ≠ '\\' ∧ Token.reserved? c = none := by
  simp [Token.isReserved]

theorem piece_of_reserved? (h : Token.reserved? c = some token) :
    Piece alphabet markers token [c] := by
  unfold Token.reserved? at h
  split at h <;> cases h
  · exact .operator .star
  · exact .operator .concat
  · exact .operator .union
  · exact .opening
  · exact .closing

theorem piece_of_classify? (hc : c ≠ '\\') (h : classify? alphabet markers c = some token) :
    Piece alphabet markers token [c] := by
  unfold classify? at h
  split at h
  · rename_i hreserved
    exact Option.some.inj h ▸ piece_of_reserved? hreserved
  · rename_i hreserved
    have hplain := isReserved_eq_false_iff.2 ⟨hc, hreserved⟩
    split_ifs at h with hepsilon hempty hmem
    · cases h
      subst hepsilon
      exact .epsilon hplain
    · cases h
      subst hempty
      exact .empty hplain hepsilon
    · cases h
      exact .bare hmem hplain hepsilon hempty

/-- A written form is an escaped character, or one that is read as the token by itself. -/
theorem Piece.escaped_or_classify? (h : Piece alphabet markers token piece) :
    (∃ c, token = .symbol c ∧ piece = ['\\', c]) ∨
      ∃ c, c ≠ '\\' ∧ piece = [c] ∧ classify? alphabet markers c = some token := by
  cases h with
  | escaped c => exact .inl ⟨c, rfl, rfl⟩
  | operator op => cases op <;> exact .inr ⟨_, by decide, rfl, rfl⟩
  | opening => exact .inr ⟨_, by decide, rfl, rfl⟩
  | closing => exact .inr ⟨_, by decide, rfl, rfl⟩
  | epsilon hplain =>
    obtain ⟨hbackslash, hreserved⟩ := isReserved_eq_false_iff.1 hplain
    exact .inr ⟨_, hbackslash, rfl, by simp [classify?, hreserved]⟩
  | empty hplain hepsilon =>
    obtain ⟨hbackslash, hreserved⟩ := isReserved_eq_false_iff.1 hplain
    exact .inr ⟨_, hbackslash, rfl, by simp [classify?, hreserved, hepsilon]⟩
  | bare hmem hplain hepsilon hempty =>
    obtain ⟨hbackslash, hreserved⟩ := isReserved_eq_false_iff.1 hplain
    exact .inr ⟨_, hbackslash, rfl, by simp [classify?, hreserved, hepsilon, hempty, hmem]⟩

/-! ### Whole texts -/

theorem tokensFrom_escape (c : Char) (h : tokensFrom alphabet markers (position + 2) rest =
    .ok tokens) : tokensFrom alphabet markers position ('\\' :: c :: rest) =
      .ok (⟨position, .symbol c⟩ :: tokens) := by
  rw [tokensFrom, h]
  rfl

theorem tokensFrom_plain (hc : c ≠ '\\') (hclass : classify? alphabet markers c = some token)
    (h : tokensFrom alphabet markers (position + 1) rest = .ok tokens) :
    tokensFrom alphabet markers position (c :: rest) = .ok (⟨position, token⟩ :: tokens) := by
  rw [tokensFrom, hclass]
  · simp only [h]
    rfl
  · intro hbackslash
    exact absurd hbackslash hc
  · intro _ _ hbackslash
    exact absurd hbackslash hc

theorem writing_of_tokensFrom (h : tokensFrom alphabet markers position text = .ok tokens) :
    Writing alphabet markers position tokens text := by
  fun_induction tokensFrom alphabet markers position text generalizing tokens with
  | case1 position =>
    cases h
    exact .nil position
  | case2 => exact nomatch h
  | case3 position c rest ih =>
    obtain ⟨read, hread, heq⟩ := bind_eq_ok.1 h
    cases heq
    exact .cons (.escaped c) (ih hread)
  | case4 => exact nomatch h
  | case5 position c rest hlast hescape token hclass ih =>
    obtain ⟨read, hread, heq⟩ := bind_eq_ok.1 h
    cases heq
    have hc := ne_backslash_of_plain hlast hescape
    exact .cons (piece_of_classify? hc hclass) (ih hread)

theorem Writing.tokensFrom_eq (h : Writing alphabet markers position tokens text) :
    tokensFrom alphabet markers position text = .ok tokens := by
  induction h with
  | nil position => rfl
  | cons hpiece _ ih =>
    rcases hpiece.escaped_or_classify? with ⟨c, rfl, rfl⟩ | ⟨c, hc, rfl, hclass⟩
    · exact tokensFrom_escape c ih
    · exact tokensFrom_plain hc hclass ih

/-- A pattern is read as a list of tokens exactly when it is a writing of these tokens, each of them
at the number of characters that are written before it. -/
theorem tokenize_iff_writing (alphabet : Alphabet) (markers : Markers) (pattern : Text)
    (tokens : List Placed) : tokenize alphabet markers pattern = .ok tokens ↔
      Writing alphabet markers 0 tokens pattern :=
  ⟨writing_of_tokensFrom, Writing.tokensFrom_eq⟩

/-- Where both markers are the same character of the alphabet, it is read as the epsilon marker. -/
example : tokenize (.ofText ['a']) ⟨'a', 'a'⟩ ['a', '\\', 'a', '*'] =
    .ok [⟨0, .epsilon⟩, ⟨1, .symbol 'a'⟩, ⟨3, .operator .star⟩] := rfl

/-! ### Kinds of tokens -/

/-- The text is a writing of tokens of the given kinds, wherever it begins. -/
def Writes (alphabet : Alphabet) (markers : Markers) (kinds : List Token) (text : Text) : Prop :=
  ∀ position, ∃ tokens, Writing alphabet markers position tokens text ∧
    tokens.map Placed.token = kinds

theorem Writes.nil : Writes alphabet markers [] [] := fun position => ⟨[], .nil position, rfl⟩

theorem Writes.cons (hpiece : Piece alphabet markers token piece)
    (h : Writes alphabet markers kinds text) :
    Writes alphabet markers (token :: kinds) (piece ++ text) := by
  intro position
  obtain ⟨tokens, hwriting, rfl⟩ := h (position + piece.length)
  exact ⟨⟨position, token⟩ :: tokens, .cons hpiece hwriting, rfl⟩

theorem Writes.single (hpiece : Piece alphabet markers token piece) :
    Writes alphabet markers [token] piece := by
  simpa using Writes.nil.cons hpiece

/-- The tokens of a text are written wherever it begins, and before any other text. -/
theorem Writing.writes_append (h : Writing alphabet markers position tokens text)
    (h' : Writes alphabet markers kinds' text') :
    Writes alphabet markers (tokens.map Placed.token ++ kinds') (text ++ text') := by
  induction h with
  | nil => exact h'
  | cons hpiece _ ih =>
    rw [List.append_assoc]
    exact ih.cons hpiece

theorem Writing.writes (h : Writing alphabet markers position tokens text) :
    Writes alphabet markers (tokens.map Placed.token) text := by
  simpa using h.writes_append .nil

theorem Writes.append (h : Writes alphabet markers kinds text)
    (h' : Writes alphabet markers kinds' text') :
    Writes alphabet markers (kinds ++ kinds') (text ++ text') := by
  obtain ⟨tokens, hwriting, rfl⟩ := h 0
  exact hwriting.writes_append h'

theorem Writes.exists_tokenize (h : Writes alphabet markers kinds text) :
    ∃ tokens, tokenize alphabet markers text = .ok tokens ∧ tokens.map Placed.token = kinds := by
  obtain ⟨tokens, hwriting, hkinds⟩ := h 0
  exact ⟨tokens, hwriting.tokensFrom_eq, hkinds⟩

theorem writes_of_tokenize (h : tokenize alphabet markers text = .ok tokens) :
    Writes alphabet markers (tokens.map Placed.token) text :=
  (writing_of_tokensFrom h).writes

end PatternLexer.Pattern
