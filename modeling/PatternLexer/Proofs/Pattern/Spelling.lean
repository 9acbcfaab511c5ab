import PatternLexer.Proofs.Pattern.Signs
import PatternLexer.Proofs.Pattern.Written

/-! Spelled tokens are read back. The spelling of a token is a written form of it when the markers
are the signs that tokens are shown with, unless a symbol is one of these signs itself. So a pattern
can be exchanged for the spelling of its tokens, whichever markers it was written with. -/

namespace PatternLexer.Pattern

variable {wide : Alphabet} {token : Token} {tokens listed : List Placed}

/-- A token that is told from all others by its spelling, in an alphabet with its symbol. -/
structure Token.Legible (wide : Alphabet) (token : Token) : Prop where
  ne_epsilon : token ≠ .symbol 'ε'
  ne_empty : token ≠ .symbol '∅'
  mem : ∀ c, token = .symbol c → c ∈ wide

theorem Token.Legible.piece (h : token.Legible wide) :
    Piece wide ⟨'ε', '∅'⟩ token token.spelling := by
  cases token with
  | symbol c =>
    have hepsilon : c ≠ 'ε' := fun hc => h.ne_epsilon (congrArg Token.symbol hc)
    have hempty : c ≠ '∅' := fun hc => h.ne_empty (congrArg Token.symbol hc)
    rw [Token.spelling]
    split
    · exact .escaped c
    · rename_i hreserved
      exact .bare (h.mem c rfl) (Bool.eq_false_iff.2 hreserved) hepsilon hempty
  | epsilon => exact .epsilon rfl
  | empty => exact .empty rfl (by decide)
  | operator op => exact .operator op
  | opening => exact .opening
  | closing => exact .closing

theorem writes_spell (h : ∀ t ∈ tokens, t.token.Legible wide) :
    Writes wide ⟨'ε', '∅'⟩ (tokens.map Placed.token) (spell tokens) := by
  induction tokens with
  | nil => exact .nil
  | cons t tokens ih =>
    obtain ⟨ht, htokens⟩ := List.forall_mem_cons.1 h
    exact (ih htokens).cons ht.piece

/-- Signs are legible too. -/
theorem legible_withConcatenations (h : ∀ t ∈ tokens, t.token.Legible wide) :
    ∀ t ∈ withConcatenations tokens, t.token.Legible wide := by
  intro t ht
  rw [withConcatenations, ← map_fst_writeSigns] at ht
  obtain ⟨x, hx, rfl⟩ := List.mem_map.1 ht
  cases hsign : x.2 with
  | true =>
    rw [token_of_mem_writeSigns hx hsign]
    exact ⟨nofun, nofun, nofun⟩
  | false =>
    refine h x.1 ?_
    rw [← filter_writeSigns (lacksSignFrom false tokens) tokens]
    exact List.mem_map_of_mem (List.mem_filter.2 ⟨hx, by rw [hsign]; rfl⟩)

/-- A pattern of no symbol that is a sign of a marker, and the spelling of its tokens with the signs
of concatenation written or not. With those markers and an alphabet that has the symbols, the
spelling is read as the same tokens, and it has the tree of the pattern or is refused for the same
reason. -/
theorem spell_reads_back {alphabet wide : Alphabet} {markers : Markers} {pattern : Text}
    {tokens : List Placed} (htokenize : tokenize alphabet markers pattern = .ok tokens)
    (hsigns : ∀ t ∈ tokens, t.token ≠ .symbol 'ε' ∧ t.token ≠ .symbol '∅')
    (hwide : ∀ t ∈ tokens, ∀ c, t.token = .symbol c → c ∈ wide) :
    ∀ listed, listed = tokens ∨ listed = withConcatenations tokens →
      (∃ read, tokenize wide ⟨'ε', '∅'⟩ (spell listed) = .ok read ∧
        read.map Placed.token = listed.map Placed.token) ∧
      (parse wide ⟨'ε', '∅'⟩ (spell listed)).mapError Error.unplaced =
        (parse alphabet markers pattern).mapError Error.unplaced ∧
      ∀ tree, parse alphabet markers pattern = .ok tree →
        parse wide ⟨'ε', '∅'⟩ (spell listed) = .ok tree := by
  intro listed hlisted
  have htokens : ∀ t ∈ tokens, t.token.Legible wide := fun t ht =>
    ⟨(hsigns t ht).1, (hsigns t ht).2, hwide t ht⟩
  have hlegible : ∀ t ∈ listed, t.token.Legible wide := by
    rcases hlisted with rfl | rfl
    · exact htokens
    · exact legible_withConcatenations htokens
  have hcomplete : completeFrom false (listed.map Placed.token) =
      completeFrom false (tokens.map Placed.token) := by
    rcases hlisted with rfl | rfl
    · rfl
    · rw [← map_token_withConcatenations, ← map_token_withConcatenations, withConcatenations_idem]
  obtain ⟨read, hread, hkinds⟩ := (writes_spell hlegible).exists_tokenize
  have hparse : (parse wide ⟨'ε', '∅'⟩ (spell listed)).mapError Error.unplaced =
      (parse alphabet markers pattern).mapError Error.unplaced := by
    rw [parse, parse, hread, htokenize]
    refine parseTokens_withConcatenations_congr ?_
    rw [hkinds, hcomplete]
  refine ⟨⟨read, hread, hkinds⟩, hparse, fun tree htree => ?_⟩
  rw [htree] at hparse
  cases hspelled : parse wide ⟨'ε', '∅'⟩ (spell listed) with
  | ok other =>
    rw [hspelled] at hparse
    exact hparse
  | error error =>
    rw [hspelled] at hparse
    exact nomatch hparse

/-- With `_` and `0` for the markers, `e\*_` is spelled `e&\*&ε` once its signs are written. -/
theorem spell_reads_back_markers :
    let tokens : List Placed := [⟨0, .symbol 'e'⟩, ⟨1, .symbol '*'⟩, ⟨3, .epsilon⟩]
    let tree : Tree := .concat (.concat (.symbol 'e') (.symbol '*')) .epsilon
    let spelled : Text := ['e', '&', '\\', '*', '&', 'ε']
    tokenize (.ofText ['e']) ⟨'_', '0'⟩ ['e', '\\', '*', '_'] = .ok tokens ∧
    (∀ t ∈ tokens, t.token ≠ .symbol 'ε' ∧ t.token ≠ .symbol '∅') ∧
    (∀ t ∈ tokens, ∀ c, t.token = .symbol c → c ∈ Alphabet.ofText ['e', '*']) ∧
    spell (withConcatenations tokens) = spelled ∧
    parse (.ofText ['e']) ⟨'_', '0'⟩ ['e', '\\', '*', '_'] = .ok tree ∧
    parse (.ofText ['e', '*']) ⟨'ε', '∅'⟩ spelled = .ok tree := by
  intro tokens tree spelled
  have htokenize : tokenize (.ofText ['e']) ⟨'_', '0'⟩ ['e', '\\', '*', '_'] = .ok tokens := rfl
  have hsigns : ∀ t ∈ tokens, t.token ≠ .symbol 'ε' ∧ t.token ≠ .symbol '∅' := by decide
  have hwide : ∀ t ∈ tokens, ∀ c, t.token = .symbol c → c ∈ Alphabet.ofText ['e', '*'] := by
    intro t ht c hc
    simp only [tokens, List.mem_cons, List.not_mem_nil, or_false] at ht
    rcases ht with rfl | rfl | rfl <;> cases hc <;> decide
  have hparse : parse (.ofText ['e']) ⟨'_', '0'⟩ ['e', '\\', '*', '_'] = .ok tree := rfl
  exact ⟨htokenize, hsigns, hwide, rfl, hparse,
    (spell_reads_back htokenize hsigns hwide _ (.inr rfl)).2.2 tree hparse⟩

end PatternLexer.Pattern
