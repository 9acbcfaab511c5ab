import Mathlib.Data.List.Forall2
import PatternLexer.Lexer.Recovery
import PatternLexer.Proofs.Lexer.Coverage
import PatternLexer.Proofs.Lexer.LongestMatch
import PatternLexer.Proofs.Lexer.Stopping
import PatternLexer.Proofs.Source.Words

/-! Recovering runs word by word. What a candidate gives to a recovering run hangs on its text
alone, and all that is left of it stays in front until it is used up or given up, so the run of a
source is made up of the runs of its words. -/

namespace PatternLexer.Lexer

variable {lexer rest : Lexer} {token : Token} {error : Error} {told : List Event}

/-! ### What one candidate gives -/

/-- The events of a candidate with the given text: tokens as long as there is a match, then the
error and what was given up. -/
def textEvents (alphabet : Alphabet) (recognizers : Catalog (Text → Bool)) (text : Text) :
    List Event :=
  match _h : longestMatch ⟨alphabet, recognizers, []⟩ text with
  | .error reason => [.failure (.invalidToken text reason), .skipped text]
  | .ok (kind, length) =>
    .token kind (text.take length) ::
      if text.drop length = [] then [] else textEvents alphabet recognizers (text.drop length)
termination_by text.length
decreasing_by
  have hbounds := longestMatch_bounds _h
  rw [List.length_drop]
  omega

/-- The events of all candidates that are pending, one after the other. -/
def events (lexer : Lexer) : List Event :=
  lexer.pending.flatMap fun c => textEvents lexer.alphabet lexer.recognizers c.text

theorem textEvents_of_error {text : Text} {reason : Reason}
    (h : lexer.longestMatch text = .error reason) :
    textEvents lexer.alphabet lexer.recognizers text =
      [.failure (.invalidToken text reason), .skipped text] := by
  have hmatch : longestMatch ⟨lexer.alphabet, lexer.recognizers, []⟩ text = .error reason := h
  rw [textEvents]
  split
  · rename_i reason' h'
    obtain rfl := Except.error.inj (hmatch.symm.trans h')
    rfl
  · rename_i h'
    exact nomatch hmatch.symm.trans h'

theorem textEvents_of_ok {candidate : Candidate} {kind : String} {length : Nat}
    (h : lexer.longestMatch candidate.text = .ok (kind, length)) :
    textEvents lexer.alphabet lexer.recognizers candidate.text =
      .token kind (candidate.text.take length) ::
        (remainder candidate length).flatMap fun c =>
          textEvents lexer.alphabet lexer.recognizers c.text := by
  have hmatch : longestMatch ⟨lexer.alphabet, lexer.recognizers, []⟩ candidate.text =
    .ok (kind, length) := h
  rw [textEvents]
  split
  · rename_i h'
    exact nomatch hmatch.symm.trans h'
  · rename_i kind' length' h'
    obtain ⟨rfl, rfl⟩ := Prod.mk.inj (Except.ok.inj (hmatch.symm.trans h'))
    unfold remainder
    cases candidate.text.drop length <;> simp

/-! ### One call -/

/-- A token is the first event of the lexer that it was taken from. -/
theorem events_of_next_eq_ok (h : lexer.next = (.ok token, rest)) :
    lexer.events = token.event :: rest.events := by
  obtain ⟨candidate, behind, kind, length, hpending, hmatch, rfl, rfl⟩ := next_eq_ok h
  unfold events
  rw [hpending, List.flatMap_cons, textEvents_of_ok hmatch, List.flatMap_append]
  rfl

theorem length_pending_next_le (h : lexer.next = (.ok token, rest)) :
    rest.pending.length ≤ lexer.pending.length := by
  obtain ⟨candidate, behind, length, hpending, -, -, -, hrest⟩ := exists_cut_of_next_eq_ok h
  have hremainder : (remainder candidate length).length ≤ 1 := by
    unfold remainder
    split <;> simp
  rw [hpending, hrest, List.length_append, List.length_cons]
  omega

/-- Tokens are the first events of a lexer. -/
theorem events_tokenize (lexer : Lexer) :
    lexer.events = lexer.tokenize.1.1.map Token.event ++ lexer.tokenize.2.events ∧
      lexer.tokenize.2.pending.length ≤ lexer.pending.length := by
  induction lexer using Lexer.tokenize.induct with
  | case1 lexer token rest hnext _ _ _ _ ih =>
    obtain ⟨hevents, hlength⟩ := ih
    rw [tokenize_of_next_eq_ok hnext]
    refine ⟨?_, hlength.trans (length_pending_next_le hnext)⟩
    rw [events_of_next_eq_ok hnext, hevents]
    rfl
  | case2 lexer error rest hnext =>
    rw [tokenize_of_next_eq_error hnext]
    obtain rfl := eq_of_next_eq_error hnext
    exact ⟨rfl, Nat.le_refl _⟩

/-! ### Rounds -/

/-- A round takes the first events of a lexer, and leaves less pending unless it is the last. -/
theorem events_round (lexer : Lexer) :
    lexer.events = lexer.round.1 ++ lexer.round.2.events ∧
      (lexer.round.2.isExhausted = true ∨
        lexer.round.2.pending.length < lexer.pending.length) := by
  obtain ⟨hevents, hlength⟩ := lexer.events_tokenize
  obtain ⟨error, -, hnext, herror⟩ := lexer.run_replicate_tokenize
  rcases htokenize : lexer.tokenize with ⟨⟨tokens, error?⟩, rest⟩
  rw [htokenize] at hevents hlength hnext herror
  dsimp only at hevents hlength hnext herror
  obtain ⟨-, ⟨hpending, rfl⟩ | ⟨candidate, behind, reason, hpending, hmatch, rfl⟩⟩ :=
    next_eq_error hnext
  · obtain rfl : error? = none := herror
    have hround : lexer.round = (tokens.map Token.event, rest) := by
      unfold round
      rw [htokenize]
    rw [hround]
    exact ⟨hevents, .inl (by simp [isExhausted, hpending])⟩
  · obtain rfl : error? = some _ := herror
    have hround : lexer.round = (tokens.map Token.event ++
        [.failure (.invalidToken candidate.text reason), .skipped candidate.text],
        { rest with pending := behind }) := by
      unfold round skip
      rw [htokenize]
      simp [hpending]
    rw [hround]
    constructor
    · rw [hevents, List.append_assoc]
      congr 1
      unfold events
      rw [hpending, List.flatMap_cons, textEvents_of_error hmatch]
    · right
      rw [hpending, List.length_cons] at hlength
      exact hlength

theorem events_of_isExhausted (h : lexer.isExhausted = true) : lexer.events = [] := by
  unfold events
  rw [List.isEmpty_iff.1 h, List.flatMap_nil]

/-- The recovering run ends. -/
theorem recovers_events (lexer : Lexer) : lexer.Recovers lexer.events := by
  obtain ⟨hevents, hdone | hless⟩ := lexer.events_round
  · rw [hevents, events_of_isExhausted hdone, List.append_nil]
    exact .last rfl hdone
  · cases hexhausted : lexer.round.2.isExhausted with
    | true =>
      rw [hevents, events_of_isExhausted hexhausted, List.append_nil]
      exact .last rfl hexhausted
    | false =>
      rw [hevents]
      exact .more rfl hexhausted (recovers_events lexer.round.2)
termination_by lexer.pending.length

theorem Recovers.eq_events (h : lexer.Recovers told) : told = lexer.events := by
  induction h with
  | @last lexer rest told hround hexhausted =>
    have hevents := lexer.events_round.1
    rw [hround] at hevents
    dsimp only at hevents
    rw [hevents, events_of_isExhausted hexhausted, List.append_nil]
  | @more lexer rest told later hround _ _ ih =>
    have hevents := lexer.events_round.1
    rw [hround] at hevents
    rw [hevents, ih]

theorem recovers_iff : lexer.Recovers told ↔ told = lexer.events :=
  ⟨Recovers.eq_events, fun h => h ▸ recovers_events lexer⟩

/-! ### Word by word -/

theorem events_ofRecognizers (alphabet : Alphabet) (recognizers : List (String × (Text → Bool)))
    (source : Text) : (ofRecognizers alphabet recognizers source).events =
      source.words.flatMap (textEvents alphabet (.ofList recognizers)) := by
  have hwords : (Cursor.ofText source).words.map Candidate.text = source.words :=
    Cursor.map_text_words (.ofText source)
  rw [← hwords, List.flatMap_map]
  rfl

/-- The recovering run of every source ends, and tells what the runs of its words tell, one after
the other. So two sources with the same words are told alike, however they are spaced. -/
theorem recovers_by_words (alphabet : Alphabet) (recognizers : List (String × (Text → Bool))) :
    (∀ source : Text, ∃ parts : List (List Event),
      List.Forall₂ (fun word part => (ofRecognizers alphabet recognizers word).Recovers part)
        source.words parts ∧
      ∀ told, (ofRecognizers alphabet recognizers source).Recovers told ↔ told = parts.flatten) ∧
    ∀ source source' : Text, source.words = source'.words → ∀ told,
      (ofRecognizers alphabet recognizers source).Recovers told ↔
        (ofRecognizers alphabet recognizers source').Recovers told := by
  constructor
  · intro source
    refine ⟨source.words.map (textEvents alphabet (.ofList recognizers)), ?_, fun told => ?_⟩
    · refine List.forall₂_map_right_iff.2 (List.forall₂_same.2 fun word hword => ?_)
      rw [recovers_iff, events_ofRecognizers, Text.words_of_mem_words hword, List.flatMap_singleton]
    · rw [recovers_iff, events_ofRecognizers, List.flatMap_def]
  · intro source source' hwords told
    rw [recovers_iff, recovers_iff, events_ofRecognizers, events_ofRecognizers, hwords]

/-- The words `ab` and `c`, once with one space between them and once with a line feed, a no-break
space and blanks around. -/
theorem recovers_by_words_spaced :
    let source : Text := ['a', 'b', ' ', 'c']
    let spaced : Text := ['\t', 'a', 'b', '\n', '\u00a0', 'c', '\u2003']
    let kinds : List (String × (Text → Bool)) := [("A", fun word => word = ['a'])]
    source.words = spaced.words ∧
      ∀ told, (ofRecognizers (.ofText ['a', 'b']) kinds source).Recovers told ↔
        (ofRecognizers (.ofText ['a', 'b']) kinds spaced).Recovers told := by
  intro source spaced kinds
  have hwords : source.words = spaced.words := by decide
  exact ⟨hwords, (recovers_by_words (.ofText ['a', 'b']) kinds).2 source spaced hwords⟩

end PatternLexer.Lexer
