import PatternLexer.Lexer.Run
import PatternLexer.Proofs.Source.Tiling

/-! What a lexer emits, what it gives up and what it still holds tile its source, whatever calls
are made. Each call moves pieces from the front of the pending ones to the pieces given, and cuts
at most the piece behind them. -/

namespace PatternLexer.Lexer

/-- A token as the piece of the source that it is. -/
def Token.piece (t : Token) : Candidate := ⟨t.lexeme, t.position⟩

/-- The pieces of the source that a call took from the lexer. -/
def Outcome.pieces : Outcome → List Candidate
  | .next (.ok token) => [token.piece]
  | .next (.error _) => []
  | .skipped candidate => candidate.toList
  | .tokenized tokens _ => tokens.map Token.piece

variable {lexer rest : Lexer} {p : Position} {text : Text} {candidate : Candidate}
  {pieces : List Candidate} {token : Token} {error : Error} {length : Nat}

/-! ### One call -/

/-- A token takes some characters off the front candidate and leaves the rest in front. -/
theorem exists_cut_of_next_eq_ok (h : lexer.next = (.ok token, rest)) :
    ∃ candidate behind length, lexer.pending = candidate :: behind ∧
      0 < length ∧ length ≤ candidate.text.length ∧
      token.piece = ⟨candidate.text.take length, candidate.position⟩ ∧
      rest.pending = remainder candidate length ++ behind := by
  obtain ⟨candidate, behind, kind, length, hpending, hmatch, rfl, rfl⟩ := next_eq_ok h
  obtain ⟨hpos, hle⟩ := longestMatch_bounds hmatch
  exact ⟨candidate, behind, length, hpending, hpos, hle, rfl, rfl⟩

theorem tiles_cut (hpos : 0 < length) (hle : length ≤ candidate.text.length)
    (h : Tiles p text (⟨candidate.text, candidate.position⟩ :: pieces)) :
    Tiles p text (⟨candidate.text.take length, candidate.position⟩ ::
      (remainder candidate length ++ pieces)) := by
  have hsplit := List.take_append_drop length candidate.text
  unfold remainder
  split
  · rename_i hdrop
    rw [hdrop, List.append_nil] at hsplit
    rwa [hsplit]
  · rename_i hdrop
    have htake : candidate.text.take length ≠ [] := by
      apply List.ne_nil_of_length_pos
      rw [List.length_take]
      omega
    have hlength : (candidate.text.take length).length = length := by
      rw [List.length_take]
      omega
    rw [← hsplit] at h
    have hcut := Tiles.cut htake hdrop h
    rwa [hlength] at hcut

theorem tiles_next_ok (h : lexer.next = (.ok token, rest)) (htiles : Tiles p text lexer.pending) :
    Tiles p text (token.piece :: rest.pending) := by
  obtain ⟨candidate, behind, length, hpending, hpos, hle, hpiece, hrest⟩ :=
    exists_cut_of_next_eq_ok h
  rw [hpending] at htiles
  rw [hpiece, hrest]
  exact tiles_cut hpos hle htiles

theorem tiles_skip (htiles : Tiles p text lexer.pending) :
    Tiles p text (lexer.skip.1.toList ++ lexer.skip.2.pending) := by
  unfold skip
  cases hpending : lexer.pending with
  | nil => simpa [hpending] using htiles
  | cons candidate behind => simpa [hpending] using htiles

/-- Tokens come off one by one, until a call of `next` yields none. -/
theorem tiles_tokenize (lexer : Lexer) :
    ∀ p text, Tiles p text lexer.pending →
      Tiles p text (lexer.tokenize.1.1.map Token.piece ++ lexer.tokenize.2.pending) := by
  induction lexer using Lexer.tokenize.induct with
  | case1 lexer token rest hnext _ _ _ _ ih =>
    intro p text htiles
    rw [tokenize_of_next_eq_ok hnext]
    exact Tiles.append_of_imp [token.piece] ih (tiles_next_ok hnext htiles)
  | case2 lexer error rest hnext =>
    intro p text htiles
    rw [tokenize_of_next_eq_error hnext]
    rwa [eq_of_next_eq_error hnext]

theorem tiles_perform (lexer : Lexer) (call : Call) (p : Position) (text : Text)
    (htiles : Tiles p text lexer.pending) :
    Tiles p text ((lexer.perform call).1.pieces ++ (lexer.perform call).2.pending) := by
  cases call with
  | next =>
    unfold perform
    match hnext : lexer.next with
    | (.ok token, rest) => exact tiles_next_ok hnext htiles
    | (.error error, rest) => rwa [eq_of_next_eq_error hnext]
  | skip => exact tiles_skip htiles
  | tokenize => exact tiles_tokenize lexer p text htiles

/-! ### All calls -/

theorem tiles_run (calls : List Call) (lexer : Lexer) (p : Position) (text : Text)
    (htiles : Tiles p text lexer.pending) :
    Tiles p text ((lexer.run calls).1.flatMap Outcome.pieces ++ (lexer.run calls).2.pending) := by
  induction calls generalizing lexer p text with
  | nil => exact htiles
  | cons call calls ih =>
    have hstep := tiles_perform lexer call p text htiles
    show Tiles p text ((_ :: _).flatMap Outcome.pieces ++ _)
    rw [List.flatMap_cons, List.append_assoc]
    exact Tiles.append_of_imp _ (ih (lexer.perform call).2) hstep

/-- Whatever calls are made, the tokens emitted, the candidates given up and those still pending
are pieces of the source that hold no blank. Together they are the source without its blanks, and
they stand in it one behind the other, each where its position says. -/
theorem run_covers (alphabet : Alphabet) (recognizers : List (String × (Text → Bool)))
    (source : Text) (calls : List Call) :
    let ran := (ofRecognizers alphabet recognizers source).run calls
    let pieces := ran.1.flatMap Outcome.pieces ++ ran.2.pending
    (∀ piece ∈ pieces, piece.text ≠ [] ∧ ∀ c ∈ piece.text, Text.isBlank c = false) ∧
    pieces.flatMap Candidate.text = source.filter (fun c => !Text.isBlank c) ∧
    ∃ placed : List (Nat × Candidate), placed.map Prod.snd = pieces ∧
      (∀ x ∈ placed, x.2.StandsAt source x.1) ∧
      placed.Pairwise fun x y => x.1 + x.2.text.length ≤ y.1 := by
  intro ran pieces
  have htiles : Tiles {} source pieces :=
    tiles_run calls (ofRecognizers alphabet recognizers source) {} source
      (Cursor.tiles_words (.ofText source))
  obtain ⟨placed, hmap, hplaced, hpairwise⟩ := htiles.exists_offsets [] rfl
  exact ⟨htiles.plain, htiles.flatMap_text, placed, hmap, fun x hx => (hplaced x hx).2, hpairwise⟩

end PatternLexer.Lexer
