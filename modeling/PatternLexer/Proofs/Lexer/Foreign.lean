import PatternLexer.Proofs.Lexer.Coverage
import PatternLexer.Proofs.Lexer.LongestMatch
import PatternLexer.Proofs.Source.Runs

/-! Runs with a character outside the alphabet. The lexer looks for such characters in the front
candidate only, which may be the rest of a run. But a run is first looked at as a whole, and no
token comes of it unless it is clear of them; so what is left behind a token is part of a clear run,
and a candidate with a foreign character is a run that nothing was taken of. -/

namespace PatternLexer.Lexer

variable {lexer rest : Lexer} {source text : Text} {candidate piece : Candidate} {token : Token}
  {error : Error} {alphabet : Alphabet}

/-- The tokens that a call gave. -/
def Outcome.tokens : Outcome → List Token
  | .next (.ok token) => [token]
  | .next (.error _) => []
  | .skipped _ => []
  | .tokenized tokens _ => tokens

/-- The errors that a call gave. -/
def Outcome.errors : Outcome → List Error
  | .next (.ok _) => []
  | .next (.error error) => [error]
  | .skipped _ => []
  | .tokenized _ error => error.toList

/-- The candidate is part of a run over the alphabet. -/
def Clear (alphabet : Alphabet) (source : Text) (candidate : Candidate) : Prop :=
  ∃ run offset, run.IsRun source offset ∧ candidate.IsPartOf run ∧ ∀ c ∈ run.text, c ∈ alphabet

/-- An error about a foreign character names a whole run where it stands, and the first foreign
character of the run. -/
def Error.TellsRun (alphabet : Alphabet) (source : Text) (error : Error) : Prop :=
  ∀ text c, error.cause = .invalidToken text (.outOfAlphabet c) →
    ∃ position offset, error.position = some position ∧
      (⟨text, position⟩ : Candidate).IsRun source offset ∧
      c ∉ alphabet ∧ ∃ before behind, text = before ++ c :: behind ∧ ∀ d ∈ before, d ∈ alphabet

/-- What is pending are whole runs, and parts of runs that are clear. -/
def HoldsRuns (source : Text) (lexer : Lexer) : Prop :=
  ∀ candidate ∈ lexer.pending,
    (∃ offset, candidate.IsRun source offset) ∨ Clear lexer.alphabet source candidate

theorem Clear.part (h : Clear alphabet source candidate) (hpart : piece.IsPartOf candidate) :
    Clear alphabet source piece := by
  obtain ⟨run, offset, hrun, hcandidate, hclear⟩ := h
  exact ⟨run, offset, hrun, hpart.trans hcandidate, hclear⟩

/-! ### One call -/

/-- A run over the alphabet is clear, and so is every candidate over it that a lexer holds. -/
theorem HoldsRuns.clear (h : HoldsRuns source lexer) (hmem : candidate ∈ lexer.pending)
    (hplain : ∀ c ∈ candidate.text, c ∈ lexer.alphabet) :
    Clear lexer.alphabet source candidate := by
  rcases h candidate hmem with ⟨offset, hrun⟩ | hclear
  · exact ⟨candidate, offset, hrun, Candidate.isPartOf_self hrun.ne_nil, hplain⟩
  · exact hclear

theorem plain_of_longestMatch_eq_ok {kind : String} {length : Nat}
    (h : lexer.longestMatch text = .ok (kind, length)) : ∀ c ∈ text, c ∈ lexer.alphabet := by
  cases hforeign : lexer.alphabet.firstForeign? text with
  | none => exact Alphabet.firstForeign?_eq_none_iff.1 hforeign
  | some c => exact nomatch (longestMatch_of_foreign hforeign).symm.trans h

theorem firstForeign?_of_longestMatch_eq_error {c : Char}
    (h : lexer.longestMatch text = .error (.outOfAlphabet c)) :
    lexer.alphabet.firstForeign? text = some c := by
  unfold longestMatch at h
  split at h
  · rename_i d hforeign
    obtain rfl := Reason.outOfAlphabet.inj (Except.error.inj h)
    exact hforeign
  · split at h
    · exact nomatch h
    · exact nomatch Except.error.inj h

/-- A token and what it leaves of the front candidate are parts of this candidate. -/
theorem isPartOf_cut {length : Nat} (hpos : 0 < length) (hle : length ≤ candidate.text.length) :
    (⟨candidate.text.take length, candidate.position⟩ : Candidate).IsPartOf candidate ∧
      ∀ left ∈ remainder candidate length, left.IsPartOf candidate := by
  have hsplit := List.take_append_drop length candidate.text
  have hlength : (candidate.text.take length).length = length := by
    rw [List.length_take]
    omega
  constructor
  · refine ⟨?_, [], candidate.text.drop length, hsplit.symm, rfl⟩
    apply List.ne_nil_of_length_pos
    rwa [hlength]
  · unfold remainder
    split
    · exact nofun
    · rename_i hdrop
      refine List.forall_mem_singleton.2 ⟨hdrop, candidate.text.take length, [], ?_, ?_⟩
      · rw [List.append_nil, hsplit]
      · rw [hlength]

/-- A match clears the front candidate, and with it the rest that the token leaves. -/
theorem HoldsRuns.next_ok (h : HoldsRuns source lexer) (hnext : lexer.next = (.ok token, rest)) :
    Clear lexer.alphabet source token.piece ∧ HoldsRuns source rest ∧
      rest.alphabet = lexer.alphabet := by
  obtain ⟨candidate, behind, kind, length, hpending, hmatch, rfl, rfl⟩ := next_eq_ok hnext
  have hmem : candidate ∈ lexer.pending := hpending ▸ List.mem_cons_self
  have hclear := h.clear hmem (plain_of_longestMatch_eq_ok hmatch)
  obtain ⟨hpos, hle⟩ := longestMatch_bounds hmatch
  obtain ⟨hpiece, hleft⟩ := isPartOf_cut hpos hle
  refine ⟨hclear.part hpiece, fun other hother => ?_, rfl⟩
  rcases List.mem_append.1 hother with hother | hother
  · exact .inr (hclear.part (hleft other hother))
  · exact h other (hpending ▸ List.mem_cons_of_mem _ hother)

theorem HoldsRuns.next_error (h : HoldsRuns source lexer)
    (hnext : lexer.next = (.error error, rest)) : error.TellsRun lexer.alphabet source := by
  intro text c hcause
  rcases (next_eq_error hnext).2 with ⟨-, rfl⟩ | ⟨candidate, behind, reason, hpending, hmatch, rfl⟩
  · exact nomatch hcause
  · obtain ⟨rfl, rfl⟩ := Cause.invalidToken.inj hcause
    obtain ⟨hc, before, behind, htext, hbefore⟩ :=
      Alphabet.firstForeign?_eq_some_iff.1 (firstForeign?_of_longestMatch_eq_error hmatch)
    rcases h candidate (hpending ▸ List.mem_cons_self) with ⟨offset, hrun⟩ | hclear
    · exact ⟨candidate.position, offset, rfl, hrun, hc, before, behind, htext, hbefore⟩
    · -- parts of a clear run have no foreign character
      obtain ⟨run, -, -, hpart, hplain⟩ := hclear
      have hmem : c ∈ candidate.text := htext ▸ List.mem_append_right _ List.mem_cons_self
      exact absurd (hplain c (hpart.mem hmem)) hc

theorem HoldsRuns.tokenize (h : HoldsRuns source lexer) :
    (∀ token ∈ lexer.tokenize.1.1, Clear lexer.alphabet source token.piece) ∧
      (∀ error ∈ lexer.tokenize.1.2, error.TellsRun lexer.alphabet source) ∧
      HoldsRuns source lexer.tokenize.2 ∧ lexer.tokenize.2.alphabet = lexer.alphabet := by
  induction lexer using Lexer.tokenize.induct with
  | case1 lexer token rest hnext _ _ _ _ ih =>
    obtain ⟨hclear, hrest, halphabet⟩ := h.next_ok hnext
    obtain ⟨htokens, herrors, hfinal, hfinalAlphabet⟩ := ih hrest
    rw [tokenize_of_next_eq_ok hnext]
    rw [halphabet] at htokens herrors hfinalAlphabet
    exact ⟨List.forall_mem_cons.2 ⟨hclear, htokens⟩, herrors, hfinal, hfinalAlphabet⟩
  | case2 lexer error rest hnext =>
    have htells := h.next_error hnext
    obtain rfl := eq_of_next_eq_error hnext
    rw [tokenize_of_next_eq_error hnext]
    refine ⟨fun told htold => absurd htold List.not_mem_nil, fun told htold => ?_, h, rfl⟩
    obtain ⟨-, hsame⟩ := Option.ite_none_left_eq_some.1 htold
    exact Option.some.inj hsame ▸ htells

theorem HoldsRuns.perform (h : HoldsRuns source lexer) (call : Call) :
    (∀ token ∈ (lexer.perform call).1.tokens, Clear lexer.alphabet source token.piece) ∧
      (∀ error ∈ (lexer.perform call).1.errors, error.TellsRun lexer.alphabet source) ∧
      HoldsRuns source (lexer.perform call).2 ∧
      (lexer.perform call).2.alphabet = lexer.alphabet := by
  cases call with
  | next =>
    unfold Lexer.perform
    match hnext : lexer.next with
    | (.ok token, rest) =>
      obtain ⟨hclear, hrest, halphabet⟩ := h.next_ok hnext
      exact ⟨List.forall_mem_singleton.2 hclear, nofun, hrest, halphabet⟩
    | (.error error, rest) =>
      obtain rfl := eq_of_next_eq_error hnext
      exact ⟨nofun, List.forall_mem_singleton.2 (h.next_error hnext), h, rfl⟩
  | skip =>
    exact ⟨nofun, nofun, fun other hother => h other (List.mem_of_mem_tail hother), rfl⟩
  | tokenize =>
    obtain ⟨htokens, herrors, hfinal, halphabet⟩ := h.tokenize
    exact ⟨htokens, fun error herror => herrors error (Option.mem_toList.1 herror), hfinal,
      halphabet⟩

/-! ### All calls -/

theorem HoldsRuns.run (h : HoldsRuns source lexer) (calls : List Call) :
    ∀ outcome ∈ (lexer.run calls).1,
      (∀ token ∈ outcome.tokens, Clear lexer.alphabet source token.piece) ∧
        ∀ error ∈ outcome.errors, error.TellsRun lexer.alphabet source := by
  induction calls generalizing lexer with
  | nil => exact nofun
  | cons call calls ih =>
    obtain ⟨htokens, herrors, hrest, halphabet⟩ := h.perform call
    have hcalls := ih hrest
    rw [halphabet] at hcalls
    exact List.forall_mem_cons.2 ⟨⟨htokens, herrors⟩, hcalls⟩

theorem holdsRuns_ofRecognizers (alphabet : Alphabet) (recognizers : List (String × (Text → Bool)))
    (source : Text) : HoldsRuns source (ofRecognizers alphabet recognizers source) := by
  intro word hword
  exact .inl (Cursor.isRun_of_mem_words (.ofText source) [] rfl (.inl nofun) word hword)

/-- Whatever calls are made, every token is part of some run, and its run is over the alphabet. An
error about a foreign character names the whole run that it is in, at the position where the run
begins and never the rest of a run, and the character is the first foreign one. -/
theorem run_leaves_foreign_whole (alphabet : Alphabet)
    (recognizers : List (String × (Text → Bool))) (source : Text) (calls : List Call) :
    ∀ outcome ∈ ((ofRecognizers alphabet recognizers source).run calls).1,
      (∀ token ∈ outcome.tokens,
        (∃ run offset, run.IsRun source offset ∧ token.piece.IsPartOf run) ∧
        ∀ run offset, run.IsRun source offset → token.piece.IsPartOf run →
          ∀ c ∈ run.text, c ∈ alphabet) ∧
      ∀ error ∈ outcome.errors, error.TellsRun alphabet source := by
  intro outcome houtcome
  obtain ⟨htokens, herrors⟩ :=
    (holdsRuns_ofRecognizers alphabet recognizers source).run calls outcome houtcome
  refine ⟨fun token htoken => ?_, herrors⟩
  obtain ⟨run, offset, hrun, hpart, hclear⟩ := htokens token htoken
  refine ⟨⟨run, offset, hrun, hpart⟩, fun run' offset' hrun' hpart' => ?_⟩
  rwa [hpart'.eq_run hpart hrun' hrun]

/-- Two tokens of one run, then a run that begins like it and holds two foreign characters, and a
token of the run behind it. -/
theorem run_leaves_foreign_whole_percent :
    let kinds : List (String × (Text → Bool)) := [("A", fun word => word = ['a'])]
    let source : Text := ['a', 'a', '\n', 'a', '%', 'b', '?', ' ', 'a']
    let lexer := ofRecognizers (.ofText ['a', 'b']) kinds source
    let error : Error := ⟨.invalidToken ['a', '%', 'b', '?'] (.outOfAlphabet '%'), some ⟨2, 1⟩⟩
    (lexer.run [.next, .next, .next, .skip, .next]).1 =
        [.next (.ok ⟨"A", ['a'], ⟨1, 1⟩⟩), .next (.ok ⟨"A", ['a'], ⟨1, 2⟩⟩), .next (.error error),
          .skipped (some ⟨['a', '%', 'b', '?'], ⟨2, 1⟩⟩), .next (.ok ⟨"A", ['a'], ⟨2, 6⟩⟩)] ∧
      error.TellsRun (.ofText ['a', 'b']) source := by
  intro kinds source lexer error
  have hwords : (Cursor.ofText source).words =
      [⟨['a', 'a'], ⟨1, 1⟩⟩, ⟨['a', '%', 'b', '?'], ⟨2, 1⟩⟩, ⟨['a'], ⟨2, 6⟩⟩] :=
    Cursor.words_eq_cons rfl (Cursor.words_eq_cons rfl (Cursor.words_eq_cons rfl
      (Cursor.words_eq_nil rfl)))
  have hrun : (lexer.run [.next, .next, .next, .skip, .next]).1 =
      [.next (.ok ⟨"A", ['a'], ⟨1, 1⟩⟩), .next (.ok ⟨"A", ['a'], ⟨1, 2⟩⟩), .next (.error error),
        .skipped (some ⟨['a', '%', 'b', '?'], ⟨2, 1⟩⟩), .next (.ok ⟨"A", ['a'], ⟨2, 6⟩⟩)] := by
    have hlexer : lexer = ⟨.ofText ['a', 'b'], .ofList kinds, _⟩ :=
      congrArg (Lexer.mk (.ofText ['a', 'b']) (.ofList kinds)) hwords
    rw [hlexer]
    rfl
  have hall := run_leaves_foreign_whole (.ofText ['a', 'b']) kinds source
    [.next, .next, .next, .skip, .next]
  obtain ⟨-, herrors⟩ := hall _ (List.mem_of_getElem? (congrArg (·[2]?) hrun))
  exact ⟨hrun, herrors error (List.mem_singleton_self error)⟩

end PatternLexer.Lexer
