import Mathlib.Data.List.Perm.Basic
import PatternLexer.Proofs.Lexer.Coverage
import PatternLexer.Proofs.Lexer.LongestMatch

/-! Where a lexer cuts. The length of a match hangs on which words are accepted at all and not on
the kind that accepts them, so two lexers whose kinds accept the same words between them take the
same pieces off their sources, call by call. -/

namespace PatternLexer.Lexer

variable {lexer lexer' : Lexer} {recognizers recognizers' : Catalog (Text → Bool)} {word : Text}
  {n : Nat}

/-! ### Lexers that accept the same words -/

/-- The same outcome but for the kinds of tokens: equal pieces, equal errors. -/
inductive Outcome.SameCut : Outcome → Outcome → Prop
  | token {t u : Token} : t.piece = u.piece → SameCut (.next (.ok t)) (.next (.ok u))
  | error (error : Error) : SameCut (.next (.error error)) (.next (.error error))
  | skipped (candidate : Option Candidate) : SameCut (.skipped candidate) (.skipped candidate)
  | tokenized {ts us : List Token} (error : Option Error) :
    ts.map Token.piece = us.map Token.piece → SameCut (.tokenized ts error) (.tokenized us error)

/-- Whatever calls are made, the outcomes are the same but for the kinds of tokens, and the same
candidates are pending behind them. -/
def CutAlike (lexer lexer' : Lexer) : Prop :=
  ∀ calls, List.Forall₂ Outcome.SameCut (lexer.run calls).1 (lexer'.run calls).1 ∧
    (lexer.run calls).2.pending = (lexer'.run calls).2.pending

/-- The same candidates are pending, and of the words over the common alphabet each is accepted by
some kind of both or of neither. -/
structure Agree (lexer lexer' : Lexer) : Prop where
  alphabet : lexer.alphabet = lexer'.alphabet
  pending : lexer.pending = lexer'.pending
  accepted : ∀ word, word ≠ [] → (∀ c ∈ word, c ∈ lexer.alphabet) →
    (Accepted lexer.recognizers word ↔ Accepted lexer'.recognizers word)

theorem Agree.symm (h : Agree lexer lexer') : Agree lexer' lexer where
  alphabet := h.alphabet.symm
  pending := h.pending.symm
  accepted word hne hword := (h.accepted word hne (h.alphabet ▸ hword)).symm

theorem Agree.with_pending (h : Agree lexer lexer') (pending : List Candidate) :
    Agree { lexer with pending := pending } { lexer' with pending := pending } :=
  ⟨h.alphabet, rfl, h.accepted⟩

/-! ### One match -/

theorem IsLongest.congr (h : IsLongest recognizers word n)
    (haccepted : ∀ m, 0 < m → m ≤ word.length →
      (Accepted recognizers (word.take m) ↔ Accepted recognizers' (word.take m))) :
    IsLongest recognizers' word n where
  pos := h.pos
  le := h.le
  accepted := (haccepted n h.pos h.le).1 h.accepted
  longest m hlt hle haccept :=
    h.longest m hlt hle ((haccepted m (Nat.zero_lt_of_lt hlt) hle).2 haccept)

/-- All beginnings of a word over the alphabet are words over the alphabet. -/
theorem Agree.isLongest (h : Agree lexer lexer') (hword : ∀ c ∈ word, c ∈ lexer.alphabet)
    (hlongest : IsLongest lexer.recognizers word n) : IsLongest lexer'.recognizers word n := by
  refine hlongest.congr fun m hpos hle => h.accepted _ ?_ fun c hc => ?_
  · apply List.ne_nil_of_length_pos
    rw [List.length_take]
    omega
  · exact hword c (List.mem_of_mem_take hc)

/-- Both find a match of the same length, or none for the same reason. -/
theorem Agree.longestMatch (h : Agree lexer lexer') (word : Text) :
    (lexer.longestMatch word).map Prod.snd = (lexer'.longestMatch word).map Prod.snd := by
  cases hforeign : lexer.alphabet.firstForeign? word with
  | some c =>
    rw [longestMatch_of_foreign hforeign, longestMatch_of_foreign (h.alphabet ▸ hforeign)]
  | none =>
    have hword := Alphabet.firstForeign?_eq_none_iff.1 hforeign
    have hword' : ∀ c ∈ word, c ∈ lexer'.alphabet := h.alphabet ▸ hword
    by_cases hexists : ∃ n, IsLongest lexer.recognizers word n
    · obtain ⟨n, hlongest⟩ := hexists
      obtain ⟨kind, -, hmatch⟩ := longestMatch_of_isLongest hword hlongest
      obtain ⟨kind', -, hmatch'⟩ := longestMatch_of_isLongest hword' (h.isLongest hword hlongest)
      rw [hmatch, hmatch']
      rfl
    · have hnone : ∀ n, ¬ IsLongest lexer.recognizers word n := not_exists.1 hexists
      have hnone' : ∀ n, ¬ IsLongest lexer'.recognizers word n := fun n hlongest =>
        hnone n (h.symm.isLongest hword' hlongest)
      rw [longestMatch_of_not_isLongest hword hnone, longestMatch_of_not_isLongest hword' hnone']

/-! ### One call -/

/-- A call of `next` yields tokens that are the same piece, or the same error. -/
theorem Agree.next (h : Agree lexer lexer') :
    (∃ token token' rest rest', lexer.next = (.ok token, rest) ∧ lexer'.next = (.ok token', rest') ∧
      token.piece = token'.piece ∧ Agree rest rest') ∨
    ∃ error, lexer.next = (.error error, lexer) ∧ lexer'.next = (.error error, lexer') := by
  cases hpending : lexer.pending with
  | nil =>
    have hpending' : lexer'.pending = [] := h.pending ▸ hpending
    exact .inr ⟨_, next_of_pending_eq_nil hpending, next_of_pending_eq_nil hpending'⟩
  | cons candidate rest =>
    have hpending' : lexer'.pending = candidate :: rest := h.pending ▸ hpending
    have hmatches := h.longestMatch candidate.text
    cases hmatch : lexer.longestMatch candidate.text with
    | error reason =>
      cases hmatch' : lexer'.longestMatch candidate.text with
      | ok found => simp [hmatch, hmatch', Except.map] at hmatches
      | error reason' =>
        obtain rfl : reason = reason' := by simpa [hmatch, hmatch', Except.map] using hmatches
        exact .inr ⟨_, next_of_longestMatch_eq_error hpending hmatch,
          next_of_longestMatch_eq_error hpending' hmatch'⟩
    | ok found =>
      obtain ⟨kind, length⟩ := found
      cases hmatch' : lexer'.longestMatch candidate.text with
      | error reason => simp [hmatch, hmatch', Except.map] at hmatches
      | ok found' =>
        obtain ⟨kind', length'⟩ := found'
        obtain rfl : length = length' := by simpa [hmatch, hmatch', Except.map] using hmatches
        exact .inl ⟨_, _, _, _, next_of_longestMatch_eq_ok hpending hmatch,
          next_of_longestMatch_eq_ok hpending' hmatch', rfl, h.with_pending _⟩

theorem Agree.tokenize (h : Agree lexer lexer') :
    lexer.tokenize.1.1.map Token.piece = lexer'.tokenize.1.1.map Token.piece ∧
      lexer.tokenize.1.2 = lexer'.tokenize.1.2 ∧ Agree lexer.tokenize.2 lexer'.tokenize.2 := by
  induction lexer using Lexer.tokenize.induct generalizing lexer' with
  | case1 lexer token rest hnext _ _ _ _ ih =>
    rcases h.next with ⟨_, token', _, rest', hok, hok', hpiece, hrest⟩ | ⟨error, herror, -⟩
    · obtain ⟨htoken, rfl⟩ := Prod.mk.inj (hnext.symm.trans hok)
      cases htoken
      obtain ⟨hpieces, herrors, hfinal⟩ := ih hrest
      rw [tokenize_of_next_eq_ok hnext, tokenize_of_next_eq_ok hok', List.map_cons, List.map_cons,
        hpiece, hpieces]
      exact ⟨rfl, herrors, hfinal⟩
    · cases hnext.symm.trans herror
  | case2 lexer error rest hnext =>
    rcases h.next with ⟨token, _, _, _, hok, -⟩ | ⟨error', herror, herror'⟩
    · cases hnext.symm.trans hok
    · rw [tokenize_of_next_eq_error herror, tokenize_of_next_eq_error herror']
      exact ⟨rfl, rfl, h⟩

theorem Agree.perform (h : Agree lexer lexer') (call : Call) :
    (lexer.perform call).1.SameCut (lexer'.perform call).1 ∧
      Agree (lexer.perform call).2 (lexer'.perform call).2 := by
  cases call with
  | next =>
    unfold Lexer.perform
    rcases h.next with ⟨_, _, _, _, hok, hok', hpiece, hrest⟩ | ⟨error, herror, herror'⟩
    · rw [hok, hok']
      exact ⟨.token hpiece, hrest⟩
    · rw [herror, herror']
      exact ⟨.error error, h⟩
  | skip =>
    have hskipped : lexer.skip.1 = lexer'.skip.1 := congrArg List.head? h.pending
    refine ⟨?_, h.alphabet, congrArg List.tail h.pending, h.accepted⟩
    show Outcome.SameCut (.skipped lexer.skip.1) (.skipped lexer'.skip.1)
    rw [hskipped]
    exact .skipped _
  | tokenize =>
    obtain ⟨hpieces, herrors, hfinal⟩ := h.tokenize
    refine ⟨?_, hfinal⟩
    show Outcome.SameCut (.tokenized lexer.tokenize.1.1 lexer.tokenize.1.2)
      (.tokenized lexer'.tokenize.1.1 lexer'.tokenize.1.2)
    rw [herrors]
    exact .tokenized _ hpieces

/-! ### All calls -/

theorem Agree.cutAlike (h : Agree lexer lexer') : CutAlike lexer lexer' := by
  intro calls
  induction calls generalizing lexer lexer' with
  | nil => exact ⟨.nil, h.pending⟩
  | cons call calls ih =>
    obtain ⟨hcut, hagree⟩ := h.perform call
    obtain ⟨hcuts, hpending⟩ := ih hagree
    exact ⟨.cons hcut hcuts, hpending⟩

variable {alphabet : Alphabet} {kinds kinds' : List (String × (Text → Bool))}

theorem cutAlike_of_accepted (source : Text) (hkinds : (kinds.map Prod.fst).Nodup)
    (hkinds' : (kinds'.map Prod.fst).Nodup)
    (h : ∀ word, word ≠ [] → (∀ c ∈ word, c ∈ alphabet) →
      ((∃ kind ∈ kinds, kind.2 word = true) ↔ ∃ kind ∈ kinds', kind.2 word = true)) :
    CutAlike (ofRecognizers alphabet kinds source) (ofRecognizers alphabet kinds' source) := by
  refine Agree.cutAlike ⟨rfl, rfl, fun word hne hword => ?_⟩
  unfold Accepted ofRecognizers
  rw [Catalog.entries_ofList hkinds, Catalog.entries_ofList hkinds']
  exact h word hne hword

/-- Two lexers whose kinds accept the same words over the alphabet, taken together, cut a source at
the same places and fail at the same ones. So it does not matter in which order kinds are declared,
nor whether one is that accepts only what some other does. -/
theorem run_cuts_alike (alphabet : Alphabet) (source : Text) :
    (∀ kinds kinds' : List (String × (Text → Bool)),
      (kinds.map Prod.fst).Nodup → (kinds'.map Prod.fst).Nodup →
      (∀ word, word ≠ [] → (∀ c ∈ word, c ∈ alphabet) →
        ((∃ kind ∈ kinds, kind.2 word = true) ↔ ∃ kind ∈ kinds', kind.2 word = true)) →
      CutAlike (ofRecognizers alphabet kinds source) (ofRecognizers alphabet kinds' source)) ∧
    (∀ kinds kinds' : List (String × (Text → Bool)),
      (kinds.map Prod.fst).Nodup → kinds.Perm kinds' →
      CutAlike (ofRecognizers alphabet kinds source) (ofRecognizers alphabet kinds' source)) ∧
    ∀ (before behind : List (String × (Text → Bool))) (name : String) (accepts : Text → Bool),
      ((before ++ (name, accepts) :: behind).map Prod.fst).Nodup →
      (∀ word, word ≠ [] → (∀ c ∈ word, c ∈ alphabet) → accepts word = true →
        ∃ kind ∈ before ++ behind, kind.2 word = true) →
      CutAlike (ofRecognizers alphabet (before ++ (name, accepts) :: behind) source)
        (ofRecognizers alphabet (before ++ behind) source) := by
  refine ⟨fun kinds kinds' hkinds hkinds' h => cutAlike_of_accepted source hkinds hkinds' h, ?_, ?_⟩
  · intro kinds kinds' hkinds hperm
    have hkinds' := (hperm.map Prod.fst).nodup_iff.1 hkinds
    exact cutAlike_of_accepted source hkinds hkinds' fun word _ _ => by simp [hperm.mem_iff]
  · intro before behind name accepts hkinds hcovered
    have hsublist : (before ++ behind).Sublist (before ++ (name, accepts) :: behind) :=
      (List.sublist_cons_self _ behind).append_left before
    refine cutAlike_of_accepted source hkinds (hkinds.sublist (hsublist.map Prod.fst)) ?_
    intro word hne hword
    constructor
    · rintro ⟨kind, hkind, haccept⟩
      rcases List.mem_append.1 hkind with hkind | hkind
      · exact ⟨kind, List.mem_append_left _ hkind, haccept⟩
      · rcases List.mem_cons.1 hkind with rfl | hkind
        · exact hcovered word hne hword haccept
        · exact ⟨kind, List.mem_append_right _ hkind, haccept⟩
    · rintro ⟨kind, hkind, haccept⟩
      exact ⟨kind, hsublist.subset hkind, haccept⟩

/-- Two kinds that accept one word each, against one kind that accepts both words and the empty one
besides; then the two kinds the other way round; then a kind more that accepts one of the words. -/
theorem run_cuts_alike_either :
    let alphabet : Alphabet := .ofText ['a', 'b']
    let short : String × (Text → Bool) := ("short", fun word => word = ['a'])
    let long : String × (Text → Bool) := ("long", fun word => word = ['a', 'b'])
    let either : String × (Text → Bool) :=
      ("either", fun word => word = [] || word = ['a'] || word = ['a', 'b'])
    let again : String × (Text → Bool) := ("again", fun word => word = ['a', 'b'])
    let source : Text := ['a', 'b', 'a', ' ', 'b', ' ', 'c']
    CutAlike (ofRecognizers alphabet [short, long] source)
      (ofRecognizers alphabet [either] source) ∧
    CutAlike (ofRecognizers alphabet [short, long] source)
      (ofRecognizers alphabet [long, short] source) ∧
    CutAlike (ofRecognizers alphabet [again, short, long] source)
      (ofRecognizers alphabet [short, long] source) := by
  intro alphabet short long either again source
  obtain ⟨haccepted, hperm, hcovered⟩ := run_cuts_alike alphabet source
  refine ⟨haccepted _ _ (by decide) (by decide) ?_, hperm _ _ (by decide) (.swap _ _ _),
    hcovered [] [short, long] "again" _ (by decide) ?_⟩
  · intro word hne _
    simp [short, long, either, hne]
  · intro word _ _ haccept
    exact ⟨long, by simp, haccept⟩

end PatternLexer.Lexer
