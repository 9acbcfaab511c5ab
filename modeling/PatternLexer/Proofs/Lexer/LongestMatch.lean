import PatternLexer.Lexer.Run

/-! Maximal munch. The scan over the lengths of a word finds the longest beginning that some kind
accepts, and the search over the kinds finds the first one declared that accepts it. From this comes
what one call of `next` does in every state of a lexer: it takes a token, or changes nothing. -/

namespace PatternLexer

/-! ### Characters outside an alphabet -/

namespace Alphabet

variable {alphabet : Alphabet} {text : Text} {c : Char}

theorem firstForeign?_eq_none_iff :
    alphabet.firstForeign? text = none ↔ ∀ c ∈ text, c ∈ alphabet := by
  simp [firstForeign?, List.find?_eq_none]

theorem firstForeign?_eq_some_iff : alphabet.firstForeign? text = some c ↔
    c ∉ alphabet ∧ ∃ before behind, text = before ++ c :: behind ∧ ∀ d ∈ before, d ∈ alphabet := by
  simp [firstForeign?, List.find?_eq_some_iff_append]

end Alphabet

namespace Lexer

variable {recognizers : Catalog (Text → Bool)} {word text : Text} {kind : String} {n length : Nat}
  {lexer final : Lexer} {candidate : Candidate} {rest : List Candidate} {error : Error}

/-! ### What is to be found -/

/-- Some kind accepts the word. -/
def Accepted (recognizers : Catalog (Text → Bool)) (word : Text) : Prop :=
  ∃ entry ∈ recognizers.entries, entry.2 word = true

/-- The kind accepts the word, and none declared before it does. -/
def FirstAccepting (recognizers : Catalog (Text → Bool)) (word : Text) (kind : String) : Prop :=
  ∃ before accepts behind, recognizers.entries = before ++ (kind, accepts) :: behind ∧
    accepts word = true ∧ ∀ entry ∈ before, entry.2 word = false

/-- The greatest length of an accepted beginning of the word that is not empty. -/
structure IsLongest (recognizers : Catalog (Text → Bool)) (word : Text) (length : Nat) : Prop where
  pos : 0 < length
  le : length ≤ word.length
  accepted : Accepted recognizers (word.take length)
  longest : ∀ m, length < m → m ≤ word.length → ¬ Accepted recognizers (word.take m)

/-! ### The first kind -/

theorem kindOf?_eq_none_iff : kindOf? recognizers word = none ↔ ¬ Accepted recognizers word := by
  simp [kindOf?, Accepted, List.find?_eq_none]

theorem kindOf?_eq_some_iff :
    kindOf? recognizers word = some kind ↔ FirstAccepting recognizers word kind := by
  unfold kindOf? FirstAccepting
  rw [Option.map_eq_some_iff]
  constructor
  · rintro ⟨⟨name, accepts⟩, hfind, rfl⟩
    obtain ⟨haccepts, before, behind, hentries, hbefore⟩ := List.find?_eq_some_iff_append.1 hfind
    exact ⟨before, accepts, behind, hentries, haccepts, by simpa using hbefore⟩
  · rintro ⟨before, accepts, behind, hentries, haccepts, hbefore⟩
    refine ⟨(kind, accepts), List.find?_eq_some_iff_append.2 ?_, rfl⟩
    exact ⟨haccepts, before, behind, hentries, by simpa using hbefore⟩

/-! ### The longest beginning -/

theorem not_accepted_of_longestWithin_eq_none (h : longestWithin recognizers word n = none) :
    ∀ m, 0 < m → m ≤ n → ¬ Accepted recognizers (word.take m) := by
  induction n with
  | zero =>
    intro m hpos hle
    omega
  | succ n ih =>
    unfold longestWithin at h
    split at h
    · exact nomatch h
    · rename_i hkind
      intro m hpos hle
      rcases Nat.lt_or_eq_of_le hle with hlt | rfl
      · exact ih h m hpos (Nat.le_of_lt_succ hlt)
      · exact kindOf?_eq_none_iff.1 hkind

theorem firstAccepting_of_longestWithin_eq_some
    (h : longestWithin recognizers word n = some (kind, length)) :
    FirstAccepting recognizers (word.take length) kind ∧
      ∀ m, length < m → m ≤ n → ¬ Accepted recognizers (word.take m) := by
  induction n with
  | zero => exact nomatch h
  | succ n ih =>
    unfold longestWithin at h
    split at h
    · rename_i hkind
      obtain ⟨rfl, rfl⟩ := Prod.mk.inj (Option.some.inj h)
      refine ⟨kindOf?_eq_some_iff.1 hkind, fun m hlt hle => ?_⟩
      omega
    · rename_i hkind
      obtain ⟨hfirst, hlongest⟩ := ih h
      refine ⟨hfirst, fun m hlt hle => ?_⟩
      rcases Nat.lt_or_eq_of_le hle with hle | rfl
      · exact hlongest m hlt (Nat.le_of_lt_succ hle)
      · exact kindOf?_eq_none_iff.1 hkind

theorem FirstAccepting.accepted (h : FirstAccepting recognizers word kind) :
    Accepted recognizers word := by
  obtain ⟨before, accepts, behind, hentries, haccepts, -⟩ := h
  exact ⟨(kind, accepts), by simp [hentries], haccepts⟩

theorem isLongest_of_longestWithin_eq_some
    (h : longestWithin recognizers word word.length = some (kind, length)) :
    IsLongest recognizers word length := by
  obtain ⟨hpos, hle⟩ := longestWithin_bounds h
  obtain ⟨hfirst, hlongest⟩ := firstAccepting_of_longestWithin_eq_some h
  exact ⟨hpos, hle, hfirst.accepted, hlongest⟩

theorem IsLongest.eq (h : IsLongest recognizers word length) (k : IsLongest recognizers word n) :
    length = n := by
  rcases Nat.lt_trichotomy length n with hlt | heq | hgt
  · exact absurd k.accepted (h.longest n hlt k.le)
  · exact heq
  · exact absurd h.accepted (k.longest length hgt h.le)

/-- The scan from the whole word downwards stops at the longest beginning, if there is one. -/
theorem IsLongest.longestWithin_eq (h : IsLongest recognizers word length) :
    ∃ kind, FirstAccepting recognizers (word.take length) kind ∧
      longestWithin recognizers word word.length = some (kind, length) := by
  cases hscan : longestWithin recognizers word word.length with
  | none =>
    have hnone := not_accepted_of_longestWithin_eq_none hscan length h.pos h.le
    exact absurd h.accepted hnone
  | some found =>
    obtain ⟨kind, n⟩ := found
    obtain rfl := h.eq (isLongest_of_longestWithin_eq_some hscan)
    exact ⟨kind, (firstAccepting_of_longestWithin_eq_some hscan).1, rfl⟩

theorem longestWithin_eq_none_of_not_isLongest (h : ∀ n, ¬ IsLongest recognizers word n) :
    longestWithin recognizers word word.length = none := by
  cases hscan : longestWithin recognizers word word.length with
  | none => rfl
  | some found => exact absurd (isLongest_of_longestWithin_eq_some hscan) (h found.2)

/-! ### One call -/

theorem next_of_pending_eq_nil (h : lexer.pending = []) :
    lexer.next = (.error ⟨.endOfInput, none⟩, lexer) := by
  unfold next
  rw [h]

theorem next_of_longestMatch_eq_error {reason : Reason}
    (hpending : lexer.pending = candidate :: rest)
    (h : lexer.longestMatch candidate.text = .error reason) :
    lexer.next =
      (.error ⟨.invalidToken candidate.text reason, some candidate.position⟩, lexer) := by
  unfold next
  rw [hpending]
  simp only [h]

theorem next_of_longestMatch_eq_ok (hpending : lexer.pending = candidate :: rest)
    (h : lexer.longestMatch candidate.text = .ok (kind, length)) :
    lexer.next =
      (.ok ⟨kind, candidate.text.take length, candidate.position⟩,
        { lexer with pending := remainder candidate length ++ rest }) := by
  unfold next
  rw [hpending]
  simp only [h]

/-- A foreign character leaves no match, whatever the kinds accept. -/
theorem longestMatch_of_foreign {c : Char} (h : lexer.alphabet.firstForeign? word = some c) :
    lexer.longestMatch word = .error (.outOfAlphabet c) := by
  unfold longestMatch
  rw [h]

theorem longestMatch_of_isLongest (hword : ∀ c ∈ word, c ∈ lexer.alphabet)
    (h : IsLongest lexer.recognizers word length) :
    ∃ kind, FirstAccepting lexer.recognizers (word.take length) kind ∧
      lexer.longestMatch word = .ok (kind, length) := by
  obtain ⟨kind, hfirst, hscan⟩ := h.longestWithin_eq
  refine ⟨kind, hfirst, ?_⟩
  unfold longestMatch
  rw [Alphabet.firstForeign?_eq_none_iff.2 hword, hscan]

theorem longestMatch_of_not_isLongest (hword : ∀ c ∈ word, c ∈ lexer.alphabet)
    (h : ∀ n, ¬ IsLongest lexer.recognizers word n) :
    lexer.longestMatch word = .error .noMatch := by
  unfold longestMatch
  rw [Alphabet.firstForeign?_eq_none_iff.2 hword, longestWithin_eq_none_of_not_isLongest h]

theorem remainder_append (candidate : Candidate) (length : Nat) (rest : List Candidate) :
    remainder candidate length ++ rest =
      if candidate.text.drop length = [] then rest
      else ⟨candidate.text.drop length, candidate.position.advanced length⟩ :: rest := by
  unfold remainder
  split
  · rename_i hdrop
    rw [if_pos hdrop]
    rfl
  · rename_i hdrop
    rw [if_neg hdrop]
    rfl

/-- An error comes back as often as the call is repeated. -/
theorem run_replicate_next (h : lexer.next = (.error error, lexer)) (k : Nat) :
    lexer.run (.replicate k .next) = (.replicate k (.next (.error error)), lexer) := by
  induction k with
  | zero => rfl
  | succ k ih => simp only [List.replicate_succ, run, perform, h, ih]

/-- A call takes the longest accepted beginning of the front candidate, under the first kind
declared that accepts it, and leaves what is behind it in front, if anything is. A foreign character
is reported before any kind is asked. Without a token the lexer stays as it is, and the error comes
back on every further call. -/
theorem next_takes_longest (lexer : Lexer) :
    (lexer.pending = [] → lexer.next = (.error ⟨.endOfInput, none⟩, lexer)) ∧
    (∀ text position rest, lexer.pending = ⟨text, position⟩ :: rest →
      ((∃ c ∈ text, c ∉ lexer.alphabet) →
        ∃ before c behind, text = before ++ c :: behind ∧ c ∉ lexer.alphabet ∧
          (∀ d ∈ before, d ∈ lexer.alphabet) ∧
          lexer.next = (.error ⟨.invalidToken text (.outOfAlphabet c), some position⟩, lexer)) ∧
      ((∀ c ∈ text, c ∈ lexer.alphabet) →
        (∀ n, IsLongest lexer.recognizers text n →
          ∃ kind, FirstAccepting lexer.recognizers (text.take n) kind ∧
            lexer.next = (.ok ⟨kind, text.take n, position⟩,
              { lexer with pending :=
                  if text.drop n = [] then rest
                  else ⟨text.drop n, position.advanced n⟩ :: rest })) ∧
        ((∀ n, ¬ IsLongest lexer.recognizers text n) →
          lexer.next = (.error ⟨.invalidToken text .noMatch, some position⟩, lexer)))) ∧
    ∀ error final, lexer.next = (.error error, final) →
      final = lexer ∧
        ∀ k, lexer.run (.replicate k .next) = (.replicate k (.next (.error error)), lexer) := by
  refine ⟨next_of_pending_eq_nil, ?_, ?_⟩
  · intro text position rest hpending
    refine ⟨?_, fun hplain => ⟨?_, ?_⟩⟩
    · rintro ⟨d, hd, hforeign⟩
      cases hfirst : lexer.alphabet.firstForeign? text with
      | none => exact absurd (Alphabet.firstForeign?_eq_none_iff.1 hfirst d hd) hforeign
      | some c =>
        obtain ⟨hc, before, behind, htext, hbefore⟩ := Alphabet.firstForeign?_eq_some_iff.1 hfirst
        have hmatch := longestMatch_of_foreign hfirst
        exact ⟨before, c, behind, htext, hc, hbefore, next_of_longestMatch_eq_error hpending hmatch⟩
    · intro n hlongest
      obtain ⟨kind, hfirst, hmatch⟩ := longestMatch_of_isLongest hplain hlongest
      refine ⟨kind, hfirst, ?_⟩
      rw [next_of_longestMatch_eq_ok hpending hmatch, remainder_append]
    · intro hnone
      exact next_of_longestMatch_eq_error hpending (longestMatch_of_not_isLongest hplain hnone)
  · intro error final h
    obtain rfl := eq_of_next_eq_error h
    exact ⟨rfl, run_replicate_next h⟩

/-- Two kinds accept the longest beginning and one accepts a shorter one: the token is the longest,
of the kind declared first, and what is left behind it is refused for good. -/
theorem next_takes_longest_tie :
    let kinds : Catalog (Text → Bool) := .ofList [("short", fun word => word = ['a']),
      ("first", fun word => word = ['a', 'a', 'b']), ("second", fun word => word = ['a', 'a', 'b'])]
    let lexer : Lexer := ⟨.ofText ['a', 'b'], kinds, [⟨['a', 'a', 'b', 'b'], ⟨1, 1⟩⟩]⟩
    let behind : Lexer := { lexer with pending := [⟨['b'], ⟨1, 4⟩⟩] }
    IsLongest kinds ['a', 'a', 'b', 'b'] 3 ∧
      lexer.next = (.ok ⟨"first", ['a', 'a', 'b'], ⟨1, 1⟩⟩, behind) ∧
      (∀ n, ¬ IsLongest kinds ['b'] n) ∧
      behind.next = (.error ⟨.invalidToken ['b'] .noMatch, some ⟨1, 4⟩⟩, behind) := by
  intro kinds lexer behind
  have hlongest : IsLongest kinds ['a', 'a', 'b', 'b'] 3 := by
    refine ⟨by decide, by decide, ⟨_, List.mem_cons_of_mem _ List.mem_cons_self, rfl⟩, ?_⟩
    intro m hlt hle
    obtain rfl : m = 4 := Nat.le_antisymm hle hlt
    exact kindOf?_eq_none_iff.1 rfl
  have hnone : ∀ n, ¬ IsLongest kinds ['b'] n := by
    intro n h
    obtain rfl : n = 1 := Nat.le_antisymm h.le h.pos
    exact kindOf?_eq_none_iff.1 rfl h.accepted
  have hplain : ∀ c ∈ ['a', 'a', 'b', 'b'], c ∈ lexer.alphabet :=
    Alphabet.firstForeign?_eq_none_iff.1 rfl
  have hbehindPlain : ∀ c ∈ ['b'], c ∈ behind.alphabet := Alphabet.firstForeign?_eq_none_iff.1 rfl
  obtain ⟨-, hlexer, -⟩ := next_takes_longest lexer
  obtain ⟨-, hbehind, -⟩ := next_takes_longest behind
  obtain ⟨kind, hkind, hnext⟩ := ((hlexer _ _ _ rfl).2 hplain).1 3 hlongest
  obtain rfl : "first" = kind := Option.some.inj (kindOf?_eq_some_iff.2 hkind)
  exact ⟨hlongest, hnext, hnone, ((hbehind _ _ _ rfl).2 hbehindPlain).2 hnone⟩

end Lexer

end PatternLexer
