import PatternLexer.Proofs.Pattern.Escapes

/-! Where the reading of a pattern fails. The reader takes a backslash and the character behind it
in one step and never looks back, so wherever it looks for the meaning of a character an even number
of backslashes stands before it. It stops at the first character there that has none, and otherwise
fails only when a backslash is left over at the end. -/

namespace PatternLexer.Pattern

variable {alphabet : Alphabet} {markers : Markers} {pattern before rest : Text} {c : Char}
  {i : Nat} {result : Except Error (List Placed)}

/-! ### Characters without a meaning -/

/-- The character is not reserved, is neither marker and is not in the alphabet. -/
def Meaningless (alphabet : Alphabet) (markers : Markers) (c : Char) : Prop :=
  c ∉ ['\\', '*', '&', '|', '(', ')'] ∧ c ≠ markers.epsilon ∧ c ≠ markers.empty ∧ c ∉ alphabet

instance : Decidable (Meaningless alphabet markers c) := inferInstanceAs (Decidable (_ ∧ _))

/-- At the position stands a character without a meaning, and it is not escaped. -/
def UnknownAt (alphabet : Alphabet) (markers : Markers) (pattern : Text) (i : Nat) (c : Char) :
    Prop :=
  pattern[i]? = some c ∧ isEscaped pattern i = false ∧ Meaningless alphabet markers c

instance : Decidable (UnknownAt alphabet markers pattern i c) :=
  inferInstanceAs (Decidable (_ ∧ _))

theorem reserved?_eq_none_iff : Token.reserved? c = none ↔ c ∉ ['*', '&', '|', '(', ')'] := by
  unfold Token.reserved?
  split <;> simp_all

theorem classify?_eq_none_iff (hc : c ≠ '\\') :
    classify? alphabet markers c = none ↔ Meaningless alphabet markers c := by
  unfold classify? Meaningless
  rw [List.mem_cons, not_or, ← reserved?_eq_none_iff]
  cases Token.reserved? c with
  | some token => simp
  | none => split_ifs <;> simp_all

/-! ### From a position on -/

/-- What a result says of the pattern from the position on where the reading began. -/
def TellsFrom (alphabet : Alphabet) (markers : Markers) (pattern : Text) (i : Nat) :
    Except Error (List Placed) → Prop
  | .ok _ => (∀ j, i ≤ j → ∀ c, ¬ UnknownAt alphabet markers pattern j c) ∧ Whole pattern
  | .error .escapedNothing =>
    (∀ j, i ≤ j → ∀ c, ¬ UnknownAt alphabet markers pattern j c) ∧ ¬ Whole pattern
  | .error (.unknownSymbol c k) => UnknownAt alphabet markers pattern k c ∧
    ∀ j, i ≤ j → j < k → ∀ d, ¬ UnknownAt alphabet markers pattern j d
  | .error _ => False

/-- One token more in front says nothing else. -/
theorem TellsFrom.cons (h : TellsFrom alphabet markers pattern i result) (t : Placed) :
    TellsFrom alphabet markers pattern i (do return t :: (← result)) := by
  cases result with
  | ok tokens => exact h
  | error error => exact h

/-- The reading may as well have begun at a character before that is known or escaped. -/
theorem TellsFrom.back (h : TellsFrom alphabet markers pattern (i + 1) result)
    (hi : ∀ c, ¬ UnknownAt alphabet markers pattern i c) :
    TellsFrom alphabet markers pattern i result := by
  have hback {P : Nat → Prop} (hP : ∀ j, i + 1 ≤ j → P j) (hi : P i) : ∀ j, i ≤ j → P j := by
    intro j hj
    rcases Nat.eq_or_lt_of_le hj with rfl | hlt
    · exact hi
    · exact hP j hlt
  match result, h with
  | .ok _, ⟨hknown, hwhole⟩ => exact ⟨hback hknown hi, hwhole⟩
  | .error .escapedNothing, ⟨hknown, hwhole⟩ => exact ⟨hback hknown hi, hwhole⟩
  | .error (.unknownSymbol _ _), ⟨hunknown, hfirst⟩ =>
    exact ⟨hunknown, hback hfirst fun _ => hi⟩

/-! ### The whole reading -/

theorem not_unknownAt_of_length_le (h : pattern.length ≤ i) (c : Char) :
    ¬ UnknownAt alphabet markers pattern i c := by
  rintro ⟨hget, -⟩
  rw [List.getElem?_eq_none h] at hget
  exact nomatch hget

theorem not_unknownAt_of_isEscaped (h : isEscaped pattern i = true) (c : Char) :
    ¬ UnknownAt alphabet markers pattern i c := by
  rintro ⟨-, hplain, -⟩
  exact nomatch h.symm.trans hplain

theorem not_unknownAt_backslash (h : pattern[i]? = some '\\') (c : Char) :
    ¬ UnknownAt alphabet markers pattern i c := by
  rintro ⟨hget, -, hc⟩
  obtain rfl := Option.some.inj (h.symm.trans hget)
  simp [Meaningless] at hc

/-- What a character in the middle of a pattern is depends on itself where no escape is open. -/
theorem Whole.unknownAt_iff (h : Whole before) (c d : Char) (rest : Text) :
    UnknownAt alphabet markers (before ++ c :: rest) before.length d ↔
      c = d ∧ Meaningless alphabet markers d := by
  simp [UnknownAt, h.isEscaped_eq]

theorem Whole.not_whole_backslash (h : Whole before) : ¬ Whole (before ++ ['\\']) := by
  unfold Whole at h ⊢
  rw [trailingBackslashes_snoc, if_pos rfl]
  omega

/-- Behind a part in which no escape is open, the reader finds what the pattern shows. -/
theorem tellsFrom_tokensFrom (hbefore : Whole before) : TellsFrom alphabet markers (before ++ rest)
    before.length (tokensFrom alphabet markers before.length rest) := by
  generalize hposition : before.length = position
  fun_induction tokensFrom alphabet markers position rest generalizing before with
  | case1 position =>
    rw [List.append_nil]
    exact ⟨fun j hj => not_unknownAt_of_length_le (hposition ▸ hj), hbefore⟩
  | case2 position =>
    subst hposition
    refine ⟨fun j hj d => ?_, hbefore.not_whole_backslash⟩
    rcases Nat.eq_or_lt_of_le hj with rfl | hlt
    · exact not_unknownAt_backslash (by simp) d
    · exact not_unknownAt_of_length_le (by simpa using Nat.succ_le_of_lt hlt) d
  | case3 position c rest ih =>
    subst hposition
    have hrest := ih (hbefore.escape c) (by simp)
    rw [List.append_assoc] at hrest
    refine TellsFrom.cons (.back (.back hrest fun d => ?_) fun d => ?_) _
    · exact not_unknownAt_of_isEscaped (hbefore.isEscaped_succ (c :: rest)) d
    · exact not_unknownAt_backslash (by simp) d
  | case4 position c rest hlast hescape hclass =>
    subst hposition
    have hc := ne_backslash_of_plain hlast hescape
    refine ⟨(hbefore.unknownAt_iff c c rest).2 ⟨rfl, (classify?_eq_none_iff hc).1 hclass⟩, ?_⟩
    intro j hle hlt
    omega
  | case5 position c rest hlast hescape token hclass ih =>
    subst hposition
    have hc := ne_backslash_of_plain hlast hescape
    have hlength : (before ++ [c]).length = before.length + 1 := by simp
    have hrest := ih (whole_snoc hc) hlength
    rw [List.append_assoc] at hrest
    refine TellsFrom.cons (.back hrest fun d => ?_) _
    rw [List.singleton_append, hbefore.unknownAt_iff]
    rintro ⟨rfl, hd⟩
    rw [(classify?_eq_none_iff hc).2 hd] at hclass
    cases hclass

theorem tellsFrom_tokenize (alphabet : Alphabet) (markers : Markers) (pattern : Text) :
    TellsFrom alphabet markers pattern 0 (tokenize alphabet markers pattern) :=
  tellsFrom_tokensFrom whole_nil

/-- Nothing is refused before parsing but characters without a meaning. -/
theorem tokenize_eq_error {error : Error} (h : tokenize alphabet markers pattern = .error error) :
    error = .escapedNothing ∨ ∃ c i, error = .unknownSymbol c i := by
  have htells := tellsFrom_tokenize alphabet markers pattern
  rw [h] at htells
  match error, htells with
  | .escapedNothing, _ => exact .inl rfl
  | .unknownSymbol c i, _ => exact .inr ⟨c, i, rfl⟩

/-- A pattern is refused for a character exactly when this is the first that means nothing and is
not escaped, at its position. It is refused for its end exactly when there is no such character and
it ends in an odd number of backslashes. Every other pattern is read. -/
theorem tokenize_fails_iff (alphabet : Alphabet) (markers : Markers) (pattern : Text) :
    (∀ c i, tokenize alphabet markers pattern = .error (.unknownSymbol c i) ↔
      UnknownAt alphabet markers pattern i c ∧
        ∀ j < i, ∀ d, ¬ UnknownAt alphabet markers pattern j d) ∧
    (tokenize alphabet markers pattern = .error .escapedNothing ↔
      (∀ i c, ¬ UnknownAt alphabet markers pattern i c) ∧ trailingBackslashes pattern % 2 = 1) ∧
    ((∃ tokens, tokenize alphabet markers pattern = .ok tokens) ↔
      (∀ i c, ¬ UnknownAt alphabet markers pattern i c) ∧
        trailingBackslashes pattern % 2 = 0) := by
  have htells := tellsFrom_tokenize alphabet markers pattern
  generalize tokenize alphabet markers pattern = result at htells ⊢
  match result, htells with
  | .ok tokens, ⟨hknown, hwhole⟩ =>
    have hknown : ∀ i c, ¬ UnknownAt alphabet markers pattern i c := fun i =>
      hknown i (Nat.zero_le i)
    refine ⟨fun c i => iff_of_false nofun fun h => hknown i c h.1, iff_of_false nofun fun h => ?_,
      iff_of_true ⟨tokens, rfl⟩ ⟨hknown, hwhole⟩⟩
    exact nomatch hwhole.symm.trans h.2
  | .error .escapedNothing, ⟨hknown, hopen⟩ =>
    have hknown : ∀ i c, ¬ UnknownAt alphabet markers pattern i c := fun i =>
      hknown i (Nat.zero_le i)
    refine ⟨fun c i => iff_of_false nofun fun h => hknown i c h.1,
      iff_of_true rfl ⟨hknown, Nat.mod_two_ne_zero.1 hopen⟩, iff_of_false nofun fun h => hopen h.2⟩
  | .error (.unknownSymbol c i), ⟨hunknown, hfirst⟩ =>
    have hfirst : ∀ j < i, ∀ d, ¬ UnknownAt alphabet markers pattern j d := fun j =>
      hfirst j (Nat.zero_le j)
    refine ⟨fun d k => ⟨?_, ?_⟩, iff_of_false nofun fun h => h.1 i c hunknown,
      iff_of_false nofun fun h => h.1 i c hunknown⟩
    · rintro ⟨⟩
      exact ⟨hunknown, hfirst⟩
    · rintro ⟨hd, hleast⟩
      obtain rfl : i = k := by
        rcases Nat.lt_trichotomy i k with hlt | heq | hgt
        · exact absurd hunknown (hleast i hlt c)
        · exact heq
        · exact absurd hd (hfirst k hgt d)
      obtain rfl : c = d := Option.some.inj (hunknown.1.symm.trans hd.1)
      rfl

/-- Two backslashes, an escaped character and the same character once more, which is unknown. That
the pattern ends in a backslash is not reported before it. -/
theorem tokenize_fails_iff_unknown :
    let pattern : Text := ['\\', '\\', '\\', '%', '%', '\\']
    UnknownAt (.ofText ['a']) {} pattern 4 '%' ∧
      (∀ j < 4, ∀ d, ¬ UnknownAt (.ofText ['a']) {} pattern j d) ∧
      tokenize (.ofText ['a']) {} pattern = .error (.unknownSymbol '%' 4) := by
  intro pattern
  have hunknown : UnknownAt (.ofText ['a']) {} pattern 4 '%' := by decide
  have hbefore : ∀ j < 4, isEscaped pattern j = true ∨ pattern[j]? = some '\\' := by decide
  have hfirst : ∀ j < 4, ∀ d, ¬ UnknownAt (.ofText ['a']) {} pattern j d := fun j hj =>
    (hbefore j hj).elim not_unknownAt_of_isEscaped not_unknownAt_backslash
  exact ⟨hunknown, hfirst, ((tokenize_fails_iff _ _ _).1 '%' 4).2 ⟨hunknown, hfirst⟩⟩

end PatternLexer.Pattern
