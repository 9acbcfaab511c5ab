import PatternLexer.Proofs.Pattern.Refusals

/-! What an error of the parser says about a pattern. Next to its operators the parser keeps the
groups that are open, as reading the parentheses alone does, so it fails at the same ones. No token
adds an operand that is not wanted, so none dangles; and nothing but parentheses leaves no
operand. -/

namespace PatternLexer.Pattern

variable {alphabet : Alphabet} {markers : Markers} {pattern : Text} {op : Operator}
  {position : Nat} {due : Operator → Bool} {frames frames' : List Frame}
  {operands operands' : List Tree} {p q : Parser} {t : Placed} {tokens : List Placed}
  {error : Error}

/-! ### Failure of an operation -/

/-- Some operator is said to miss an operand. -/
def Error.IsMissing (error : Error) : Prop :=
  ∃ operator position, error = .missingOperand operator position

theorem reduce_isMissing (h : reduce op position operands = .error error) : error.IsMissing := by
  unfold reduce at h
  split at h
  · exact nomatch h
  · exact nomatch h
  · exact nomatch h
  · exact ⟨_, _, (Except.error.inj h).symm⟩

theorem unwind_isMissing (h : unwind due frames operands = .error error) : error.IsMissing := by
  induction frames generalizing operands with
  | nil => cases h
  | cons frame frames ih =>
    cases frame with
    | opening position => cases h
    | operator op position =>
      unfold unwind at h
      split at h
      · rcases bind_eq_error.1 h with hreduce | ⟨reduced, -, hrest⟩
        · exact reduce_isMissing hreduce
        · exact ih hrest
      · cases h

namespace Parser

theorem pushOperator_eq_error_iff : p.pushOperator op position = .error error ↔
    p.afterOperand = false ∧ error = .missingOperand op.char position ∨
    p.afterOperand = true ∧
      unwind (fun top => op.precedence ≤ top.precedence) p.frames p.operands = .error error := by
  unfold pushOperator
  cases p.afterOperand with
  | false => simp [eq_comm]
  | true =>
    simp only [if_true, reduceCtorEq, false_and, false_or, true_and, bind_eq_error]
    exact or_iff_left fun ⟨_, _, hpure⟩ => nomatch hpure

theorem closeGroup_eq_error_iff : p.closeGroup position = .error error ↔
    unwind (fun _ => true) p.frames p.operands = .error error ∨
    error = .unexpectedClosing position ∧
      ∃ operands, unwind (fun _ => true) p.frames p.operands = .ok ([], operands) := by
  unfold closeGroup
  rw [bind_eq_error]
  refine or_congr_right ⟨?_, ?_⟩
  · rintro ⟨⟨frames, operands⟩, hunwind, hclose⟩
    rcases unwind_all hunwind with rfl | ⟨opened, rest, rfl⟩
    · exact ⟨(Except.error.inj hclose).symm, operands, hunwind⟩
    · exact nomatch hclose
  · rintro ⟨rfl, operands, hunwind⟩
    exact ⟨_, hunwind, rfl⟩

end Parser

/-! ### Open groups -/

/-- The positions of the open groups, the innermost first. -/
def openings : List Frame → List Nat
  | [] => []
  | .opening position :: frames => position :: openings frames
  | .operator _ _ :: frames => openings frames

theorem openings_unwind (h : unwind due frames operands = .ok (frames', operands')) :
    openings frames' = openings frames :=
  unwind_induction (P := fun frames _ => openings frames' = openings frames) h rfl fun _ hrest =>
    hrest

namespace Parser

theorem track_step (h : p.step t = .ok q) :
    track (openings p.frames) t = .ok (openings q.frames) := by
  obtain ⟨position, token⟩ := t
  cases token with
  | operator op =>
    obtain ⟨-, frames, operands, hunwind, rfl⟩ := pushOperator_eq_ok_iff.1 h
    exact congrArg Except.ok (openings_unwind hunwind).symm
  | closing =>
    obtain ⟨opened, frames, operands, hunwind, rfl⟩ := closeGroup_eq_ok_iff.1 h
    rw [← openings_unwind hunwind]
    rfl
  | _ =>
    cases h
    rfl

/-- A step that misses no operand fails like the reading of parentheses. -/
theorem track_of_step_eq_error (h : p.step t = .error error) :
    error.IsMissing ∨
      ∃ i, error = .unexpectedClosing i ∧ track (openings p.frames) t = .error i := by
  obtain ⟨position, token⟩ := t
  cases token with
  | operator op =>
    left
    rcases pushOperator_eq_error_iff.1 h with ⟨-, rfl⟩ | ⟨-, hunwind⟩
    · exact ⟨_, _, rfl⟩
    · exact unwind_isMissing hunwind
  | closing =>
    rcases closeGroup_eq_error_iff.1 h with hunwind | ⟨rfl, operands, hunwind⟩
    · exact .inl (unwind_isMissing hunwind)
    · right
      refine ⟨position, rfl, ?_⟩
      rw [← openings_unwind hunwind]
      rfl
  | _ => exact nomatch h

/-! ### Runs -/

theorem track_run (h : tokens.foldlM step p = .ok q) :
    tokens.foldlM track (openings p.frames) = .ok (openings q.frames) := by
  induction tokens generalizing p with
  | nil =>
    cases h
    rfl
  | cons t tokens ih =>
    obtain ⟨r, hstep, hrest⟩ := run_cons_iff.1 h
    rw [List.foldlM_cons]
    exact bind_eq_ok.2 ⟨_, track_step hstep, ih hrest⟩

theorem track_of_run_eq_error (h : tokens.foldlM step p = .error error) :
    error.IsMissing ∨
      ∃ i, error = .unexpectedClosing i ∧ tokens.foldlM track (openings p.frames) = .error i := by
  induction tokens generalizing p with
  | nil => exact nomatch h
  | cons t tokens ih =>
    rw [List.foldlM_cons] at h ⊢
    rcases bind_eq_error.1 h with hstep | ⟨r, hstep, hrest⟩
    · rcases track_of_step_eq_error hstep with hmissing | ⟨i, rfl, htrack⟩
      · exact .inl hmissing
      · exact .inr ⟨i, rfl, bind_eq_error.2 (.inl htrack)⟩
    · rcases ih hrest with hmissing | ⟨i, rfl, htrack⟩
      · exact .inl hmissing
      · exact .inr ⟨i, rfl, bind_eq_error.2 (.inr ⟨_, track_step hstep, htrack⟩)⟩

/-- The parser holds no operand that is not wanted. -/
theorem length_operands_run_le (h : tokens.foldlM step p = .ok q)
    (hapart : Apart p.afterOperand tokens) (hp : p.operands.length ≤ p.wanted) :
    q.operands.length ≤ q.wanted := by
  induction tokens generalizing p with
  | nil =>
    cases h
    exact hp
  | cons t tokens ih =>
    obtain ⟨r, hstep, hrest⟩ := run_cons_iff.1 h
    obtain ⟨hstart, hbehind⟩ := hapart
    rw [← afterOperand_step hstep] at hbehind
    have hbalance := balance_step hstep hstart
    exact ih hrest hbehind (by omega)

/-! ### No operand at all -/

/-- Nothing but open groups is on the stacks. -/
def Bare (p : Parser) : Prop := p.operands = [] ∧ ∀ op position, .operator op position ∉ p.frames

end Parser

theorem reduce_ne_ok_nil : reduce op position operands ≠ .ok [] := by
  intro h
  unfold reduce at h
  split at h <;> cases h

/-- An operator that is applied leaves an operand. -/
theorem unwind_eq_nil (h : unwind due frames operands = .ok (frames', [])) :
    frames' = frames ∧ operands = [] := by
  refine unwind_induction (P := fun frames operands => frames' = frames ∧ operands = []) h
    ⟨rfl, rfl⟩ ?_
  rintro op position frames operands reduced hreduce ⟨-, rfl⟩
  exact absurd hreduce reduce_ne_ok_nil

namespace Parser

/-- Only parentheses keep the stacks bare. -/
theorem Bare.of_step (hq : Bare q) (h : p.step t = .ok q) : Bare p ∧ t.isParenthesis = true := by
  obtain ⟨position, token⟩ := t
  obtain ⟨hoperands, hframes⟩ := hq
  cases token with
  | operator op =>
    obtain ⟨-, frames, operands, -, rfl⟩ := pushOperator_eq_ok_iff.1 h
    exact absurd List.mem_cons_self (hframes op position)
  | closing =>
    obtain ⟨opened, frames, operands, hunwind, rfl⟩ := closeGroup_eq_ok_iff.1 h
    cases hoperands
    obtain ⟨heq, hempty⟩ := unwind_eq_nil hunwind
    refine ⟨⟨hempty, ?_⟩, rfl⟩
    rw [← heq]
    simpa using hframes
  | opening =>
    cases h
    refine ⟨⟨hoperands, fun op position hmem => ?_⟩, rfl⟩
    exact hframes op position (List.mem_cons_of_mem _ hmem)
  | _ =>
    cases h
    exact nomatch hoperands

/-- Stacks that are bare in the end have been so all along. -/
theorem Bare.of_run (hq : Bare q) (h : tokens.foldlM step p = .ok q) :
    Bare p ∧ ∀ t ∈ tokens, t.isParenthesis = true := by
  induction tokens generalizing p with
  | nil =>
    cases h
    exact ⟨hq, fun t ht => absurd ht List.not_mem_nil⟩
  | cons t tokens ih =>
    obtain ⟨r, hstep, hrest⟩ := run_cons_iff.1 h
    obtain ⟨hr, htokens⟩ := ih hrest
    obtain ⟨hp, ht⟩ := hr.of_step hstep
    exact ⟨hp, List.forall_mem_cons.2 ⟨ht, htokens⟩⟩

end Parser

/-- Groups with nothing in them leave the stacks as they are. -/
theorem Balanced.run (h : Balanced tokens) (p : Parser) :
    ∃ after, tokens.foldlM Parser.step p = .ok { p with afterOperand := after } := by
  induction h generalizing p with
  | nil => exact ⟨p.afterOperand, rfl⟩
  | @group inside behind i j _ _ ih ihbehind =>
    obtain ⟨after, hinside⟩ := ih (p.openGroup i)
    obtain ⟨last, hbehind⟩ := ihbehind { p with afterOperand := true }
    refine ⟨last, ?_⟩
    show (inside ++ ⟨j, .closing⟩ :: behind).foldlM Parser.step (p.openGroup i) = _
    rw [List.foldlM_append, hinside]
    exact hbehind

/-! ### The end of a pattern -/

/-- Where no operand is held that is not wanted, a group is open or nothing is on the stacks. -/
theorem Parser.finish_eq_error (hp : p.operands.length ≤ p.wanted)
    (h : p.finish = .error error) :
    error.IsMissing ∨
    (∃ i opened, error = .unclosedOpening i ∧ openings p.frames = i :: opened) ∨
    (error = .emptyExpression ∧ p.frames = [] ∧ p.operands = []) := by
  rcases bind_eq_error.1 h with hunwind | ⟨⟨frames, operands⟩, hunwind, hend⟩
  · exact .inl (unwind_isMissing hunwind)
  · right
    rcases unwind_all hunwind with rfl | ⟨i, rest, rfl⟩
    · rcases operands with _ | ⟨top, _ | ⟨next, rest⟩⟩
      · right
        obtain ⟨hframes, hoperands⟩ := unwind_eq_nil hunwind
        exact ⟨(Except.error.inj hend).symm, hframes.symm, hoperands⟩
      · exact nomatch hend
      · -- with nothing open, no more than one operand is wanted
        have hlength := length_unwind hunwind
        unfold Parser.wanted at hp
        simp only [List.length_cons, joined] at hlength
        split at hp <;> omega
    · left
      exact ⟨i, openings rest, (Except.error.inj hend).symm, (openings_unwind hunwind).symm⟩

/-- Each error of the parser, with what is then known of the tokens. -/
theorem parseTokens_eq_error (hapart : Apart false tokens)
    (h : parseTokens tokens = .error error) :
    error.IsMissing ∨
    (∃ i, error = .unexpectedClosing i ∧ tokens.foldlM track [] = .error i) ∨
    (∃ i opened, error = .unclosedOpening i ∧ tokens.foldlM track [] = .ok (i :: opened)) ∨
    (error = .emptyExpression ∧ Nested tokens) := by
  rcases bind_eq_error.1 h with hrun | ⟨p, hrun, hfinish⟩
  · rcases Parser.track_of_run_eq_error hrun with hmissing | hclosing
    · exact .inl hmissing
    · exact .inr (.inl hclosing)
  · have hwanted := Parser.length_operands_run_le hrun hapart (Nat.zero_le _)
    have htrack : tokens.foldlM track [] = .ok (openings p.frames) := Parser.track_run hrun
    rcases Parser.finish_eq_error hwanted hfinish with
      hmissing | ⟨i, opened, rfl, hopened⟩ | ⟨rfl, hframes, hoperands⟩
    · exact .inl hmissing
    · exact .inr (.inr (.inl ⟨i, opened, rfl, hopened ▸ htrack⟩))
    · have hbare : Parser.Bare p := ⟨hoperands, by simp [hframes]⟩
      obtain ⟨-, htokens⟩ := hbare.of_run hrun
      rw [hframes] at htrack
      have hbalanced : Balanced tokens := leaves_of_foldlM_track htokens htrack
      exact .inr (.inr (.inr ⟨rfl, hbalanced.nested hapart⟩))

/-! ### Errors about a pattern -/

/-- What an error says about the groups of a pattern. There are errors that say nothing about
groups, and one that is never found. -/
def Error.IsTrueOf (pattern : Text) : Error → Prop
  | unexpectedClosing i => (parentheses pattern).foldlM track [] = .error i
  | unclosedOpening i => ∃ opened, (parentheses pattern).foldlM track [] = .ok (i :: opened)
  | emptyExpression => ∃ n, pattern = List.replicate n '(' ++ List.replicate n ')'
  | danglingOperands _ => False
  | escapedNothing | unknownSymbol _ _ | missingOperand _ _ => True

/-- Tokens that are nested as they are given to the parser make up the whole pattern. -/
theorem eq_replicate_of_nested (htokenize : tokenize alphabet markers pattern = .ok tokens)
    (h : Nested (withConcatenations tokens)) :
    ∃ n, pattern = List.replicate n '(' ++ List.replicate n ')' := by
  have htokens : ∀ t ∈ tokens, t.isParenthesis = true := fun t ht =>
    h.isParenthesis t ((sublist_concatenationsFrom false tokens).subset ht)
  -- a sign that was written would be among the tokens that are nested
  have hunchanged : withConcatenations tokens = tokens := by
    rw [← List.filter_eq_self.2 h.isParenthesis, withConcatenations, filter_concatenationsFrom,
      List.filter_eq_self.2 htokens]
  obtain ⟨n, hn⟩ := nested_iff.1 (hunchanged ▸ h)
  refine ⟨n, ?_⟩
  calc pattern = (tokens.map Placed.token).map Token.char := by
        rw [eq_map_char_of_tokensFrom htokenize htokens, List.map_map]
        rfl
    _ = List.replicate n '(' ++ List.replicate n ')' := by
        rw [hn, List.map_append, List.map_replicate, List.map_replicate]
        rfl

/-- Errors tell the truth. -/
theorem parse_isTrueOf (h : parse alphabet markers pattern = .error error) :
    error.IsTrueOf pattern := by
  rcases bind_eq_error.1 h with htokenize | ⟨tokens, htokenize, hparse⟩
  · rcases tokenize_eq_error htokenize with rfl | ⟨_, _, rfl⟩ <;> trivial
  · have hparentheses (opened : List Nat) :
        (withConcatenations tokens).foldlM track opened =
          (parentheses pattern).foldlM track opened := by
      rw [← filter_withConcatenations htokenize, foldlM_track_filter]
    rcases parseTokens_eq_error (apart_concatenationsFrom false tokens) hparse with
      ⟨_, _, rfl⟩ | ⟨i, rfl, htrack⟩ | ⟨i, opened, rfl, htrack⟩ | ⟨rfl, hnested⟩
    · trivial
    · exact (hparentheses []).symm.trans htrack
    · exact ⟨opened, (hparentheses []).symm.trans htrack⟩
    · exact eq_replicate_of_nested htokenize hnested

theorem parse_replicate (alphabet : Alphabet) (markers : Markers) (n : Nat) :
    parse alphabet markers (List.replicate n '(' ++ List.replicate n ')') =
      .error .emptyExpression := by
  have hlist : ∀ token ∈ List.replicate n Token.opening ++ List.replicate n .closing,
      token = .opening ∨ token = .closing := fun token htoken =>
    (List.mem_append.1 htoken).imp List.eq_of_mem_replicate List.eq_of_mem_replicate
  obtain ⟨tokens, hread, htokens⟩ := exists_tokensFrom_map_char alphabet markers 0 _ hlist
  rw [List.map_append, List.map_replicate, List.map_replicate] at hread
  have hnested : Nested tokens := nested_iff.2 ⟨n, htokens⟩
  have hunchanged : withConcatenations tokens = tokens := concatenationsFrom_of_apart hnested.apart
  obtain ⟨after, hrun⟩ := hnested.balanced.run {}
  refine bind_eq_error.2 (.inr ⟨tokens, hread, ?_⟩)
  rw [hunchanged]
  exact bind_eq_error.2 (.inr ⟨_, hrun, rfl⟩)

/-- Of its operands the parser leaves at most one, and none exactly for groups that hold nothing
but each other. A closing parenthesis that is reported is the first that closes no group; an
opening one is the last that is not closed, in a pattern in which each closing one closes a
group. -/
theorem parse_error_blames (alphabet : Alphabet) (markers : Markers) (pattern : Text) :
    (∀ count, parse alphabet markers pattern ≠ .error (.danglingOperands count)) ∧
    (parse alphabet markers pattern = .error .emptyExpression ↔
      ∃ n, pattern = List.replicate n '(' ++ List.replicate n ')') ∧
    (∀ i, parse alphabet markers pattern = .error (.unexpectedClosing i) →
      ⟨i, .closing⟩ ∈ parentheses pattern ∧ (∀ k, ¬ Closes (parentheses pattern) k i) ∧
      ∀ j < i, ⟨j, .closing⟩ ∈ parentheses pattern → ∃ k, Closes (parentheses pattern) k j) ∧
    (∀ i, parse alphabet markers pattern = .error (.unclosedOpening i) →
      (∀ j, ⟨j, .closing⟩ ∈ parentheses pattern → ∃ k, Closes (parentheses pattern) k j) ∧
      ⟨i, .opening⟩ ∈ parentheses pattern ∧ (∀ j, ¬ Closes (parentheses pattern) i j) ∧
      ∀ k, i < k → ⟨k, .opening⟩ ∈ parentheses pattern →
        ∃ j, Closes (parentheses pattern) k j) := by
  have hascends := ascends_parentheses pattern
  have hparentheses (t : Placed) (ht : t ∈ parentheses pattern) : t.isParenthesis = true :=
    isParenthesis_of_mem_parentheses ht
  refine ⟨?_, ⟨fun h => parse_isTrueOf h, ?_⟩, ?_, ?_⟩
  · intro count h
    exact parse_isTrueOf h
  · rintro ⟨n, rfl⟩
    exact parse_replicate alphabet markers n
  · intro i h
    exact hascends.first_unopened hparentheses (parse_isTrueOf h)
  · intro i h
    obtain ⟨opened, hread⟩ := parse_isTrueOf h
    exact hascends.last_unclosed hparentheses hread

/-- In `(a)\)b)` the last parenthesis closes no group, since the one before it is escaped. In
`(a(b(a)` the second is the last that is not closed. -/
theorem parse_error_blames_escaped :
    (∀ k, ¬ Closes (parentheses ['(', 'a', ')', '\\', ')', 'b', ')']) k 6) ∧
    ∀ j, ¬ Closes (parentheses ['(', 'a', '(', 'b', '(', 'a', ')']) 2 j := by
  constructor
  · exact ((parse_error_blames (Alphabet.ofText ['a', 'b']) {} _).2.2.1 6 (by decide)).2.1
  · exact ((parse_error_blames (Alphabet.ofText ['a', 'b']) {} _).2.2.2 2 (by decide)).2.2.1

end PatternLexer.Pattern
