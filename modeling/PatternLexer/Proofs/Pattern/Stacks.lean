import PatternLexer.Pattern.Parse
import PatternLexer.Proofs.Except

/-! The two stacks of the parser. What each operation does when it succeeds is stated once, and with
it how many operands the waiting operators still want: every token keeps the balance of operands
held and operands wanted, except that a group closed where an operand was due lowers it for good. -/

namespace PatternLexer.Pattern

variable {op : Operator} {position : Nat} {due : Operator → Bool} {frames frames' : List Frame}
  {operands operands' : List Tree} {p p' : Parser} {t : Placed} {tree : Tree}

/-! ### Success of an operation -/

/-- An operator on top that is due is applied. -/
theorem unwind_due (hdue : due op = true) (h : reduce op position operands = .ok operands') :
    unwind due (.operator op position :: frames) operands = unwind due frames operands' := by
  rw [unwind, if_pos hdue, h]
  rfl

theorem unwind_not_due (hdue : due op = false) (operands : List Tree) :
    unwind due (.operator op position :: frames) operands =
      .ok (.operator op position :: frames, operands) := by
  rw [unwind, hdue]
  rfl

/-- What holds of the stacks in the end, and before an operator is applied if behind it, holds of
the stacks that were given. -/
theorem unwind_induction {P : List Frame → List Tree → Prop}
    (h : unwind due frames operands = .ok (frames', operands')) (stop : P frames' operands')
    (apply : ∀ {op position frames operands reduced},
      reduce op position operands = .ok reduced → P frames reduced →
      P (.operator op position :: frames) operands) : P frames operands := by
  induction frames generalizing operands with
  | nil =>
    cases h
    exact stop
  | cons frame frames ih =>
    cases frame with
    | opening position =>
      cases h
      exact stop
    | operator op position =>
      unfold unwind at h
      split at h
      · obtain ⟨reduced, hreduce, hrest⟩ := bind_eq_ok.1 h
        exact apply hreduce (ih hrest)
      · cases h
        exact stop

/-- Applied as a whole: the stack is empty, or a group is on its top. -/
theorem unwind_all (h : unwind (fun _ => true) frames operands = .ok (frames', operands')) :
    frames' = [] ∨ ∃ position rest, frames' = .opening position :: rest := by
  induction frames generalizing operands with
  | nil =>
    cases h
    exact .inl rfl
  | cons frame frames ih =>
    cases frame with
    | opening position =>
      cases h
      exact .inr ⟨position, frames, rfl⟩
    | operator op position =>
      obtain ⟨reduced, -, hrest⟩ := bind_eq_ok.1 h
      exact ih hrest

namespace Parser

theorem pushOperator_eq_ok_iff : p.pushOperator op position = .ok p' ↔
    p.afterOperand = true ∧ ∃ frames operands,
      unwind (fun top => op.precedence ≤ top.precedence) p.frames p.operands =
        .ok (frames, operands) ∧
      p' = ⟨operands, .operator op position :: frames, (Token.operator op).endsOperand⟩ := by
  unfold pushOperator
  cases p.afterOperand with
  | false => simp
  | true =>
    simp only [if_true, true_and, bind_eq_ok, Prod.exists]
    constructor
    · rintro ⟨frames, operands, hunwind, h⟩
      exact ⟨frames, operands, hunwind, (Except.ok.inj h).symm⟩
    · rintro ⟨frames, operands, hunwind, rfl⟩
      exact ⟨frames, operands, hunwind, rfl⟩

theorem closeGroup_eq_ok_iff : p.closeGroup position = .ok p' ↔
    ∃ opened frames operands,
      unwind (fun _ => true) p.frames p.operands = .ok (.opening opened :: frames, operands) ∧
      p' = ⟨operands, frames, true⟩ := by
  unfold closeGroup
  rw [bind_eq_ok]
  constructor
  · rintro ⟨⟨frames, operands⟩, hunwind, h⟩
    rcases unwind_all hunwind with rfl | ⟨opened, rest, rfl⟩
    · exact nomatch h
    · exact ⟨opened, rest, operands, hunwind, (Except.ok.inj h).symm⟩
  · rintro ⟨opened, frames, operands, hunwind, rfl⟩
    exact ⟨_, hunwind, rfl⟩

theorem finish_eq_ok_iff : p.finish = .ok tree ↔
    unwind (fun _ => true) p.frames p.operands = .ok ([], [tree]) := by
  unfold finish
  rw [bind_eq_ok]
  constructor
  · rintro ⟨⟨frames, operands⟩, hunwind, h⟩
    rcases unwind_all hunwind with rfl | ⟨opened, rest, rfl⟩
    · rcases operands with _ | ⟨top, _ | ⟨next, rest⟩⟩
      · exact nomatch h
      · cases h
        exact hunwind
      · exact nomatch h
    · exact nomatch h
  · intro hunwind
    exact ⟨_, hunwind, rfl⟩

theorem run_cons_iff {tokens : List Placed} : (t :: tokens).foldlM step p = .ok p' ↔
    ∃ q, p.step t = .ok q ∧ tokens.foldlM step q = .ok p' := by
  rw [List.foldlM_cons, bind_eq_ok]

theorem run_append_iff {before behind : List Placed} :
    (before ++ behind).foldlM step p = .ok p' ↔
      ∃ q, before.foldlM step p = .ok q ∧ behind.foldlM step q = .ok p' := by
  rw [List.foldlM_append, bind_eq_ok]

theorem run_singleton (p : Parser) (t : Placed) : [t].foldlM step p = p.step t := by
  simp

theorem run_snoc_iff {tokens : List Placed} : (tokens ++ [t]).foldlM step p = .ok p' ↔
    ∃ q, tokens.foldlM step p = .ok q ∧ q.step t = .ok p' := by
  simp only [run_append_iff, run_singleton]

/-- The flag says whether the token read last ends an operand. -/
theorem afterOperand_step (h : p.step t = .ok p') : p'.afterOperand = t.token.endsOperand := by
  obtain ⟨position, token⟩ := t
  cases token with
  | operator op =>
    obtain ⟨-, frames, operands, -, rfl⟩ := pushOperator_eq_ok_iff.1 h
    rfl
  | closing =>
    obtain ⟨opened, frames, operands, -, rfl⟩ := closeGroup_eq_ok_iff.1 h
    rfl
  | _ =>
    cases h
    rfl

end Parser

/-! ### Operands held and wanted -/

/-- By how many operands the application of an operator lowers the stack. -/
def Operator.joins : Operator → Nat
  | union => 1
  | concat => 1
  | star => 0

/-- The operands that the waiting operators will join to others. -/
def joined : List Frame → Nat
  | [] => 0
  | .opening _ :: frames => joined frames
  | .operator op _ :: frames => op.joins + joined frames

theorem Operator.joins_add_endsOperand (op : Operator) :
    op.joins + (if (Token.operator op).endsOperand = true then 1 else 0) = 1 := by
  cases op <;> rfl

theorem length_reduce (h : reduce op position operands = .ok operands') :
    operands'.length + op.joins = operands.length := by
  unfold reduce at h
  split at h
  · cases h
    rfl
  · cases h
    rfl
  · cases h
    rfl
  · exact nomatch h

theorem length_unwind (h : unwind due frames operands = .ok (frames', operands')) :
    operands'.length + joined frames = operands.length + joined frames' := by
  refine unwind_induction (P := fun frames operands =>
    operands'.length + joined frames = operands.length + joined frames') h rfl ?_
  intro op position frames operands reduced hreduce hrest
  have hlength := length_reduce hreduce
  rw [joined]
  omega

namespace Parser

/-- The number of operands at which nothing is missing. -/
def wanted (p : Parser) : Nat := joined p.frames + if p.afterOperand then 1 else 0

/-- No token adds an operand that is not wanted, where operands are kept apart. -/
theorem balance_step (h : p.step t = .ok p')
    (hapart : t.token.startsOperand = true → p.afterOperand = false) :
    p'.operands.length + p.wanted +
        (if t.token = .closing ∧ p.afterOperand = false then 1 else 0) =
      p.operands.length + p'.wanted := by
  obtain ⟨position, token⟩ := t
  cases token with
  | operator op =>
    obtain ⟨hafter, frames, operands, hunwind, rfl⟩ := pushOperator_eq_ok_iff.1 h
    have hlength := length_unwind hunwind
    have hends := op.joins_add_endsOperand
    simp only [wanted, joined, hafter, if_true, reduceCtorEq, false_and, if_false]
    omega
  | closing =>
    obtain ⟨opened, frames, operands, hunwind, rfl⟩ := closeGroup_eq_ok_iff.1 h
    have hlength := length_unwind hunwind
    rw [joined] at hlength
    cases hafter : p.afterOperand <;> simp [wanted, hafter] <;> omega
  | opening =>
    cases h
    simp [wanted, openGroup, joined, hapart rfl]
  | _ =>
    cases h
    simp [wanted, pushOperand, hapart rfl]
    omega

end Parser

/-! ### Operands kept apart -/

/-- No operand begins right where another ended. The flag says whether one has just ended. -/
def Apart : Bool → List Placed → Prop
  | _, [] => True
  | after, t :: rest =>
    (t.token.startsOperand = true → after = false) ∧ Apart t.token.endsOperand rest

theorem apart_concatenationsFrom (after : Bool) (tokens : List Placed) :
    Apart after (concatenationsFrom after tokens) := by
  induction tokens generalizing after with
  | nil => trivial
  | cons t tokens ih =>
    unfold concatenationsFrom
    split
    · exact ⟨(fun h => nomatch h), fun _ => rfl, ih _⟩
    · rename_i hsign
      refine ⟨?_, ih _⟩
      intro hstart
      cases after with
      | false => rfl
      | true => exact absurd hstart (by simpa using hsign)

theorem sublist_concatenationsFrom (after : Bool) (tokens : List Placed) :
    tokens.Sublist (concatenationsFrom after tokens) := by
  induction tokens generalizing after with
  | nil => exact .slnil
  | cons t tokens ih =>
    unfold concatenationsFrom
    split
    · exact ((ih _).cons_cons t).cons _
    · exact (ih _).cons_cons t

/-- No sign is written where operands are kept apart already. -/
theorem concatenationsFrom_of_apart {after : Bool} {tokens : List Placed}
    (h : Apart after tokens) : concatenationsFrom after tokens = tokens := by
  induction tokens generalizing after with
  | nil => rfl
  | cons t tokens ih =>
    obtain ⟨hstart, hrest⟩ := h
    unfold concatenationsFrom
    rw [ih hrest, if_neg]
    intro hsign
    obtain ⟨hafter, hstarts⟩ := (Bool.and_eq_true _ _).mp hsign
    exact absurd (hafter.symm.trans (hstart hstarts)) Bool.noConfusion

end PatternLexer.Pattern
