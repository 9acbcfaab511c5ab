import PatternLexer.Pattern.Operands
import PatternLexer.Proofs.Pattern.Errors

/-! Operators that wait. An operator is on the stack from the token at which it was read, and all
that was read since belongs to its right operand. When it cannot be applied, fewer operands are held
than are wanted above the operators below it. -/

namespace PatternLexer.Pattern

variable {op : Operator} {position : Nat} {due : Operator → Bool}
  {frames frames' popped below : List Frame} {operands operands' : List Tree} {p q : Parser}
  {t : Placed} {read tokens : List Placed} {error : Error}

/-! ### Operators taken off a stack -/

theorem openings_append (popped below : List Frame) :
    openings (popped ++ below) = openings popped ++ openings below := by
  induction popped with
  | nil => rfl
  | cons frame popped ih => cases frame <;> simp [openings, ih]

/-- Operators are taken off the top, down to a group or to one that is not due. -/
theorem unwind_eq_ok (h : unwind due frames operands = .ok (frames', operands')) :
    (∃ popped, frames = popped ++ frames' ∧ openings popped = []) ∧
      ∀ op position rest, frames' = .operator op position :: rest → due op = false := by
  induction frames generalizing operands with
  | nil =>
    cases h
    exact ⟨⟨[], rfl, rfl⟩, fun _ _ _ heq => nomatch heq⟩
  | cons frame frames ih =>
    cases frame with
    | opening position =>
      cases h
      exact ⟨⟨[], rfl, rfl⟩, fun _ _ _ heq => nomatch heq⟩
    | operator op position =>
      unfold unwind at h
      split at h
      · obtain ⟨reduced, -, hrest⟩ := bind_eq_ok.1 h
        obtain ⟨⟨popped, rfl, hpopped⟩, hstop⟩ := ih hrest
        exact ⟨⟨.operator op position :: popped, rfl, hpopped⟩, hstop⟩
      · rename_i hdue
        cases h
        refine ⟨⟨[], rfl, rfl⟩, ?_⟩
        rintro op' position' rest heq
        obtain ⟨hframe, -⟩ := List.cons.inj heq
        obtain ⟨rfl, -⟩ := Frame.operator.inj hframe
        exact Bool.eq_false_iff.2 hdue

theorem reduce_eq_error (h : reduce op position operands = .error error) :
    error = .missingOperand op.char position ∧ operands.length ≤ op.joins := by
  rcases op with _ | _ | _ <;> rcases operands with _ | ⟨right, _ | ⟨left, rest⟩⟩ <;> cases h <;>
    simp [Operator.joins]

/-- An operator fails for which no operands are left above what the operators below it hold. -/
theorem unwind_eq_error (h : unwind due frames operands = .error error) :
    ∃ popped op position below, frames = popped ++ .operator op position :: below ∧
      openings popped = [] ∧ error = .missingOperand op.char position ∧
      operands.length + joined below ≤ joined frames := by
  induction frames generalizing operands with
  | nil => cases h
  | cons frame frames ih =>
    cases frame with
    | opening position => cases h
    | operator op position =>
      unfold unwind at h
      split at h
      · rcases bind_eq_error.1 h with hreduce | ⟨reduced, hreduce, hrest⟩
        · obtain ⟨rfl, hlength⟩ := reduce_eq_error hreduce
          exact ⟨[], op, position, frames, rfl, rfl, rfl, by rw [joined]; omega⟩
        · obtain ⟨popped, op', position', below, rfl, hpopped, rfl, hlength⟩ := ih hrest
          have hreduced := length_reduce hreduce
          exact ⟨.operator op position :: popped, op', position', below, rfl, hpopped, rfl,
            by rw [joined]; omega⟩
      · cases h

/-! ### Operators in order of precedence -/

/-- Between two groups every operator binds more tightly than the one below it. -/
def Rising : List Frame → Prop
  | [] => True
  | .opening _ :: frames => Rising frames
  | .operator op _ :: frames =>
    (∀ lower position rest, frames = .operator lower position :: rest →
      lower.precedence < op.precedence) ∧ Rising frames

theorem Rising.of_append (h : Rising (popped ++ below)) : Rising below := by
  induction popped with
  | nil => exact h
  | cons frame popped ih =>
    cases frame with
    | opening position => exact ih h
    | operator op position => exact ih h.2

theorem Rising.step (hp : Rising p.frames) (h : p.step t = .ok q) : Rising q.frames := by
  obtain ⟨position, token⟩ := t
  cases token with
  | operator op =>
    obtain ⟨-, frames, operands, hunwind, rfl⟩ := Parser.pushOperator_eq_ok_iff.1 h
    obtain ⟨⟨popped, hframes, -⟩, hstop⟩ := unwind_eq_ok hunwind
    refine ⟨fun lower position rest heq => ?_, Rising.of_append (hframes ▸ hp)⟩
    simpa using hstop lower position rest heq
  | closing =>
    obtain ⟨opened, frames, operands, hunwind, rfl⟩ := Parser.closeGroup_eq_ok_iff.1 h
    obtain ⟨⟨popped, hframes, -⟩, -⟩ := unwind_eq_ok hunwind
    have hgroup : Rising (.opening opened :: frames) := Rising.of_append (hframes ▸ hp)
    exact hgroup
  | _ =>
    cases h
    exact hp

theorem Rising.run (hp : Rising p.frames) (h : tokens.foldlM Parser.step p = .ok q) :
    Rising q.frames := by
  induction tokens generalizing p with
  | nil =>
    cases h
    exact hp
  | cons t tokens ih =>
    obtain ⟨r, hstep, hrest⟩ := Parser.run_cons_iff.1 h
    exact ih (hp.step hstep) hrest

/-- What binds more tightly than the top binds more tightly than all operators down to a group. -/
theorem Rising.precedence_lt (h : Rising (popped ++ .operator op position :: below))
    (hpopped : openings popped = []) {next : Operator}
    (htop : ∀ top i rest, popped ++ .operator op position :: below = .operator top i :: rest →
      top.precedence < next.precedence) : op.precedence < next.precedence := by
  induction popped generalizing next with
  | nil => exact htop op position below rfl
  | cons frame popped ih =>
    cases frame with
    | opening i => exact nomatch hpopped
    | operator top i => exact Nat.lt_trans (ih h.2 hpopped h.1) (htop top i _ rfl)

/-! ### Since an operator was read -/

/-- The operator was read behind the first tokens and waits since then, below the frames that the
tokens behind it left. All of these belong to its right operand. -/
structure WaitsSince (op : Operator) (position : Nat) (before since : List Placed)
    (popped below : List Frame) (start pushed p : Parser) : Prop where
  run_before : before.foldlM Parser.step {} = .ok start
  push : start.pushOperator op position = .ok pushed
  frames_eq : pushed.frames = .operator op position :: below
  run_since : since.foldlM Parser.step pushed = .ok p
  depth : since.foldlM op.depth? 0 = some (openings popped).length

theorem WaitsSince.snoc {before since : List Placed} {popped' : List Frame} {start pushed : Parser}
    (h : WaitsSince op position before since popped below start pushed p) (hstep : p.step t = .ok q)
    (hdepth : op.depth? (openings popped).length t = some (openings popped').length) :
    WaitsSince op position before (since ++ [t]) popped' below start pushed q where
  run_before := h.run_before
  push := h.push
  frames_eq := h.frames_eq
  run_since := Parser.run_snoc_iff.2 ⟨p, h.run_since, hstep⟩
  depth := by
    rw [List.foldlM_append, h.depth]
    simpa using hdepth

/-- An operator that takes nothing off down to a waiting one leaves it waiting. -/
theorem Rising.depth?_operator {next : Operator}
    (h : Rising (popped ++ .operator op position :: below)) (i : Nat)
    (htop : ∀ top j rest, popped ++ .operator op position :: below = .operator top j :: rest →
      top.precedence < next.precedence) :
    op.depth? (openings popped).length ⟨i, .operator next⟩ = some (openings popped).length := by
  cases hopen : openings popped with
  | cons _ _ => simp [Operator.depth?]
  | nil =>
    have hlt : op.precedence < next.precedence := h.precedence_lt hopen htop
    simp [Operator.depth?, hlt]

/-- Every operator on the stack has been read. -/
theorem exists_waitsSince (hrun : read.foldlM Parser.step {} = .ok p)
    (hframes : p.frames = popped ++ .operator op position :: below) :
    ∃ before since start pushed, read = before ++ ⟨position, .operator op⟩ :: since ∧
      WaitsSince op position before since popped below start pushed p := by
  induction read using List.reverseRecOn generalizing p popped with
  | nil =>
    cases hrun
    exact absurd hframes.symm (List.append_ne_nil_of_right_ne_nil _ (List.cons_ne_nil _ _))
  | append_singleton read t ih =>
    obtain ⟨r, hread, hstep⟩ := Parser.run_snoc_iff.1 hrun
    -- the frames before the token, with as many of them to come off as lie above the operator
    have hkeep {popped' : List Frame} (hr : r.frames = popped' ++ .operator op position :: below)
        (hdepth : op.depth? (openings popped').length t = some (openings popped).length) :
        ∃ before since start pushed, read ++ [t] = before ++ ⟨position, .operator op⟩ :: since ∧
          WaitsSince op position before since popped below start pushed p := by
      obtain ⟨before, since, start, pushed, rfl, hsince⟩ := ih hread hr
      exact ⟨before, since ++ [t], start, pushed, by simp, hsince.snoc hstep hdepth⟩
    obtain ⟨i, token⟩ := t
    cases token with
    | operator next =>
      obtain ⟨hafter, frames, operands, hunwind, rfl⟩ := Parser.pushOperator_eq_ok_iff.1 hstep
      obtain ⟨⟨waiting, hr, hwaiting⟩, hstop⟩ := unwind_eq_ok hunwind
      cases popped with
      | nil =>
        obtain ⟨hframe, rfl⟩ := List.cons.inj hframes
        obtain ⟨rfl, rfl⟩ := Frame.operator.inj hframe
        exact ⟨read, [], r, _, rfl, hread, hstep, rfl, rfl, rfl⟩
      | cons frame popped =>
        obtain ⟨rfl, rfl⟩ := List.cons.inj hframes
        refine hkeep (hr.trans (List.append_assoc waiting popped _).symm) ?_
        rw [openings_append, hwaiting, List.nil_append]
        have hrising : Rising r.frames := Rising.run (p := {}) trivial hread
        have habove : Rising (popped ++ .operator op position :: below) :=
          Rising.of_append (hr ▸ hrising)
        exact habove.depth?_operator i fun top j rest heq => by simpa using hstop top j rest heq
    | closing =>
      obtain ⟨opened, frames, operands, hunwind, rfl⟩ := Parser.closeGroup_eq_ok_iff.1 hstep
      obtain ⟨⟨waiting, hr, hwaiting⟩, -⟩ := unwind_eq_ok hunwind
      obtain rfl : frames = popped ++ .operator op position :: below := hframes
      refine hkeep (hr.trans (List.append_assoc waiting (.opening opened :: popped) _).symm) ?_
      rw [openings_append, hwaiting]
      rfl
    | opening =>
      cases hstep
      cases popped with
      | nil => exact nomatch hframes
      | cons frame popped =>
        obtain ⟨rfl, hr⟩ := List.cons.inj hframes
        exact hkeep hr rfl
    | _ =>
      cases hstep
      exact hkeep hframes (by cases (openings popped).length <;> rfl)

end PatternLexer.Pattern
