import PatternLexer.Proofs.Pattern.Stacks

/-! Positions are reported and nothing else. Without its positions a list of tokens is parsed in the
same steps, to the same tree or to the same error at no position, so lists of the same tokens are
parsed alike wherever their tokens stand. -/

namespace PatternLexer.Pattern

variable {α β γ δ : Type} {g : α → β} {h : γ → δ} {p : Parser} {tokens tokens' : List Placed}

/-! ### Data without positions -/

def Placed.unplaced (t : Placed) : Placed := ⟨0, t.token⟩

def Frame.unplaced : Frame → Frame
  | opening _ => .opening 0
  | operator op _ => .operator op 0

def Parser.unplaced (p : Parser) : Parser := { p with frames := p.frames.map Frame.unplaced }

/-- What an error says apart from its position. -/
def Error.unplaced : Error → Error
  | unknownSymbol symbol _ => .unknownSymbol symbol 0
  | missingOperand operator _ => .missingOperand operator 0
  | unexpectedClosing _ => .unexpectedClosing 0
  | unclosedOpening _ => .unclosedOpening 0
  | error => error

/-- A result without positions, when the function takes them from its value. -/
def unplacedResult (g : α → β) (x : Except Error α) : Except Error β :=
  (x.map g).mapError Error.unplaced

theorem unplacedResult_bind {x : Except Error α} {k : α → Except Error γ}
    {k' : β → Except Error δ} (hk : ∀ a, unplacedResult h (k a) = k' (g a)) :
    unplacedResult h (x >>= k) = unplacedResult g x >>= k' := by
  cases x with
  | error e => rfl
  | ok a => exact hk a

theorem unplacedResult_id (x : Except Error α) :
    unplacedResult id x = x.mapError Error.unplaced := by
  cases x <;> rfl

/-! ### Applying operators -/

theorem reduce_unplaced (op : Operator) (position : Nat) (operands : List Tree) :
    unplacedResult id (reduce op position operands) = reduce op 0 operands := by
  unfold reduce
  split <;> rfl

theorem unwind_unplaced (due : Operator → Bool) (frames : List Frame) (operands : List Tree) :
    unplacedResult (Prod.map (List.map Frame.unplaced) id) (unwind due frames operands) =
      unwind due (frames.map Frame.unplaced) operands := by
  induction frames generalizing operands with
  | nil => rfl
  | cons frame frames ih =>
    cases frame with
    | opening position => rfl
    | operator op position =>
      rw [List.map_cons, Frame.unplaced, unwind, unwind]
      split
      · rw [← reduce_unplaced op position]
        exact unplacedResult_bind ih
      · rfl

namespace Parser

/-! ### Steps and runs -/

theorem step_unplaced (p : Parser) (t : Placed) :
    unplacedResult unplaced (p.step t) = p.unplaced.step t.unplaced := by
  obtain ⟨position, token⟩ := t
  cases token with
  | operator op =>
    show unplacedResult unplaced (p.pushOperator op position) = p.unplaced.pushOperator op 0
    unfold pushOperator
    show _ = if p.afterOperand then _ else _
    split
    · simp only [unplaced]
      rw [← unwind_unplaced]
      exact unplacedResult_bind fun _ => rfl
    · rfl
  | closing =>
    show unplacedResult unplaced (p.closeGroup position) = p.unplaced.closeGroup 0
    unfold closeGroup
    simp only [unplaced]
    rw [← unwind_unplaced]
    refine unplacedResult_bind ?_
    rintro ⟨frames, operands⟩
    rcases frames with _ | ⟨_ | _, _⟩ <;> rfl
  | _ => rfl

theorem run_unplaced (tokens : List Placed) (p : Parser) :
    unplacedResult unplaced (tokens.foldlM step p) =
      (tokens.map Placed.unplaced).foldlM step p.unplaced := by
  induction tokens generalizing p with
  | nil => rfl
  | cons t tokens ih =>
    rw [List.map_cons, List.foldlM_cons, List.foldlM_cons, ← step_unplaced]
    exact unplacedResult_bind ih

theorem finish_unplaced (p : Parser) : unplacedResult id p.finish = p.unplaced.finish := by
  unfold finish
  simp only [unplaced]
  rw [← unwind_unplaced]
  refine unplacedResult_bind ?_
  rintro ⟨frames, operands⟩
  rcases frames with _ | ⟨_ | _, _⟩ <;> rcases operands with _ | ⟨_, _ | _⟩ <;> rfl

end Parser

theorem parseTokens_unplaced (tokens : List Placed) :
    (parseTokens tokens).mapError Error.unplaced = parseTokens (tokens.map Placed.unplaced) := by
  rw [← unplacedResult_id, parseTokens, parseTokens]
  show _ = (tokens.map Placed.unplaced).foldlM Parser.step (Parser.unplaced {}) >>= Parser.finish
  rw [← Parser.run_unplaced]
  exact unplacedResult_bind Parser.finish_unplaced

/-- The same tokens at other positions are parsed to the same tree, or refused by the same error at
another position. -/
theorem parseTokens_congr (h : tokens.map Placed.token = tokens'.map Placed.token) :
    (parseTokens tokens).mapError Error.unplaced =
      (parseTokens tokens').mapError Error.unplaced := by
  have hunplaced : tokens.map Placed.unplaced = tokens'.map Placed.unplaced := by
    have hmap := congrArg (List.map (Placed.mk 0)) h
    rwa [List.map_map, List.map_map] at hmap
  rw [parseTokens_unplaced, parseTokens_unplaced, hunplaced]

end PatternLexer.Pattern
