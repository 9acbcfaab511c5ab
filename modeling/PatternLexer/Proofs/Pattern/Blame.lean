import PatternLexer.Proofs.Pattern.Waiting

/-! Which operator is said to miss an operand. A place where an operand is due and none comes leaves
one operand too few, and the operators that close in on it take the operands of those below, down to
one for which none is left. So the operator that is blamed lacks an operand itself, or another in
its right operand does. -/

namespace PatternLexer.Pattern

variable {alphabet : Alphabet} {markers : Markers} {pattern : Text} {op : Operator}
  {position : Nat} {due : Operator → Bool} {frames popped below : List Frame} {p q : Parser}
  {start pushed : Parser} {t : Placed} {read tokens before since behind rest : List Placed}
  {inside group list : List Placed} {error : Error}

/-! ### Hollow groups -/

theorem HollowGroup.balanced (h : HollowGroup group) : Balanced group := by
  obtain ⟨i, j, inside, hinside, rfl⟩ := h
  exact .group i j hinside .nil

theorem HollowGroup.opening_mem (h : HollowGroup group) : ∃ i, ⟨i, .opening⟩ ∈ group := by
  obtain ⟨i, j, inside, -, rfl⟩ := h
  exact ⟨i, List.mem_cons_self⟩

theorem Balanced.exists_hollow_suffix (h : Balanced list) (hne : list ≠ []) :
    ∃ group, HollowGroup group ∧ group <:+ list := by
  induction h with
  | nil => exact absurd rfl hne
  | @group inside behind i j hinside _ _ ih =>
    cases behind with
    | nil => exact ⟨_, ⟨i, j, inside, hinside, rfl⟩, List.suffix_rfl⟩
    | cons t behind =>
      obtain ⟨group, hgroup, hsuffix⟩ := ih (List.cons_ne_nil _ _)
      refine ⟨group, hgroup, hsuffix.trans ⟨⟨i, .opening⟩ :: (inside ++ [⟨j, .closing⟩]), ?_⟩⟩
      simp

/-! ### No operand so far -/

/-- The tokens are those of the frames, with nothing between them but groups that are hollow. -/
inductive Vacant : List Frame → List Placed → Prop
  | base {inside : List Placed} : Balanced inside → Vacant [] inside
  | opening {frames : List Frame} {read inside : List Placed} (i : Nat) :
    Vacant frames read → Balanced inside →
    Vacant (.opening i :: frames) (read ++ ⟨i, .opening⟩ :: inside)
  | operator {frames : List Frame} {read inside : List Placed} (op : Operator) (i : Nat) :
    Vacant frames read → Balanced inside →
    Vacant (.operator op i :: frames) (read ++ ⟨i, .operator op⟩ :: inside)

theorem Vacant.append (h : Vacant frames read) (k : Balanced list) :
    Vacant frames (read ++ list) := by
  cases h with
  | base hinside => exact .base (hinside.append k)
  | opening i h hinside =>
    rw [List.append_assoc, List.cons_append]
    exact .opening i h (hinside.append k)
  | operator op i h hinside =>
    rw [List.append_assoc, List.cons_append]
    exact .operator op i h (hinside.append k)

/-- While no operand is held, none was read and no operator was applied. -/
theorem vacant_run (h : read.foldlM Parser.step {} = .ok p) (hp : p.operands = []) :
    Vacant p.frames read := by
  induction read using List.reverseRecOn generalizing p with
  | nil =>
    cases h
    exact .base .nil
  | append_singleton read t ih =>
    obtain ⟨r, hread, hstep⟩ := Parser.run_snoc_iff.1 h
    obtain ⟨i, token⟩ := t
    cases token with
    | operator op =>
      obtain ⟨-, frames, operands, hunwind, rfl⟩ := Parser.pushOperator_eq_ok_iff.1 hstep
      cases hp
      obtain ⟨rfl, hempty⟩ := unwind_eq_nil hunwind
      exact .operator op i (ih hread hempty) .nil
    | closing =>
      obtain ⟨opened, frames, operands, hunwind, rfl⟩ := Parser.closeGroup_eq_ok_iff.1 hstep
      cases hp
      obtain ⟨hframes, hempty⟩ := unwind_eq_nil hunwind
      have hgroup := ih hread hempty
      rw [← hframes] at hgroup
      cases hgroup with
      | opening _ hbelow hinside =>
        rw [List.append_assoc, List.cons_append]
        exact hbelow.append (.group opened i hinside .nil)
    | opening =>
      cases hstep
      exact .opening i (ih hread hp) .nil
    | _ =>
      cases hstep
      exact nomatch hp

/-- The last token is that of the top frame, unless a hollow group stands behind it. -/
theorem Vacant.hollow_or_getLast? (h : Vacant frames read) :
    (∃ group, HollowGroup group ∧ group <:+ read) ∨
      ∀ t ∈ read.getLast?, t.token = .opening ∨
        ∃ op rest, t.token = .operator op ∧ frames = .operator op t.position :: rest := by
  have hbehind {read inside : List Placed} (t : Placed) (hinside : Balanced inside)
      (hne : inside ≠ []) : ∃ group, HollowGroup group ∧ group <:+ read ++ t :: inside := by
    obtain ⟨group, hgroup, hsuffix⟩ := hinside.exists_hollow_suffix hne
    exact ⟨group, hgroup, (hsuffix.trans (List.suffix_cons _ _)).trans (List.suffix_append _ _)⟩
  cases h with
  | base hinside =>
    by_cases hne : read = []
    · subst hne
      exact .inr fun t ht => nomatch ht
    · exact .inl (hinside.exists_hollow_suffix hne)
  | @opening frames read inside i _ hinside =>
    by_cases hne : inside = []
    · subst hne
      exact .inr (by simp)
    · exact .inl (hbehind _ hinside hne)
  | @operator frames read inside op i _ hinside =>
    by_cases hne : inside = []
    · subst hne
      exact .inr (by simp)
    · exact .inl (hbehind _ hinside hne)

theorem afterOperand_eq_false_iff (h : read.foldlM Parser.step {} = .ok p) :
    p.afterOperand = false ↔ ∀ t ∈ read.getLast?, t.token.endsOperand = false := by
  induction read using List.reverseRecOn with
  | nil =>
    cases h
    simp
  | append_singleton read t _ =>
    obtain ⟨r, -, hstep⟩ := Parser.run_snoc_iff.1 h
    simp [Parser.afterOperand_step hstep]

theorem eq_star_of_endsOperand (h : (Token.operator op).endsOperand = true) : op = .star := by
  cases op with
  | star => rfl
  | _ => exact nomatch h

/-- An operator that finds no operand at all stands behind a hollow group. -/
theorem exists_hollow_of_push (hrun : before.foldlM Parser.step {} = .ok start)
    (hpush : start.pushOperator op position = .ok pushed) (hpushed : pushed.operands = []) :
    ∃ group, HollowGroup group ∧ group <:+ before := by
  obtain ⟨hafter, frames, operands, hunwind, rfl⟩ := Parser.pushOperator_eq_ok_iff.1 hpush
  cases hpushed
  obtain ⟨hsame, hempty⟩ := unwind_eq_nil hunwind
  rcases (vacant_run hrun hempty).hollow_or_getLast? with hgroup | hlast
  · exact hgroup
  · refine absurd ((afterOperand_eq_false_iff hrun).2 fun t ht => ?_) (by simp [hafter])
    rcases hlast t ht with hopening | ⟨last, rest, htoken, hframes⟩
    · rw [hopening]
      rfl
    · rw [htoken, Bool.eq_false_iff]
      intro hends
      obtain rfl := eq_star_of_endsOperand hends
      -- a star would have been applied before the operator
      have hdue := (unwind_eq_ok hunwind).2 .star t.position rest (hsame.trans hframes)
      cases op <;> simp [Operator.precedence] at hdue

/-! ### Places where an operand is due -/

/-- A closing parenthesis comes where an operand is due, or as many operands are added as are
wanted. -/
theorem exists_gap_or_balance (h : tokens.foldlM Parser.step p = .ok q)
    (hapart : Apart p.afterOperand tokens) :
    (∃ inside j last r, tokens = inside ++ ⟨j, .closing⟩ :: last ∧
      inside.foldlM Parser.step p = .ok r ∧ r.afterOperand = false) ∨
    q.operands.length + p.wanted = p.operands.length + q.wanted := by
  induction tokens generalizing p with
  | nil =>
    cases h
    exact .inr rfl
  | cons t tokens ih =>
    obtain ⟨r, hstep, hrest⟩ := Parser.run_cons_iff.1 h
    obtain ⟨hstart, hbehind⟩ := hapart
    rw [← Parser.afterOperand_step hstep] at hbehind
    have hbalance := Parser.balance_step hstep hstart
    by_cases hgap : t.token = .closing ∧ p.afterOperand = false
    · obtain ⟨j, token⟩ := t
      obtain ⟨rfl, hafter⟩ := hgap
      exact .inl ⟨[], j, tokens, p, rfl, rfl, hafter⟩
    · rw [if_neg hgap] at hbalance
      rcases ih hrest hbehind with ⟨inside, j, last, r', rfl, hinside, hafter⟩ | hrest
      · refine .inl ⟨t :: inside, j, last, r', rfl, ?_, hafter⟩
        exact Parser.run_cons_iff.2 ⟨r, hstep, hinside⟩
      · exact .inr (by omega)

/-- Some operator among tokens between others lacks an operand. -/
def LacksAmong (before since rest : List Placed) : Prop :=
  ∃ inside next other last, since = inside ++ ⟨next, .operator other⟩ :: last ∧
    LacksOperand (before ++ inside) other (last ++ rest)

theorem LacksAmong.append (h : LacksAmong before inside (behind ++ rest)) :
    LacksAmong before (inside ++ behind) rest := by
  obtain ⟨front, next, other, last, rfl, hlacks⟩ := h
  exact ⟨front, next, other, last ++ behind, by simp, by rwa [List.append_assoc]⟩

theorem head?_startsOperand_of_closing (j : Nat) (rest : List Placed) :
    ∀ t ∈ ((⟨j, .closing⟩ : Placed) :: rest).head?, t.token.startsOperand = false := by
  rintro t ⟨⟩
  rfl

/-- Where tokens break off behind an operator and no operand follows, the last operator lacks one,
unless a group was opened behind it. -/
theorem lacks_or_opening {r : Parser} (hpush : start.pushOperator op position = .ok pushed)
    (hrun : inside.foldlM Parser.step pushed = .ok r) (hafter : r.afterOperand = false)
    (hrest : ∀ t ∈ rest.head?, t.token.startsOperand = false) :
    LacksOperand before op (inside ++ rest) ∨
      LacksAmong (before ++ [⟨position, .operator op⟩]) inside rest ∨
      ∃ front i, inside = front ++ [⟨i, .opening⟩] := by
  have hne {other : Operator} (hends : (Token.operator other).endsOperand = false) :
      other ≠ .star := by
    rintro rfl
    exact nomatch hends
  induction inside using List.reverseRecOn with
  | nil =>
    obtain ⟨-, frames, operands, -, rfl⟩ := Parser.pushOperator_eq_ok_iff.1 hpush
    cases hrun
    exact .inl (.inr (.inl ⟨hne hafter, hrest⟩))
  | append_singleton front t _ =>
    obtain ⟨q, -, hstep⟩ := Parser.run_snoc_iff.1 hrun
    have hends := (Parser.afterOperand_step hstep).symm.trans hafter
    obtain ⟨i, token⟩ := t
    cases token with
    | operator other =>
      exact .inr (.inl ⟨front, i, other, [], rfl, .inr (.inl ⟨hne hends, hrest⟩)⟩)
    | opening => exact .inr (.inr ⟨front, i, rfl⟩)
    | _ => exact nomatch hends

/-! ### Hollow groups within a right operand -/

theorem Apart.endsOperand_eq_false {after : Bool} (hgroup : HollowGroup group)
    (h : Apart after (before ++ t :: (group ++ behind))) : t.token.endsOperand = false := by
  obtain ⟨i, j, inside, -, rfl⟩ := hgroup
  exact h.of_append.2.1 rfl

theorem Apart.startsOperand_eq_false {after : Bool} (hgroup : HollowGroup group)
    (h : Apart after (before ++ (group ++ t :: behind))) : t.token.startsOperand = false := by
  obtain ⟨i, j, inside, -, rfl⟩ := hgroup
  rw [List.cons_append, List.append_assoc, ← List.cons_append, ← List.append_assoc] at h
  refine Bool.eq_false_iff.2 fun hstart => ?_
  exact absurd (h.of_append.2.1 hstart) Bool.noConfusion

/-- An operator stands before a hollow group, or a group was opened there. -/
theorem lacks_before_hollow {after : Bool} {front last : List Placed} (hgroup : HollowGroup group)
    (hsince : since = front ++ (group ++ last)) (hapart : Apart after since) :
    LacksOperand before op (since ++ rest) ∨
      LacksAmong (before ++ [⟨position, .operator op⟩]) since rest ∨
      ∃ outside i, front = outside ++ [⟨i, .opening⟩] := by
  rcases List.eq_nil_or_concat' front with rfl | ⟨front, ⟨i, token⟩, rfl⟩
  · exact .inl (.inr (.inr ⟨group, hgroup, .inr ⟨last ++ rest, by simp [hsince]⟩⟩))
  · rw [List.append_assoc, List.singleton_append] at hsince
    have hends := Apart.endsOperand_eq_false hgroup (hsince ▸ hapart)
    cases token with
    | operator other =>
      exact .inr (.inl ⟨front, i, other, group ++ last, hsince,
        .inr (.inr ⟨group, hgroup, .inr ⟨last ++ rest, by simp⟩⟩)⟩)
    | opening => exact .inr (.inr ⟨front, i, rfl⟩)
    | _ => exact nomatch hends

/-- The largest hollow group around one stands next to an operator, where no group is open with
nothing but groups in it. -/
theorem lacks_of_hollow {after : Bool} {front last : List Placed}
    (hgroup : HollowGroup group) (hsince : since = front ++ (group ++ last))
    (hapart : Apart after since)
    (hopen : ∀ front i inside, since = front ++ ⟨i, .opening⟩ :: inside → ¬ Balanced inside) :
    LacksOperand before op (since ++ rest) ∨
      LacksAmong (before ++ [⟨position, .operator op⟩]) since rest := by
  induction last generalizing front group with
  | nil =>
    rcases lacks_before_hollow hgroup hsince hapart with hlacks | hlacks | ⟨front, i, rfl⟩
    · exact .inl hlacks
    · exact .inr hlacks
    · exact absurd hgroup.balanced (hopen front i group (by simp [hsince]))
  | cons t last ih =>
    rcases lacks_before_hollow hgroup hsince hapart with hlacks | hlacks | ⟨front, i, rfl⟩
    · exact .inl hlacks
    · exact .inr hlacks
    · have hstart := Apart.startsOperand_eq_false hgroup (hsince ▸ hapart)
      obtain ⟨j, token⟩ := t
      cases token with
      | operator other =>
        refine .inr ⟨front ++ ⟨i, .opening⟩ :: group, j, other, last, by simp [hsince], ?_⟩
        exact .inr (.inr ⟨group, hgroup,
          .inl ⟨before ++ ⟨position, .operator op⟩ :: (front ++ [⟨i, .opening⟩]), by simp⟩⟩)
      | closing =>
        have hlarger : HollowGroup (⟨i, .opening⟩ :: (group ++ [⟨j, .closing⟩])) :=
          ⟨i, j, group, hgroup.balanced, rfl⟩
        exact @ih _ front hlarger (by simp [hsince])
      | _ => exact nomatch hstart

/-! ### The operator that is blamed -/

theorem spans_of_append {depth : Nat} (inside last : List Placed)
    (h : (inside ++ last).foldlM op.depth? 0 = some depth) : op.Spans inside := by
  rw [List.foldlM_append] at h
  unfold Operator.Spans
  cases hinside : inside.foldlM op.depth? 0 with
  | none => simp [hinside] at h
  | some depth => rfl

namespace WaitsSince

/-- Above the operator only operators wait, so no group is open behind it. -/
theorem not_open (h : WaitsSince op position before since popped below start pushed p)
    (hframes : p.frames = popped ++ .operator op position :: below) (hpopped : openings popped = [])
    (front : List Placed) (i : Nat) (inside : List Placed)
    (hsince : since = front ++ ⟨i, .opening⟩ :: inside) : ¬ Balanced inside := by
  intro hinside
  obtain ⟨r, -, hgroup⟩ := Parser.run_append_iff.1 (hsince ▸ h.run_since)
  obtain ⟨after, hrun⟩ := hinside.run (r.openGroup i)
  obtain rfl := Except.ok.inj (hrun.symm.trans hgroup)
  cases popped with
  | nil => exact nomatch hframes
  | cons frame popped =>
    obtain ⟨rfl, -⟩ := List.cons.inj hframes
    exact nomatch hpopped

/-- Without a gap behind it, the operator found no operand at all. -/
theorem operands_eq_nil (h : WaitsSince op position before since popped below start pushed p)
    (hfail : p.operands.length + joined below ≤ joined p.frames) (hafter : p.afterOperand = true)
    (hbalance : p.operands.length + pushed.wanted = pushed.operands.length + p.wanted) :
    pushed.operands = [] := by
  have hframes := h.frames_eq
  obtain ⟨-, frames, operands, -, rfl⟩ := Parser.pushOperator_eq_ok_iff.1 h.push
  obtain ⟨-, rfl⟩ := List.cons.inj hframes
  have hends := op.joins_add_endsOperand
  simp only [Parser.wanted, joined, hafter, if_true] at hbalance
  show operands = []
  exact List.length_eq_zero_iff.1 (by omega)

theorem lacksWithin (h : WaitsSince op position before since popped below start pushed p)
    (hlacks : LacksAmong (before ++ [⟨position, .operator op⟩]) since rest) :
    LacksWithin before op position (since ++ rest) := by
  obtain ⟨inside, next, other, last, rfl, hlacks⟩ := hlacks
  have hdepth := h.depth
  rw [List.append_cons] at hdepth
  refine ⟨inside, next, other, last ++ rest, by simp, spans_of_append _ last hdepth, ?_⟩
  simpa using hlacks

/-- An operator for which no operand is left lacks one, or another in its right operand does. -/
theorem lacks (h : WaitsSince op position before since popped below start pushed p)
    (hframes : p.frames = popped ++ .operator op position :: below) (hpopped : openings popped = [])
    (hfail : p.operands.length + joined below ≤ joined p.frames)
    (hapart : Apart (Token.operator op).endsOperand since)
    (hrest : p.afterOperand = false → ∀ t ∈ rest.head?, t.token.startsOperand = false) :
    LacksOperand before op (since ++ rest) ∨ LacksWithin before op position (since ++ rest) := by
  have hopen := h.not_open hframes hpopped
  suffices hlacks : LacksOperand before op (since ++ rest) ∨
      LacksAmong (before ++ [⟨position, .operator op⟩]) since rest from
    hlacks.imp_right h.lacksWithin
  cases hafter : p.afterOperand with
  | false =>
    rcases lacks_or_opening h.push h.run_since hafter (hrest hafter) with
      hlacks | hlacks | ⟨front, i, hsince⟩
    · exact .inl hlacks
    · exact .inr hlacks
    · exact absurd .nil (hopen front i [] hsince)
  | true =>
    have hpushed : pushed.afterOperand = (Token.operator op).endsOperand := by
      obtain ⟨-, frames, operands, -, rfl⟩ := Parser.pushOperator_eq_ok_iff.1 h.push
      rfl
    rcases exists_gap_or_balance h.run_since (hpushed ▸ hapart) with
      ⟨inside, j, last, r, hsince, hinside, hgap⟩ | hbalance
    · rcases lacks_or_opening h.push hinside hgap
        (head?_startsOperand_of_closing j (last ++ rest)) with hlacks | hlacks | ⟨front, i, rfl⟩
      · exact .inl (by rwa [hsince, List.append_assoc])
      · exact .inr (hsince ▸ hlacks.append)
      · have hempty : HollowGroup [⟨i, .opening⟩, ⟨j, .closing⟩] := ⟨i, j, [], .nil, rfl⟩
        exact lacks_of_hollow hempty (by simpa using hsince) hapart hopen
    · obtain ⟨group, hgroup, hsuffix⟩ :=
        exists_hollow_of_push h.run_before h.push (h.operands_eq_nil hfail hafter hbalance)
      exact .inl (.inr (.inr ⟨group, hgroup, .inl hsuffix⟩))

end WaitsSince

/-- The error blames an operator that lacks an operand, or one that joins two and has another in its
right operand that does. -/
def Blames (tokens : List Placed) (error : Error) : Prop :=
  ∃ before op position behind, tokens = before ++ ⟨position, .operator op⟩ :: behind ∧
    error = .missingOperand op.char position ∧
    (LacksOperand before op behind ∨ op ≠ .star ∧ LacksWithin before op position behind)

/-- Right behind a star its operand is over. -/
theorem not_lacksWithin_star (hapart : Apart true behind) :
    ¬ LacksWithin before .star position behind := by
  rintro ⟨inside, next, other, last, rfl, hspans, -⟩
  cases inside with
  | nil => cases other <;> exact nomatch hspans
  | cons t inside =>
    obtain ⟨i, token⟩ := t
    cases token with
    | operator op => cases op <;> exact nomatch hspans
    | closing => exact nomatch hspans
    | _ => exact nomatch hapart.1 rfl

theorem Apart.of_append_left {after : Bool} (h : Apart after (since ++ rest)) :
    Apart after since := by
  cases rest with
  | nil => simpa using h
  | cons t rest => exact h.of_append.1

theorem blames_of_unwind (hrun : read.foldlM Parser.step {} = .ok p)
    (hapart : Apart false (read ++ rest))
    (hrest : p.afterOperand = false → ∀ t ∈ rest.head?, t.token.startsOperand = false)
    (h : unwind due p.frames p.operands = .error error) : Blames (read ++ rest) error := by
  obtain ⟨popped, op, position, below, hframes, hpopped, rfl, hfail⟩ := unwind_eq_error h
  obtain ⟨before, since, start, pushed, rfl, hsince⟩ := exists_waitsSince hrun hframes
  rw [List.append_assoc, List.cons_append] at hapart ⊢
  obtain ⟨-, hbehind⟩ := hapart.of_append
  refine ⟨before, op, position, since ++ rest, rfl, rfl, ?_⟩
  refine (hsince.lacks hframes hpopped hfail hbehind.of_append_left hrest).imp_right
    fun hwithin => ⟨?_, hwithin⟩
  rintro rfl
  exact not_lacksWithin_star hbehind hwithin

theorem blames_of_step (hrun : read.foldlM Parser.step {} = .ok p)
    (hapart : Apart false (read ++ t :: rest)) (h : p.step t = .error error)
    (hmissing : error.IsMissing) : Blames (read ++ t :: rest) error := by
  obtain ⟨i, token⟩ := t
  cases token with
  | operator op =>
    rcases Parser.pushOperator_eq_error_iff.1 h with ⟨hafter, rfl⟩ | ⟨hafter, hunwind⟩
    · exact ⟨read, op, i, rest, rfl, rfl, .inl (.inl ((afterOperand_eq_false_iff hrun).1 hafter))⟩
    · exact blames_of_unwind hrun hapart
        (fun hnot => absurd (hafter.symm.trans hnot) Bool.noConfusion) hunwind
  | closing =>
    rcases Parser.closeGroup_eq_error_iff.1 h with hunwind | ⟨rfl, -⟩
    · exact blames_of_unwind hrun hapart (fun _ => head?_startsOperand_of_closing i rest) hunwind
    · obtain ⟨_, _, herror⟩ := hmissing
      exact nomatch herror
  | _ => exact nomatch h

/-- A run fails at one of its tokens. -/
theorem Parser.exists_of_run_eq_error (h : tokens.foldlM step p = .error error) :
    ∃ read t rest q, tokens = read ++ t :: rest ∧ read.foldlM step p = .ok q ∧
      q.step t = .error error := by
  induction tokens generalizing p with
  | nil => exact nomatch h
  | cons t tokens ih =>
    rw [List.foldlM_cons] at h
    rcases bind_eq_error.1 h with hstep | ⟨r, hstep, hrest⟩
    · exact ⟨[], t, tokens, p, rfl, rfl, hstep⟩
    · obtain ⟨read, u, rest, q, rfl, hread, hfail⟩ := ih hrest
      exact ⟨t :: read, u, rest, q, rfl, run_cons_iff.2 ⟨r, hstep, hread⟩, hfail⟩

theorem blames_of_finish (hrun : tokens.foldlM Parser.step {} = .ok p) (hapart : Apart false tokens)
    (h : p.finish = .error error) (hmissing : error.IsMissing) : Blames tokens error := by
  rcases bind_eq_error.1 h with hunwind | ⟨⟨frames, operands⟩, hunwind, hend⟩
  · rw [← List.append_nil tokens] at hapart ⊢
    exact blames_of_unwind hrun hapart (fun _ t ht => nomatch ht) hunwind
  · obtain ⟨c, position, rfl⟩ := hmissing
    rcases unwind_all hunwind with rfl | ⟨opened, rest, rfl⟩
    · rcases operands with _ | ⟨top, _ | ⟨next, rest⟩⟩ <;> exact nomatch hend
    · exact nomatch hend

/-! ### Whole patterns -/

theorem blames_of_parseTokens (hapart : Apart false tokens) (h : parseTokens tokens = .error error)
    (hmissing : error.IsMissing) : Blames tokens error := by
  rcases bind_eq_error.1 h with hrun | ⟨p, hrun, hfinish⟩
  · obtain ⟨read, t, rest, p, rfl, hread, hstep⟩ := Parser.exists_of_run_eq_error hrun
    exact blames_of_step hread hapart hstep hmissing
  · exact blames_of_finish hrun hapart hfinish hmissing

/-- The operator that is said to miss an operand is one of the tokens with the concatenations. It
lacks one itself, or it joins two and another operator lacks one in its right operand. -/
theorem parse_blames_operator {c : Char}
    (h : parse alphabet markers pattern = .error (.missingOperand c position)) :
    ∃ tokens before op behind, tokenize alphabet markers pattern = .ok tokens ∧
      withConcatenations tokens = before ++ ⟨position, .operator op⟩ :: behind ∧ op.char = c ∧
      (LacksOperand before op behind ∨ op ≠ .star ∧ LacksWithin before op position behind) := by
  rcases bind_eq_error.1 h with htokenize | ⟨tokens, htokenize, hparse⟩
  · rcases tokenize_eq_error htokenize with heq | ⟨_, _, heq⟩ <;> exact nomatch heq
  · obtain ⟨before, op, i, behind, htokens, herror, hlacks⟩ :=
      blames_of_parseTokens (apart_concatenationsFrom false tokens) hparse ⟨c, position, rfl⟩
    obtain ⟨rfl, rfl⟩ := Error.missingOperand.inj herror
    exact ⟨tokens, before, op, behind, htokenize, htokens, rfl, hlacks⟩

/-- In `a|b&` the union is blamed. -/
theorem parse_blames_operator_union :
    ∃ tokens before op behind,
      tokenize (Alphabet.ofText ['a', 'b']) {} ['a', '|', 'b', '&'] = .ok tokens ∧
      withConcatenations tokens = before ++ ⟨1, .operator op⟩ :: behind ∧ op.char = '|' ∧
      (LacksOperand before op behind ∨ op ≠ .star ∧ LacksWithin before op 1 behind) :=
  parse_blames_operator (by decide)

/-- The operator that is blamed need not lack an operand: in `a|b&` the concatenation has taken both
operands of the union. -/
theorem not_parse_blames_lacking :
    ¬ ∀ (alphabet : Alphabet) (markers : Markers) (pattern : Text) (c : Char) (position : Nat),
      parse alphabet markers pattern = .error (.missingOperand c position) →
      ∃ tokens before op behind, tokenize alphabet markers pattern = .ok tokens ∧
        withConcatenations tokens = before ++ ⟨position, .operator op⟩ :: behind ∧ op.char = c ∧
        LacksOperand before op behind := by
  intro h
  obtain ⟨tokens, before, op, behind, htokens, hsplit, -, hlacks⟩ :=
    h (Alphabet.ofText ['a', 'b']) {} ['a', '|', 'b', '&'] '|' 1 (by decide)
  have htokenize : tokenize (Alphabet.ofText ['a', 'b']) {} ['a', '|', 'b', '&'] =
      .ok [⟨0, .symbol 'a'⟩, ⟨1, .operator .union⟩, ⟨2, .symbol 'b'⟩, ⟨3, .operator .concat⟩] := by
    decide
  obtain rfl := Except.ok.inj (htokenize.symm.trans htokens)
  have hwhole : [⟨0, .symbol 'a'⟩] ++ ⟨1, .operator .union⟩ ::
      [⟨2, .symbol 'b'⟩, ⟨3, .operator .concat⟩] = before ++ ⟨1, .operator op⟩ :: behind := hsplit
  obtain ⟨rfl, -, rfl⟩ := (List.append_cons_inj_of_notMem (by simp) (by simp)).1 hwhole
  rcases hlacks with hleft | ⟨-, hright⟩ | ⟨group, hgroup, hbeside⟩
  · exact absurd (hleft _ rfl) (by decide)
  · exact absurd (hright _ rfl) (by decide)
  · obtain ⟨i, hopening⟩ := hgroup.opening_mem
    rcases hbeside with hbefore | hbehind
    · exact absurd (hbefore.subset hopening) (by simp)
    · exact absurd (hbehind.subset hopening) (by simp)

end PatternLexer.Pattern
