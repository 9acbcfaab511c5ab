import Mathlib.Data.List.TakeWhile
import PatternLexer.Proofs.Pattern.Waiting

/-! The stack of frames at any point of a run. Its open groups are those parentheses among the
tokens read that nothing has closed, in the order in which they were read. Between two of them an
operator binds more tightly than the one below it, so there are at most as many as precedences. A
token applies operators, down to an open group at most; the groups that are still open at the end of
the tokens are met there and refused. -/

namespace PatternLexer.Pattern

variable {i : Nat} {opened found : List Nat} {list before inside behind read : List Placed}
  {frames segment below : List Frame} {p : Parser}

/-! ### Groups that nothing closes -/

/-- Behind an opening parenthesis there are closed groups, and then the parenthesis that closes its
own. -/
def ClosedIn (behind : List Placed) : Prop :=
  ∃ inside j rest, Balanced inside ∧ behind = inside ++ ⟨j, .closing⟩ :: rest

theorem closedIn_iff : ClosedIn list ↔
    ∃ n < list.length, Balanced (list.take n) ∧ list[n]?.map Placed.token = some .closing := by
  constructor
  · rintro ⟨inside, j, rest, hinside, rfl⟩
    exact ⟨inside.length, by simp, by simpa using hinside, by simp⟩
  · rintro ⟨n, hn, hinside, hclosing⟩
    rw [List.getElem?_eq_getElem hn, Option.map_some, Option.some.injEq] at hclosing
    refine ⟨list.take n, list[n].position, list.drop (n + 1), hinside, ?_⟩
    rw [← hclosing, List.getElem_cons_drop, List.take_append_drop]

instance : DecidablePred ClosedIn := fun _ => decidable_of_iff _ closedIn_iff.symm

/-- Of a list of parentheses, the positions of the opening ones that none behind them closes. -/
def unclosed : List Placed → List Nat
  | [] => []
  | t :: behind =>
    if t.token = .opening ∧ ¬ ClosedIn behind then t.position :: unclosed behind
    else unclosed behind

/-- Closed groups leave nothing open. -/
theorem Balanced.unclosed_append (h : Balanced inside) (rest : List Placed) :
    unclosed (inside ++ rest) = unclosed rest := by
  induction h generalizing rest with
  | nil => rfl
  | @group inside behind i j hinside _ ih ihbehind =>
    have hclosed : ClosedIn (inside ++ ⟨j, .closing⟩ :: (behind ++ rest)) :=
      ⟨inside, j, behind ++ rest, hinside, rfl⟩
    rw [List.cons_append, List.append_assoc, List.cons_append, unclosed,
      if_neg fun h => h.2 hclosed, ih, unclosed, if_neg fun h => nomatch h.1]
    exact ihbehind rest

/-- Nothing that is open before an open group is closed behind it. -/
theorem closedIn_append_iff (hinside : Balanced inside) :
    ClosedIn (before ++ ⟨i, .opening⟩ :: inside) ↔ ClosedIn before := by
  constructor
  · rintro ⟨closed, j, rest, hclosed, heq⟩
    rcases List.append_eq_append_iff.1 heq with ⟨across, rfl, hacross⟩ | ⟨across, rfl, hacross⟩
    · cases across with
      | nil => exact nomatch hacross
      | cons t across =>
        obtain ⟨rfl, rfl⟩ := List.cons.inj hacross
        -- the open group would be closed by what is balanced behind it
        have hread := hclosed.foldlM_track []
        rw [List.foldlM_append] at hread
        obtain ⟨opened, -, hgroup⟩ := bind_eq_ok.1 hread
        obtain ⟨found, hopen⟩ := hinside.exists_foldlM_track
        simpa using hgroup.symm.trans (hopen (i :: opened))
    · cases across with
      | nil => exact nomatch hacross
      | cons t across =>
        obtain ⟨rfl, -⟩ := List.cons.inj hacross
        exact ⟨closed, j, across, hclosed, rfl⟩
  · rintro ⟨closed, j, rest, hclosed, rfl⟩
    exact ⟨closed, j, rest ++ ⟨i, .opening⟩ :: inside, hclosed, by simp⟩

theorem Balanced.not_closedIn (h : Balanced list) : ¬ ClosedIn list := by
  rintro ⟨inside, j, rest, hinside, rfl⟩
  have hread := h.foldlM_track []
  rw [List.foldlM_append, hinside.foldlM_track] at hread
  exact nomatch hread

theorem unclosed_append_opening (hinside : Balanced inside) :
    unclosed (before ++ ⟨i, .opening⟩ :: inside) = unclosed before ++ [i] := by
  induction before with
  | nil =>
    have hnil : unclosed inside = [] := by simpa [unclosed] using hinside.unclosed_append []
    simp [unclosed, hinside.not_closedIn, hnil]
  | cons t before ih =>
    simp only [List.cons_append, unclosed, closedIn_append_iff hinside, ih]
    split <;> rfl

/-- What is left open is what nothing closes. -/
theorem Leaves.unclosed_eq (h : Leaves list opened) : unclosed list = opened.reverse := by
  induction opened generalizing list with
  | nil => simpa [unclosed] using Balanced.unclosed_append h []
  | cons i opened ih =>
    obtain ⟨before, inside, rfl, hbefore, hinside⟩ := h
    rw [unclosed_append_opening hinside, ih hbefore, List.reverse_cons]

theorem sublist_unclosed (list : List Placed) :
    (unclosed list).Sublist (list.map Placed.position) := by
  induction list with
  | nil => exact .slnil
  | cons t list ih =>
    rw [unclosed, List.map_cons]
    split
    · exact ih.cons_cons _
    · exact ih.cons _

/-! ### Operators between two groups -/

/-- An open group has the least precedence. -/
def Frame.precedence : Frame → Nat
  | .opening _ => 0
  | .operator op _ => op.precedence

theorem Frame.precedence_le (frame : Frame) : frame.precedence ≤ 3 := by
  rcases frame with _ | ⟨_ | _ | _, _⟩ <;> simp [precedence, Operator.precedence]

theorem Operator.precedence_pos (op : Operator) : 0 < op.precedence := by
  cases op <;> decide

/-- Right below an operator there is a frame with a lower precedence, if there is any. -/
theorem Rising.precedence_head? {op : Operator} (h : Rising (.operator op i :: frames)) :
    ∀ frame ∈ frames.head?, frame.precedence < op.precedence := by
  intro frame hframe
  obtain ⟨rest, rfl⟩ := List.head?_eq_some_iff.1 hframe
  cases frame with
  | opening position => exact op.precedence_pos
  | operator lower position => exact h.1 lower position rest rfl

theorem Rising.pairwise (h : Rising (segment ++ below)) (hsegment : openings segment = []) :
    (segment.map Frame.precedence).Pairwise (· > ·) := by
  refine List.IsChain.pairwise ?_
  induction segment with
  | nil => exact .nil
  | cons frame segment ih =>
    cases frame with
    | opening position => exact nomatch hsegment
    | operator op position =>
      have hrest := ih h.2 hsegment
      cases segment with
      | nil => exact .singleton _
      | cons lower segment =>
        exact List.isChain_cons_cons.2 ⟨h.precedence_head? lower rfl, hrest⟩

/-- Above the highest group there are no more operators than precedences up to the bound on the top,
and no more than three above each of the others and below them all. -/
theorem Rising.length_le (h : Rising frames) {bound : Nat}
    (hbound : ∀ frame ∈ frames.head?, frame.precedence ≤ bound) :
    frames.length ≤ 4 * (openings frames).length + bound := by
  induction frames generalizing bound with
  | nil => exact Nat.zero_le _
  | cons frame frames ih =>
    have hframe := hbound frame rfl
    cases frame with
    | opening position =>
      -- below a group the precedences are free again, up to the greatest
      have hrest := ih h fun frame _ => frame.precedence_le
      simp only [List.length_cons, openings]
      omega
    | operator op position =>
      have hrest := ih h.2 fun lower hlower =>
        Nat.le_sub_one_of_lt (h.precedence_head? lower hlower)
      have hpos := op.precedence_pos
      simp only [Frame.precedence] at hframe
      simp only [List.length_cons, openings]
      omega

/-! ### Frames that are applied -/

/-- An operator joins its operands. An open group is refused. -/
def Frame.apply (operands : List Tree) : Frame → Except Error (List Tree)
  | .operator op position => reduce op position operands
  | .opening position => .error (.unclosedOpening position)

/-- What is left when everything was applied has to be a single tree. -/
def onlyTree : List Tree → Except Error Tree
  | [] => .error .emptyExpression
  | [tree] => .ok tree
  | operands => .error (.danglingOperands operands.length)

/-- The operators that a token applies. -/
def Parser.due (p : Parser) (t : Placed) : Operator → Bool :=
  match t.token with
  | .operator op => fun top => p.afterOperand && op.precedence ≤ top.precedence
  | .closing => fun _ => true
  | _ => fun _ => false

/-- Whether a frame on top of the stack is applied, when the given operators are due. -/
def Frame.isDue (due : Operator → Bool) : Frame → Bool
  | .operator op _ => due op
  | .opening _ => false

/-- The frames that a token applies, from the top of the stack on. -/
def Parser.applied (p : Parser) (t : Placed) : List Frame :=
  p.frames.takeWhile (Frame.isDue (p.due t))

/-- The frames below those that a token applies. -/
def Parser.kept (p : Parser) (t : Placed) : List Frame :=
  p.frames.dropWhile (Frame.isDue (p.due t))

/-- What a token does to the stacks once the frames that it applies are off. -/
def Parser.settle (p : Parser) (t : Placed) : Except Error Parser :=
  match t.token with
  | .symbol c => .ok (p.pushOperand (.symbol c))
  | .epsilon => .ok (p.pushOperand .epsilon)
  | .empty => .ok (p.pushOperand .empty)
  | .operator op =>
    if p.afterOperand then
      .ok ⟨p.operands, .operator op t.position :: p.frames, (Token.operator op).endsOperand⟩
    else .error (.missingOperand op.char t.position)
  | .opening => .ok (p.openGroup t.position)
  | .closing =>
    match p.frames with
    | .opening _ :: frames => .ok ⟨p.operands, frames, true⟩
    | _ => .error (.unexpectedClosing t.position)

/-- Frames are applied one after the other from the top on, as long as they are due. -/
theorem unwind_eq (due : Operator → Bool) (frames : List Frame) (operands : List Tree) :
    unwind due frames operands =
      (frames.takeWhile (Frame.isDue due)).foldlM Frame.apply operands >>= fun operands =>
        .ok (frames.dropWhile (Frame.isDue due), operands) := by
  induction frames generalizing operands with
  | nil => rfl
  | cons frame frames ih =>
    cases frame with
    | opening position => rfl
    | operator op position =>
      cases hdue : due op with
      | false =>
        have hframe : ¬ Frame.isDue due (.operator op position) = true := by
          simp [Frame.isDue, hdue]
        rw [List.takeWhile_cons_of_neg hframe, List.dropWhile_cons_of_neg hframe,
          unwind_not_due hdue]
        rfl
      | true =>
        have hframe : Frame.isDue due (.operator op position) = true := hdue
        rw [List.takeWhile_cons_of_pos hframe, List.dropWhile_cons_of_pos hframe, List.foldlM_cons,
          bind_assoc, unwind, if_pos hdue]
        exact bind_congr ih

theorem unwind_none (frames : List Frame) (operands : List Tree) :
    unwind (fun _ => false) frames operands = .ok (frames, operands) := by
  rcases frames with _ | ⟨_ | _, _⟩ <;> rfl

namespace Parser

theorem step_eq_unwind (p : Parser) (t : Placed) :
    p.step t = unwind (p.due t) p.frames p.operands >>= fun (frames, operands) =>
      settle ⟨operands, frames, p.afterOperand⟩ t := by
  obtain ⟨position, token⟩ := t
  cases token with
  | operator op =>
    obtain ⟨operands, frames, after⟩ := p
    cases after with
    | false =>
      show _ = unwind (fun _ => false) frames operands >>= _
      rw [unwind_none]
      rfl
    | true => rfl
  | closing =>
    refine bind_congr fun (frames, operands) => ?_
    rcases frames with _ | ⟨_ | _, _⟩ <;> rfl
  | _ =>
    show _ = unwind (fun _ => false) p.frames p.operands >>= _
    rw [unwind_none]
    rfl

/-- A token applies frames from the top on, and only then changes the stacks itself. -/
theorem step_eq (p : Parser) (t : Placed) :
    p.step t = (p.applied t).foldlM Frame.apply p.operands >>= fun operands =>
      settle ⟨operands, p.kept t, p.afterOperand⟩ t := by
  rw [step_eq_unwind, unwind_eq, bind_assoc]
  rfl

theorem applied_append_kept (p : Parser) (t : Placed) : p.applied t ++ p.kept t = p.frames :=
  List.takeWhile_append_dropWhile

theorem opening_notMem_applied (p : Parser) (t : Placed) (i : Nat) :
    .opening i ∉ p.applied t := by
  intro hmem
  have hdue : Frame.isDue (p.due t) (.opening i) = true := List.mem_takeWhile_imp hmem
  exact Bool.false_ne_true hdue

/-- No token finds a group that is still open wrong. -/
theorem step_ne_unclosedOpening (p : Parser) (t : Placed) (i : Nat) :
    p.step t ≠ .error (.unclosedOpening i) := by
  intro h
  rcases track_of_step_eq_error h with ⟨_, _, heq⟩ | ⟨_, heq, -⟩ <;> exact nomatch heq

/-- At the end of the tokens all frames are applied, whatever they are. -/
theorem finish_eq (p : Parser) :
    p.finish = p.frames.foldlM Frame.apply p.operands >>= onlyTree := by
  obtain ⟨operands, frames, after⟩ := p
  induction frames generalizing operands with
  | nil => rcases operands with _ | ⟨_, _ | _⟩ <;> rfl
  | cons frame frames ih =>
    cases frame with
    | opening position => rfl
    | operator op position =>
      rw [List.foldlM_cons, bind_assoc]
      have hfinish : finish ⟨operands, .operator op position :: frames, after⟩ =
          reduce op position operands >>= fun operands => finish ⟨operands, frames, after⟩ := by
        rw [finish, unwind, if_pos rfl, bind_assoc]
        rfl
      rw [hfinish]
      exact bind_congr ih

end Parser

/-- At any point of a run the open groups on the stack are the opening parentheses read that nothing
has closed, in order, and so at ascending positions where the parentheses stand at such. Between two
of them the precedences of the operators rise from the bottom to the top, so there are at most three
operators for each group and three outside of all. A token applies operators on top of the stack and
no open group, which is refused at the end of the tokens only. -/
theorem run_orders_frames (h : read.foldlM Parser.step {} = .ok p) :
    (openings p.frames).reverse = unclosed (read.filter Placed.isParenthesis) ∧
    (Ascends (read.filter Placed.isParenthesis) → (openings p.frames).reverse.Pairwise (· < ·)) ∧
    (∀ above segment below, p.frames = above ++ (segment ++ below) → openings segment = [] →
      (segment.map Frame.precedence).Pairwise (· > ·)) ∧
    p.frames.length ≤ 3 * ((openings p.frames).length + 1) + (openings p.frames).length ∧
    (∀ t, p.step t = ((p.applied t).foldlM Frame.apply p.operands >>= fun operands =>
        Parser.settle ⟨operands, p.kept t, p.afterOperand⟩ t) ∧
      p.applied t ++ p.kept t = p.frames ∧ (∀ i, .opening i ∉ p.applied t) ∧
      ∀ i, p.step t ≠ .error (.unclosedOpening i)) ∧
    p.finish = (p.frames.foldlM Frame.apply p.operands >>= onlyTree) := by
  have hrising : Rising p.frames := Rising.run (p := {}) trivial h
  have htrack : (read.filter Placed.isParenthesis).foldlM track [] = .ok (openings p.frames) :=
    (foldlM_track_filter read []).trans (Parser.track_run h)
  have hleaves : Leaves (read.filter Placed.isParenthesis) (openings p.frames) :=
    leaves_of_foldlM_track (fun t ht => (List.mem_filter.1 ht).2) htrack
  refine ⟨hleaves.unclosed_eq.symm, fun hascends => ?_, fun above segment below hframes => ?_, ?_,
    fun t => ?_, p.finish_eq⟩
  · rw [← hleaves.unclosed_eq]
    exact (List.pairwise_map.2 hascends).sublist (sublist_unclosed _)
  · exact Rising.pairwise (Rising.of_append (hframes ▸ hrising))
  · have hlength := hrising.length_le fun frame _ => frame.precedence_le
    omega
  · exact ⟨p.step_eq t, p.applied_append_kept t, p.opening_notMem_applied t,
      p.step_ne_unclosedOpening t⟩

/-- In `(a(b)|c&(d*` the second group is closed. The union and the concatenation wait above the
first one, and the star above the last, which is refused when the pattern ends there. -/
theorem run_orders_frames_nested :
    let read := withConcatenations [⟨0, .opening⟩, ⟨1, .symbol 'a'⟩, ⟨2, .opening⟩,
      ⟨3, .symbol 'b'⟩, ⟨4, .closing⟩, ⟨5, .operator .union⟩, ⟨6, .symbol 'c'⟩,
      ⟨7, .operator .concat⟩, ⟨8, .opening⟩, ⟨9, .symbol 'd'⟩, ⟨10, .operator .star⟩]
    let p : Parser := ⟨[.symbol 'd', .symbol 'c', .concat (.symbol 'a') (.symbol 'b')],
      [.operator .star 10, .opening 8, .operator .concat 7, .operator .union 5, .opening 0], true⟩
    read.foldlM Parser.step {} = .ok p ∧ Ascends (read.filter Placed.isParenthesis) ∧
    [0, 8] = unclosed (read.filter Placed.isParenthesis) ∧ [0, 8].Pairwise (· < ·) ∧
    [2, 1].Pairwise (· > ·) ∧ p.applied ⟨11, .closing⟩ = [.operator .star 10] ∧
    p.finish = .error (.unclosedOpening 8) := by
  intro read p
  have hrun : read.foldlM Parser.step {} = .ok p := rfl
  have hascends : Ascends (read.filter Placed.isParenthesis) := by
    unfold Ascends
    decide
  obtain ⟨hopen, hsorted, hrising, -, -, hfinish⟩ := run_orders_frames hrun
  exact ⟨hrun, hascends, hopen, hsorted hascends,
    hrising [.operator .star 10, .opening 8] [.operator .concat 7, .operator .union 5]
      [.opening 0] rfl rfl, rfl, hfinish⟩

end PatternLexer.Pattern
