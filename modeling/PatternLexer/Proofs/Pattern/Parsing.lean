import PatternLexer.Pattern.Grammar
import PatternLexer.Proofs.Pattern.Stacks

/-! The parser against the grammar. Whatever derives a tree is parsed to it, on top of any stacks.
Conversely the stacks hold the derivations of what was read, as long as every closed group ended in
an operand; once one did not, an operand is missing for good and the parser cannot end well. -/

namespace PatternLexer.Pattern

/-- The least precedence of an operator at a level of the grammar. -/
def Level.precedence : Level → Nat
  | sum => 1
  | product => 2
  | factor => 3

/-- The level of the operands that an operator joins from the left. -/
def Operator.level : Operator → Level
  | union => .sum
  | concat => .product
  | star => .factor

variable {op : Operator} {position : Nat} {due : Operator → Bool} {frames : List Frame}
  {operands : List Tree} {p q : Parser} {t : Placed} {tokens : List Placed} {s : List Token}
  {tree left : Tree} {level wide : Level}

/-! ### Levels and precedence -/

theorem Operator.precedence_eq (op : Operator) : op.precedence = op.level.precedence := by
  cases op <;> rfl

/-- A derivation at a level is one at every wider level. -/
theorem Derives.widen (h : Derives level s tree) (hle : wide.precedence ≤ level.precedence) :
    Derives wide s tree := by
  cases wide with
  | sum =>
    cases level with
    | sum => exact h
    | product => exact .product h
    | factor => exact .product (.factor h)
  | product =>
    cases level with
    | sum => exact absurd hle (by decide)
    | product => exact h
    | factor => exact .factor h
  | factor =>
    cases level with
    | factor => exact h
    | sum => exact absurd hle (by decide)
    | product => exact absurd hle (by decide)

/-- No operator on top binds as tightly as those of a level. -/
def Below (level : Level) (frames : List Frame) : Prop :=
  ∀ op position rest, frames = .operator op position :: rest → op.precedence < level.precedence

theorem Below.narrow (h : Below wide frames) (hle : wide.precedence ≤ level.precedence) :
    Below level frames := by
  intro op position rest heq
  have htop := h op position rest heq
  omega

theorem below_nil : Below level [] := fun _ _ _ h => nomatch h

theorem below_opening : Below level (.opening position :: frames) := fun _ _ _ h => nomatch h

theorem below_operator (h : op.precedence < level.precedence) :
    Below level (.operator op position :: frames) := by
  rintro op' position' rest heq
  obtain ⟨hframe, -⟩ := List.cons.inj heq
  obtain ⟨rfl, -⟩ := Frame.operator.inj hframe
  exact h

/-- Nothing is applied when the top does not bind tightly enough. -/
theorem unwind_of_below (h : Below op.level frames) (operands : List Tree) :
    unwind (fun top => op.precedence ≤ top.precedence) frames operands =
      .ok (frames, operands) := by
  rcases frames with _ | ⟨_ | ⟨top, position⟩, frames⟩
  · rfl
  · rfl
  · apply unwind_not_due
    have htop := h top position frames rfl
    rw [decide_eq_false_iff_not, op.precedence_eq]
    omega

/-! ### From derivations to runs -/

/-- At least the operators of a level are due. -/
def DueFrom (level : Level) (due : Operator → Bool) : Prop :=
  ∀ op, level.precedence ≤ op.precedence → due op = true

theorem DueFrom.narrow (h : DueFrom wide due) (hle : wide.precedence ≤ level.precedence) :
    DueFrom level due := by
  intro op hop
  apply h op
  omega

theorem dueFrom_operator (op : Operator) :
    DueFrom op.level fun top => op.precedence ≤ top.precedence := by
  intro top htop
  rwa [decide_eq_true_eq, op.precedence_eq]

/-- The run from one parser to another leaves a tree on top, once the operators of a level that
still wait are applied. -/
structure Yields (tokens : List Placed) (p : Parser) (level : Level) (tree : Tree)
    (q : Parser) : Prop where
  run : tokens.foldlM Parser.step p = .ok q
  afterOperand : q.afterOperand = true
  unwind_eq : ∀ due, DueFrom level due →
    unwind due q.frames q.operands = unwind due p.frames (tree :: p.operands)

theorem Yields.narrow (h : Yields tokens p wide tree q)
    (hle : level.precedence ≤ wide.precedence) : Yields tokens p level tree q :=
  ⟨h.run, h.afterOperand, fun due hdue => h.unwind_eq due (hdue.narrow hle)⟩

theorem yields_operand (h : p.step t = .ok (p.pushOperand tree)) :
    Yields [t] p level tree (p.pushOperand tree) where
  run := (Parser.run_singleton p t).trans h
  afterOperand := rfl
  unwind_eq _ _ := rfl

/-- An operator behind its left operand finds just this operand on top. -/
theorem Yields.push (op : Operator) (h : Yields tokens p op.level left q)
    (hbelow : Below op.level p.frames) (ht : t.token = .operator op) :
    (tokens ++ [t]).foldlM Parser.step p =
      .ok ⟨left :: p.operands, .operator op t.position :: p.frames,
        (Token.operator op).endsOperand⟩ := by
  have hunwind := (h.unwind_eq _ (dueFrom_operator op)).trans (unwind_of_below hbelow _)
  refine Parser.run_append_iff.2 ⟨q, h.run, ?_⟩
  rw [Parser.run_singleton, Parser.step, ht]
  exact Parser.pushOperator_eq_ok_iff.2 ⟨h.afterOperand, _, _, hunwind, rfl⟩

/-- The right operand of an operator that joins two follows at a narrower level. -/
theorem Yields.join (op : Operator) {sign : Placed} {behind : List Placed} {right : Tree}
    {q' : Parser} (h : Yields tokens p op.level left q) (hbelow : Below op.level p.frames)
    (hsign : sign.token = .operator op) (hright : Yields behind
      ⟨left :: p.operands, .operator op sign.position :: p.frames,
        (Token.operator op).endsOperand⟩ wide right q')
    (hwide : op.level.precedence ≤ wide.precedence)
    (hjoin : reduce op sign.position (right :: left :: p.operands) = .ok (tree :: p.operands)) :
    Yields (tokens ++ sign :: behind) p op.level tree q' where
  run := by
    rw [List.append_cons]
    exact Parser.run_append_iff.2 ⟨_, h.push op hbelow hsign, hright.run⟩
  afterOperand := hright.afterOperand
  unwind_eq due hdue := by
    have hop : due op = true := hdue op (Nat.le_of_eq op.precedence_eq.symm)
    rw [hright.unwind_eq due (hdue.narrow hwide), unwind_due hop hjoin]

/-- Where both sides of an operator are read, at its level and at a narrower one, the whole is. -/
theorem exists_yields_join (op : Operator) {s t : List Token} {right : Tree}
    (hwide : op.precedence < wide.precedence)
    (hjoin : ∀ position rest, reduce op position (right :: left :: rest) = .ok (tree :: rest))
    (hleft : ∀ {tokens p}, tokens.map Placed.token = s → Below op.level p.frames →
      ∃ q, Yields tokens p op.level left q)
    (hright : ∀ {tokens p}, tokens.map Placed.token = t → Below wide p.frames →
      ∃ q, Yields tokens p wide right q)
    (htokens : tokens.map Placed.token = s ++ .operator op :: t)
    (hbelow : Below op.level p.frames) : ∃ q, Yields tokens p op.level tree q := by
  obtain ⟨before, rest, rfl, hbefore, hrest⟩ := List.map_eq_append_iff.1 htokens
  obtain ⟨sign, behind, rfl, hsign, hbehind⟩ := List.map_eq_cons_iff.1 hrest
  obtain ⟨q, hq⟩ := hleft hbefore hbelow
  obtain ⟨q', hq'⟩ := hright hbehind
    (p := ⟨left :: p.operands, .operator op sign.position :: p.frames,
      (Token.operator op).endsOperand⟩) (below_operator hwide)
  have hle : op.level.precedence ≤ wide.precedence := by
    rw [← op.precedence_eq]
    omega
  exact ⟨q', hq.join op hbelow hsign hq' hle (hjoin _ _)⟩

/-- The parser reads a derivation on top of any stacks that leave its level alone. -/
theorem Derives.yields (h : Derives level s tree) (htokens : tokens.map Placed.token = s)
    (hbelow : Below level p.frames) : ∃ q, Yields tokens p level tree q := by
  induction h generalizing tokens p with
  | union _ _ ihl ihr =>
    exact exists_yields_join .union (by decide) (fun _ _ => rfl) ihl ihr htokens hbelow
  | product _ ih =>
    obtain ⟨q, hq⟩ := ih htokens (hbelow.narrow (by decide))
    exact ⟨q, hq.narrow (by decide)⟩
  | concat _ _ ihl ihr =>
    exact exists_yields_join .concat (by decide) (fun _ _ => rfl) ihl ihr htokens hbelow
  | factor _ ih =>
    obtain ⟨q, hq⟩ := ih htokens (hbelow.narrow (by decide))
    exact ⟨q, hq.narrow (by decide)⟩
  | star _ ih =>
    obtain ⟨before, rest, rfl, hbefore, hrest⟩ := List.map_eq_append_iff.1 htokens
    obtain ⟨sign, rfl, hsign⟩ := List.map_eq_singleton_iff.1 hrest
    obtain ⟨q, hoperand⟩ := ih hbefore hbelow
    refine ⟨_, Yields.push .star hoperand hbelow hsign, rfl, ?_⟩
    intro due hdue
    exact unwind_due (hdue .star (by decide)) rfl
  | @group _ inner _ ih =>
    obtain ⟨opening, rest, rfl, hopening, hrest⟩ := List.map_eq_cons_iff.1 htokens
    obtain ⟨inside, last, rfl, hinside, hlast⟩ := List.map_eq_append_iff.1 hrest
    obtain ⟨closing, rfl, hclosing⟩ := List.map_eq_singleton_iff.1 hlast
    obtain ⟨q, hq⟩ := ih hinside (p := p.openGroup opening.position) below_opening
    have hopen : p.step opening = .ok (p.openGroup opening.position) := by
      rw [Parser.step, hopening]
    have hclose : q.step closing = .ok (p.pushOperand inner) := by
      rw [Parser.step, hclosing]
      exact Parser.closeGroup_eq_ok_iff.2
        ⟨opening.position, _, _, hq.unwind_eq _ fun _ _ => rfl, rfl⟩
    refine ⟨p.pushOperand inner, ?_, rfl, fun _ _ => rfl⟩
    rw [← List.cons_append]
    refine Parser.run_append_iff.2 ⟨q, ?_, (Parser.run_singleton q closing).trans hclose⟩
    rw [List.foldlM_cons, hopen]
    exact hq.run
  | symbol c =>
    obtain ⟨⟨position, token⟩, rfl, rfl⟩ := List.map_eq_singleton_iff.1 htokens
    exact ⟨_, yields_operand rfl⟩
  | epsilon =>
    obtain ⟨⟨position, token⟩, rfl, rfl⟩ := List.map_eq_singleton_iff.1 htokens
    exact ⟨_, yields_operand rfl⟩
  | empty =>
    obtain ⟨⟨position, token⟩, rfl, rfl⟩ := List.map_eq_singleton_iff.1 htokens
    exact ⟨_, yields_operand rfl⟩

/-! ### From runs to derivations -/

/-- The stacks hold what was read and wait for an operand of the given level: derived left operands
lie below their operators, and every group is open. -/
inductive Waits : Level → List Frame → List Tree → List Token → Prop
  | base : Waits .sum [] [] []
  | opening {level : Level} {frames : List Frame} {operands : List Tree} {s : List Token}
    (position : Nat) :
    Waits level frames operands s →
    Waits .sum (.opening position :: frames) operands (s ++ [.opening])
  | union {frames : List Frame} {operands : List Tree} {s t : List Token} {left : Tree}
    (position : Nat) :
    Waits .sum frames operands s → Derives .sum t left →
    Waits .product (.operator .union position :: frames) (left :: operands)
      (s ++ (t ++ [.operator .union]))
  | concat {level : Level} {frames : List Frame} {operands : List Tree} {s t : List Token}
    {left : Tree} (position : Nat) :
    Waits level frames operands s → level.precedence ≤ Level.product.precedence →
    Derives .product t left →
    Waits .factor (.operator .concat position :: frames) (left :: operands)
      (s ++ (t ++ [.operator .concat]))

/-- The stacks hold what was read, the last of it a factor, perhaps with a star that waits. -/
inductive Holds : List Frame → List Tree → List Token → Prop
  | factor {level : Level} {frames : List Frame} {operands : List Tree} {s t : List Token}
    {tree : Tree} :
    Waits level frames operands s → Derives .factor t tree →
    Holds frames (tree :: operands) (s ++ t)
  | star {level : Level} {frames : List Frame} {operands : List Tree} {s t : List Token}
    {tree : Tree} (position : Nat) :
    Waits level frames operands s → Derives .factor t tree →
    Holds (.operator .star position :: frames) (tree :: operands) (s ++ (t ++ [.operator .star]))

theorem Waits.length_eq (h : Waits level frames operands s) : operands.length = joined frames := by
  induction h with
  | base => rfl
  | opening _ _ ih => exact ih
  | union _ _ _ ih => simp [joined, Operator.joins, ih, Nat.add_comm]
  | concat _ _ _ _ ih => simp [joined, Operator.joins, ih, Nat.add_comm]

/-- Exactly the operators of a level are due. -/
def DueAt (level : Level) (due : Operator → Bool) : Prop :=
  ∀ op, due op = true ↔ level.precedence ≤ op.precedence

theorem dueAt_operator (op : Operator) :
    DueAt op.level fun top => op.precedence ≤ top.precedence := by
  intro top
  rw [decide_eq_true_eq, op.precedence_eq]

theorem dueAt_all : DueAt .sum fun _ => true := by
  intro op
  cases op <;> decide

/-- Once what is due was applied, the top is the tree of a derivation at the given level, and the
stacks below wait for an operand of a level that is no narrower. -/
def Settles (wide : Level) (due : Operator → Bool) (frames : List Frame) (operands : List Tree)
    (s : List Token) : Prop :=
  ∃ level frames' operands' s' t' tree',
    unwind due frames operands = .ok (frames', tree' :: operands') ∧
    Waits level frames' operands' s' ∧ level.precedence ≤ wide.precedence ∧
    Derives wide t' tree' ∧ s = s' ++ t'

theorem Settles.of_unwind_eq {frames' : List Frame} {operands' : List Tree}
    (h : Settles wide due frames' operands' s)
    (heq : unwind due frames operands = unwind due frames' operands') :
    Settles wide due frames operands s := by
  unfold Settles
  rwa [heq]

/-- An operator that is due takes in its operands, and its sign joins their words. -/
theorem Settles.of_reduce {operands' : List Tree} {t₀ t : List Token}
    (h : Settles wide due frames operands' (s ++ (t₀ ++ .operator op :: t)))
    (hdue : due op = true) (hjoin : reduce op position operands = .ok operands') :
    Settles wide due (.operator op position :: frames) operands
      (s ++ (t₀ ++ [.operator op]) ++ t) := by
  have hword : s ++ (t₀ ++ [.operator op]) ++ t = s ++ (t₀ ++ .operator op :: t) := by
    simp
  rw [hword]
  exact h.of_unwind_eq (unwind_due hdue hjoin)

/-- With its tree on top, a derivation takes in the left operands below it, up to those whose
operators are not due. -/
theorem Waits.settles {narrow : Level} {t : List Token} (h : Waits level frames operands s)
    (ht : Derives narrow t tree) (hdue : DueAt wide due)
    (hlevel : level.precedence ≤ narrow.precedence) (hwide : wide.precedence ≤ narrow.precedence) :
    Settles wide due frames (tree :: operands) (s ++ t) := by
  have hsum : Level.sum.precedence ≤ wide.precedence := by cases wide <;> decide
  induction h generalizing narrow t tree with
  | base => exact ⟨.sum, [], [], [], t, tree, rfl, .base, hsum, ht.widen hwide, rfl⟩
  | opening position h _ =>
    exact ⟨.sum, _, _, _, t, tree, rfl, .opening position h, hsum, ht.widen hwide, rfl⟩
  | union position h hleft ih =>
    cases hop : due .union with
    | true =>
      have hjoined := Derives.union hleft (ht.widen hlevel)
      have hsettles := ih hjoined (by decide) ((hdue .union).1 hop)
      exact hsettles.of_reduce hop rfl
    | false =>
      have hnarrow : Level.product.precedence ≤ wide.precedence := by
        have hnot := mt (hdue .union).2 (by simp [hop])
        simp only [Level.precedence, Operator.precedence] at hnot ⊢
        omega
      exact ⟨.product, _, _, _, t, tree, unwind_not_due hop _, .union position h hleft, hnarrow,
        ht.widen hwide, rfl⟩
  | concat position h hle hleft ih =>
    cases hop : due .concat with
    | true =>
      have hjoined := Derives.concat hleft (ht.widen hlevel)
      have hsettles := ih hjoined hle ((hdue .concat).1 hop)
      exact hsettles.of_reduce hop rfl
    | false =>
      have hnarrow : Level.factor.precedence ≤ wide.precedence := by
        have hnot := mt (hdue .concat).2 (by simp [hop])
        simp only [Level.precedence, Operator.precedence] at hnot ⊢
        omega
      exact ⟨.factor, _, _, _, t, tree, unwind_not_due hop _, .concat position h hle hleft, hnarrow,
        ht.widen hwide, rfl⟩

theorem Holds.settles (h : Holds frames operands s) (hdue : DueAt wide due) :
    Settles wide due frames operands s := by
  have hfactor (level : Level) : level.precedence ≤ Level.factor.precedence := by
    cases level <;> decide
  cases h with
  | factor h ht => exact h.settles ht hdue (hfactor _) (hfactor _)
  | @star _ frames operands s t tree position h ht =>
    have hrun : unwind due (.operator .star position :: frames) (tree :: operands) =
        unwind due frames (.star tree :: operands) :=
      unwind_due ((hdue .star).2 (hfactor wide)) rfl
    exact (h.settles ht.star hdue (hfactor _) (hfactor _)).of_unwind_eq hrun

/-! ### What was read so far -/

/-- The stacks hold the derivations of all that was read. -/
inductive Reads : Parser → List Token → Prop
  | waits {level : Level} {frames : List Frame} {operands : List Tree} {s : List Token} :
    Waits level frames operands s → Reads ⟨operands, frames, false⟩ s
  | holds {frames : List Frame} {operands : List Tree} {s : List Token} :
    Holds frames operands s → Reads ⟨operands, frames, true⟩ s

/-- An operand is missing. -/
def Lacks (p : Parser) : Prop := p.operands.length < p.wanted

theorem Lacks.step (hp : Lacks p) (h : p.step t = .ok q)
    (hapart : t.token.startsOperand = true → p.afterOperand = false) : Lacks q := by
  have hbalance := Parser.balance_step h hapart
  unfold Lacks at hp ⊢
  omega

/-- A group that is closed where an operand was due leaves an operand missing. -/
theorem Waits.lacks_of_closing (hw : Waits level frames operands s)
    (ht : t.token = .closing) (h : Parser.step ⟨operands, frames, false⟩ t = .ok q) : Lacks q := by
  have hbalance : q.operands.length + joined frames + 1 = operands.length + q.wanted := by
    simpa [ht, Parser.wanted] using Parser.balance_step h fun _ => rfl
  have hlength := hw.length_eq
  unfold Lacks
  omega

/-- An operator behind an operand: its left operand is settled, and it waits for what follows. -/
theorem Holds.push (hp : Holds frames operands s)
    (h : Parser.pushOperator ⟨operands, frames, true⟩ op position = .ok q) :
    Reads q (s ++ [.operator op]) := by
  obtain ⟨level, frames', operands', s', u, left, hsettled, hwaits, hle, hleft, rfl⟩ :=
    hp.settles (dueAt_operator op)
  obtain ⟨-, frames₁, operands₁, hunwind, rfl⟩ := Parser.pushOperator_eq_ok_iff.1 h
  obtain ⟨rfl, rfl⟩ := Prod.mk.inj (Except.ok.inj (hsettled.symm.trans hunwind))
  rw [List.append_assoc]
  cases op with
  | union =>
    cases level with
    | sum => exact .waits (.union position hwaits hleft)
    | product => exact absurd hle (by decide)
    | factor => exact absurd hle (by decide)
  | concat => exact .waits (.concat position hwaits hle hleft)
  | star => exact .holds (.star position hwaits hleft)

/-- A group that is closed behind an operand becomes a factor. -/
theorem Holds.close (hp : Holds frames operands s)
    (h : Parser.closeGroup ⟨operands, frames, true⟩ position = .ok q) :
    Reads q (s ++ [.closing]) := by
  obtain ⟨level, frames', operands', s', u, tree, hsettled, hwaits, -, htree, rfl⟩ :=
    hp.settles dueAt_all
  obtain ⟨opened, frames₁, operands₁, hunwind, rfl⟩ := Parser.closeGroup_eq_ok_iff.1 h
  obtain ⟨rfl, rfl⟩ := Prod.mk.inj (Except.ok.inj (hsettled.symm.trans hunwind))
  cases hwaits with
  | opening _ hbelow =>
    have hgroup := Holds.factor hbelow (.group htree)
    simpa using Reads.holds hgroup

/-- A token more is read into the derivations, unless from now on an operand is missing. -/
theorem Reads.step (hp : Reads p s) (h : p.step t = .ok q)
    (hapart : t.token.startsOperand = true → p.afterOperand = false) :
    Reads q (s ++ [t.token]) ∨ Lacks q := by
  obtain ⟨position, token⟩ := t
  cases hp with
  | waits hwaits =>
    cases token with
    | symbol c =>
      cases h
      exact .inl (.holds (.factor hwaits (.symbol c)))
    | epsilon =>
      cases h
      exact .inl (.holds (.factor hwaits .epsilon))
    | empty =>
      cases h
      exact .inl (.holds (.factor hwaits .empty))
    | operator op =>
      exact absurd (Parser.pushOperator_eq_ok_iff.1 h).1 Bool.false_ne_true
    | opening =>
      cases h
      exact .inl (.waits (.opening position hwaits))
    | closing => exact .inr (hwaits.lacks_of_closing rfl h)
  | holds hholds =>
    cases token with
    | operator op => exact .inl (hholds.push h)
    | closing => exact .inl (hholds.close h)
    | _ => exact absurd (hapart rfl) Bool.noConfusion

/-- Over a whole run. -/
theorem Reads.run (hp : Reads p s ∨ Lacks p) (h : tokens.foldlM Parser.step p = .ok q)
    (hapart : Apart p.afterOperand tokens) : Reads q (s ++ tokens.map Placed.token) ∨ Lacks q := by
  induction tokens generalizing p s with
  | nil =>
    cases h
    simpa using hp
  | cons t tokens ih =>
    rw [List.foldlM_cons] at h
    obtain ⟨r, hstep, hrest⟩ := bind_eq_ok.1 h
    obtain ⟨hstart, hbehind⟩ := hapart
    rw [← Parser.afterOperand_step hstep] at hbehind
    have hr : Reads r (s ++ [t.token]) ∨ Lacks r := by
      rcases hp with hp | hp
      · exact hp.step hstep hstart
      · exact .inr (hp.step hstep hstart)
    simpa using ih hr hrest hbehind

/-! ### Whole patterns -/

/-- No parser that lacks an operand ends well. -/
theorem Lacks.finish_ne_ok (hp : Lacks p) : p.finish ≠ .ok tree := by
  intro h
  have hlength := length_unwind (Parser.finish_eq_ok_iff.1 h)
  simp only [joined, List.length_singleton] at hlength
  unfold Lacks Parser.wanted at hp
  split at hp <;> omega

theorem Reads.derives_of_finish (hp : Reads p s) (h : p.finish = .ok tree) :
    Derives .sum s tree := by
  have hunwind := Parser.finish_eq_ok_iff.1 h
  cases hp with
  | waits hwaits =>
    have hlength := length_unwind hunwind
    have hheld := hwaits.length_eq
    simp only [joined, List.length_singleton] at hlength
    omega
  | holds hholds =>
    obtain ⟨level, frames', operands', s', u, tree', hsettled, hwaits, -, htree, rfl⟩ :=
      hholds.settles dueAt_all
    obtain ⟨rfl, heq⟩ := Prod.mk.inj (Except.ok.inj (hsettled.symm.trans hunwind))
    obtain ⟨rfl, rfl⟩ := List.cons.inj heq
    cases hwaits with
    | base => exact htree

theorem parseTokens_of_derives (h : Derives .sum (tokens.map Placed.token) tree) :
    parseTokens tokens = .ok tree := by
  obtain ⟨q, hq⟩ := h.yields (p := {}) rfl below_nil
  refine bind_eq_ok.2 ⟨q, hq.run, Parser.finish_eq_ok_iff.2 ?_⟩
  exact hq.unwind_eq _ fun _ _ => rfl

theorem derives_of_parseTokens (hapart : Apart false tokens) (h : parseTokens tokens = .ok tree) :
    Derives .sum (tokens.map Placed.token) tree := by
  obtain ⟨q, hrun, hfinish⟩ := bind_eq_ok.1 h
  rcases Reads.run (.inl (.waits .base)) hrun hapart with hq | hq
  · exact hq.derives_of_finish hfinish
  · exact absurd hfinish hq.finish_ne_ok

/-- With its concatenation signs written, a list of tokens is parsed to a tree exactly when it
derives this tree, which is the only one, and is refused when it derives none. -/
theorem parseTokens_iff_derives (tokens : List Placed) :
    (∀ tree, parseTokens (withConcatenations tokens) = .ok tree ↔
      Derives .sum ((withConcatenations tokens).map Placed.token) tree) ∧
    (∀ tree tree', Derives .sum ((withConcatenations tokens).map Placed.token) tree →
      Derives .sum ((withConcatenations tokens).map Placed.token) tree' → tree = tree') ∧
    ((∀ tree, ¬ Derives .sum ((withConcatenations tokens).map Placed.token) tree) ↔
      ∃ error, parseTokens (withConcatenations tokens) = .error error) := by
  have hiff (tree : Tree) : parseTokens (withConcatenations tokens) = .ok tree ↔
      Derives .sum ((withConcatenations tokens).map Placed.token) tree :=
    ⟨derives_of_parseTokens (apart_concatenationsFrom false tokens), parseTokens_of_derives⟩
  refine ⟨hiff, ?_, ?_⟩
  · intro tree tree' h h'
    have hparse := (hiff tree).2 h
    have hparse' := (hiff tree').2 h'
    exact Except.ok.inj (hparse.symm.trans hparse')
  · cases hparse : parseTokens (withConcatenations tokens) with
    | error error => simp [← hiff, hparse]
    | ok tree => simp [← hiff, hparse]

/-- The tokens of `c(a|b)*` derive the tree with the group under the star, and those of `c(a|)`
derive none, although the union finds two operands on the stack. -/
theorem parseTokens_iff_derives_group :
    Derives .sum [.symbol 'c', .operator .concat, .opening, .symbol 'a', .operator .union,
      .symbol 'b', .closing, .operator .star]
      (.concat (.symbol 'c') (.star (.union (.symbol 'a') (.symbol 'b')))) ∧
    ∀ tree, ¬ Derives .sum [.symbol 'c', .operator .concat, .opening, .symbol 'a',
      .operator .union, .closing] tree := by
  constructor
  · exact ((parseTokens_iff_derives [⟨0, .symbol 'c'⟩, ⟨1, .opening⟩, ⟨2, .symbol 'a'⟩,
      ⟨3, .operator .union⟩, ⟨4, .symbol 'b'⟩, ⟨5, .closing⟩, ⟨6, .operator .star⟩]).1 _).1 rfl
  · exact (parseTokens_iff_derives [⟨0, .symbol 'c'⟩, ⟨1, .opening⟩, ⟨2, .symbol 'a'⟩,
      ⟨3, .operator .union⟩, ⟨4, .closing⟩]).2.2.2 ⟨_, rfl⟩

end PatternLexer.Pattern
