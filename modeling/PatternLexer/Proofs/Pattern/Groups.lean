import Mathlib.Data.List.Basic
import Mathlib.Data.List.Induction
import PatternLexer.Pattern.Parentheses
import PatternLexer.Proofs.Pattern.Stacks

/-! Groups that are open. Reading parentheses from left to right keeps the positions of the groups
that are open, and fails at the first closing parenthesis that finds none. What is open in the end
was never closed, and whatever else was opened or closed has its partner. -/

namespace PatternLexer.Pattern

variable {i j : Nat} {opened found : List Nat} {list before inside behind : List Placed}
  {t : Placed}

/-! ### Balanced lists -/

theorem Balanced.append (h : Balanced before) (k : Balanced behind) :
    Balanced (before ++ behind) := by
  induction h with
  | nil => exact k
  | group i j hinside _ _ ih =>
    rw [List.cons_append, List.append_assoc]
    exact .group i j hinside ih

theorem Closes.append (h : Closes list i j) (before behind : List Placed) :
    Closes (before ++ (list ++ behind)) i j := by
  obtain ⟨left, inside, right, hinside, rfl⟩ := h
  exact ⟨before ++ left, inside, right ++ behind, hinside, by simp⟩

/-- Every parenthesis of a balanced list has its partner there. -/
theorem Balanced.exists_closes (h : Balanced list) (ht : t ∈ list) :
    ∃ i j, Closes list i j ∧ (t = ⟨i, .opening⟩ ∨ t = ⟨j, .closing⟩) := by
  induction h with
  | nil => exact absurd ht List.not_mem_nil
  | @group inside behind i j hinside _ ih ihbehind =>
    have hgroup : Closes (⟨i, .opening⟩ :: (inside ++ ⟨j, .closing⟩ :: behind)) i j :=
      ⟨[], inside, behind, hinside, rfl⟩
    rcases List.mem_cons.1 ht with rfl | ht
    · exact ⟨i, j, hgroup, .inl rfl⟩
    · rcases List.mem_append.1 ht with ht | ht
      · obtain ⟨k, l, hcloses, heq⟩ := ih ht
        exact ⟨k, l, hcloses.append [_] _, heq⟩
      · rcases List.mem_cons.1 ht with rfl | ht
        · exact ⟨i, j, hgroup, .inr rfl⟩
        · obtain ⟨k, l, hcloses, heq⟩ := ihbehind ht
          have hbehind := hcloses.append (⟨i, .opening⟩ :: (inside ++ [⟨j, .closing⟩])) []
          exact ⟨k, l, by simpa using hbehind, heq⟩

theorem Balanced.exists_closes_opening (h : Balanced list) (ht : ⟨i, .opening⟩ ∈ list) :
    ∃ j, Closes list i j := by
  obtain ⟨k, l, hcloses, heq⟩ := h.exists_closes ht
  simp only [Placed.mk.injEq, reduceCtorEq, and_true, and_false, or_false] at heq
  exact ⟨l, heq ▸ hcloses⟩

theorem Balanced.exists_closes_closing (h : Balanced list) (ht : ⟨j, .closing⟩ ∈ list) :
    ∃ i, Closes list i j := by
  obtain ⟨k, l, hcloses, heq⟩ := h.exists_closes ht
  simp only [Placed.mk.injEq, reduceCtorEq, and_true, and_false, false_or] at heq
  exact ⟨k, heq ▸ hcloses⟩

/-! ### Reading from left to right -/

def Placed.isParenthesis (t : Placed) : Bool := t.token = .opening || t.token = .closing

theorem Placed.isParenthesis_iff :
    t.isParenthesis = true ↔ t.token = .opening ∨ t.token = .closing := by
  simp [Placed.isParenthesis]

theorem Balanced.isParenthesis (h : Balanced list) : ∀ t ∈ list, t.isParenthesis = true := by
  induction h with
  | nil => exact fun t ht => absurd ht List.not_mem_nil
  | group i j _ _ ih ihbehind =>
    intro t ht
    simp only [List.mem_cons, List.mem_append] at ht
    rcases ht with rfl | ht | rfl | ht
    · rfl
    · exact ih t ht
    · rfl
    · exact ihbehind t ht

/-- The positions of the open groups, the innermost first, once one token more was read. Only a
closing parenthesis fails, when no group is open. -/
def track (opened : List Nat) (t : Placed) : Except Nat (List Nat) :=
  match t.token, opened with
  | .opening, _ => .ok (t.position :: opened)
  | .closing, [] => .error t.position
  | .closing, _ :: rest => .ok rest
  | _, _ => .ok opened

/-- Only parentheses matter. -/
theorem foldlM_track_filter (list : List Placed) (opened : List Nat) :
    (list.filter Placed.isParenthesis).foldlM track opened = list.foldlM track opened := by
  rw [List.foldlM_filter]
  congr
  funext opened t
  obtain ⟨position, token⟩ := t
  cases token <;> rfl

/-- A balanced list leaves the open groups as they are. -/
theorem Balanced.foldlM_track (h : Balanced list) (opened : List Nat) :
    list.foldlM track opened = .ok opened := by
  induction h generalizing opened with
  | nil => rfl
  | @group inside behind i j _ _ ih ihbehind =>
    show (inside ++ ⟨j, .closing⟩ :: behind).foldlM track (i :: opened) = .ok opened
    rw [List.foldlM_append, ih]
    exact ihbehind opened

/-- Reading does not look below the groups that it closes. -/
theorem foldlM_track_append (h : list.foldlM track opened = .ok found) (outer : List Nat) :
    list.foldlM track (opened ++ outer) = .ok (found ++ outer) := by
  induction list generalizing opened with
  | nil =>
    cases h
    rfl
  | cons t list ih =>
    rw [List.foldlM_cons] at h ⊢
    obtain ⟨next, hstep, hrest⟩ := bind_eq_ok.1 h
    refine bind_eq_ok.2 ⟨next ++ outer, ?_, ih hrest⟩
    obtain ⟨position, token⟩ := t
    cases token <;> cases opened <;> cases hstep <;> rfl

/-- As far as a balanced list was read, the groups around it are still open. -/
theorem Balanced.exists_foldlM_track (h : Balanced (before ++ behind)) :
    ∃ found, ∀ outer, before.foldlM track outer = .ok (found ++ outer) := by
  have hread := h.foldlM_track []
  rw [List.foldlM_append] at hread
  obtain ⟨found, hbefore, -⟩ := bind_eq_ok.1 hread
  exact ⟨found, foldlM_track_append hbefore⟩

/-- In the list the groups at the given positions, the innermost first, are opened and not closed;
all others are balanced. -/
def Leaves (list : List Placed) : List Nat → Prop
  | [] => Balanced list
  | i :: opened => ∃ before inside, list = before ++ ⟨i, .opening⟩ :: inside ∧
      Leaves before opened ∧ Balanced inside

theorem Leaves.append (h : Leaves list opened) (k : Balanced behind) :
    Leaves (list ++ behind) opened := by
  cases opened with
  | nil => exact Balanced.append h k
  | cons i opened =>
    obtain ⟨before, inside, rfl, hbefore, hinside⟩ := h
    exact ⟨before, inside ++ behind, by simp, hbefore, hinside.append k⟩

/-- What reading keeps are the groups that are left open. -/
theorem leaves_of_foldlM_track (hlist : ∀ t ∈ list, t.isParenthesis = true)
    (h : list.foldlM track [] = .ok opened) : Leaves list opened := by
  induction list using List.reverseRecOn generalizing opened with
  | nil =>
    cases h
    exact .nil
  | append_singleton list t ih =>
    rw [List.foldlM_append] at h
    obtain ⟨found, hread, hlast⟩ := bind_eq_ok.1 h
    have hfound := ih (fun u hu => hlist u (List.mem_append_left _ hu)) hread
    have hstep : track found t = .ok opened := by simpa using hlast
    obtain ⟨position, token⟩ := t
    have hlast := hlist _ (List.mem_append_right _ (List.mem_singleton_self _))
    rcases Placed.isParenthesis_iff.1 hlast with rfl | rfl
    · cases hstep
      exact ⟨list, [], rfl, hfound, .nil⟩
    · cases found with
      | nil => exact nomatch hstep
      | cons i found =>
        cases hstep
        obtain ⟨before, inside, rfl, hbefore, hinside⟩ := hfound
        have hgroup := hbefore.append (.group i position hinside .nil)
        simpa using hgroup

theorem balanced_iff : Balanced list ↔
    (∀ t ∈ list, t.isParenthesis = true) ∧ list.foldlM track [] = .ok [] :=
  ⟨fun h => ⟨h.isParenthesis, h.foldlM_track []⟩, fun h => leaves_of_foldlM_track h.1 h.2⟩

instance : DecidablePred Balanced := fun _ => decidable_of_iff _ balanced_iff.symm

/-- A closing parenthesis that was read has closed a group. -/
theorem Leaves.exists_closes (h : Leaves list opened) (ht : ⟨j, .closing⟩ ∈ list) :
    ∃ i, Closes list i j := by
  induction opened generalizing list with
  | nil => exact Balanced.exists_closes_closing h ht
  | cons k opened ih =>
    obtain ⟨before, inside, rfl, hbefore, hinside⟩ := h
    rcases List.mem_append.1 ht with ht | ht
    · obtain ⟨i, hcloses⟩ := ih hbefore ht
      exact ⟨i, hcloses.append [] _⟩
    · have hmem : ⟨j, .closing⟩ ∈ inside := by simpa using ht
      obtain ⟨i, hcloses⟩ := hinside.exists_closes_closing hmem
      have happend := hcloses.append (before ++ [⟨k, .opening⟩]) []
      exact ⟨i, by simpa using happend⟩

theorem track_eq_error_iff : track opened t = .error i ↔ opened = [] ∧ t = ⟨i, .closing⟩ := by
  obtain ⟨position, token⟩ := t
  cases token <;> cases opened <;> simp [track]

/-- Reading fails at the first closing parenthesis before which all groups are closed. -/
theorem exists_of_foldlM_track_eq_error (h : list.foldlM track opened = .error i) :
    ∃ before behind, list = before ++ ⟨i, .closing⟩ :: behind ∧
      before.foldlM track opened = .ok [] := by
  induction list generalizing opened with
  | nil => exact nomatch h
  | cons t list ih =>
    rw [List.foldlM_cons] at h
    rcases bind_eq_error.1 h with hstep | ⟨found, hstep, hrest⟩
    · obtain ⟨rfl, rfl⟩ := track_eq_error_iff.1 hstep
      exact ⟨[], list, rfl, rfl⟩
    · obtain ⟨before, behind, rfl, hbefore⟩ := ih hrest
      refine ⟨t :: before, behind, rfl, ?_⟩
      rw [List.foldlM_cons, hstep]
      exact hbefore

/-! ### One group in another -/

/-- Every group holds one group more and nothing else, but for the innermost, which is empty. -/
inductive Nested : List Placed → Prop
  | nil : Nested []
  | group {inside : List Placed} (i j : Nat) : Nested inside →
    Nested (⟨i, .opening⟩ :: (inside ++ [⟨j, .closing⟩]))

theorem Nested.balanced (h : Nested list) : Balanced list := by
  induction h with
  | nil => exact .nil
  | group i j _ ih => exact .group i j ih .nil

theorem Apart.snoc {after : Bool} (h : Apart after list) (ht : t.token.startsOperand = false) :
    Apart after (list ++ [t]) := by
  induction list generalizing after with
  | nil => exact ⟨fun hstart => absurd (ht.symm.trans hstart) Bool.noConfusion, trivial⟩
  | cons u list ih => exact ⟨h.1, ih h.2⟩

theorem Apart.of_append {after : Bool} (h : Apart after (before ++ t :: behind)) :
    Apart after before ∧ Apart t.token.endsOperand behind := by
  induction before generalizing after with
  | nil => exact ⟨trivial, h.2⟩
  | cons u before ih =>
    obtain ⟨hbefore, hbehind⟩ := ih h.2
    exact ⟨⟨h.1, hbefore⟩, hbehind⟩

theorem Nested.apart (h : Nested list) : Apart false list := by
  induction h with
  | nil => trivial
  | group i j _ ih => exact ⟨fun _ => rfl, ih.snoc rfl⟩

/-- Between two groups side by side there is an operator. -/
theorem Balanced.nested (h : Balanced list) (hapart : Apart false list) : Nested list := by
  induction h with
  | nil => exact .nil
  | group i j _ hbehind ih =>
    obtain ⟨hinside, hnext⟩ := hapart.2.of_append
    cases hbehind with
    | nil => exact .group i j (ih hinside)
    | group k l _ _ => exact absurd (hnext.1 rfl) Bool.noConfusion

theorem Nested.isParenthesis (h : Nested list) : ∀ t ∈ list, t.isParenthesis = true :=
  h.balanced.isParenthesis

/-- As many groups are closed as are opened, and all behind the last that is opened. -/
theorem nested_iff : Nested list ↔
    ∃ n, list.map Placed.token = List.replicate n .opening ++ List.replicate n .closing := by
  constructor
  · intro h
    induction h with
    | nil => exact ⟨0, rfl⟩
    | @group inside i j _ ih =>
      obtain ⟨n, hn⟩ := ih
      refine ⟨n + 1, ?_⟩
      rw [List.map_cons, List.map_append, hn, List.replicate_succ, List.replicate_succ',
        List.cons_append, List.append_assoc]
      rfl
  · rintro ⟨n, hn⟩
    induction n generalizing list with
    | zero =>
      rw [List.map_eq_nil_iff.1 hn]
      exact .nil
    | succ n ih =>
      rw [List.replicate_succ, List.replicate_succ', List.cons_append, ← List.append_assoc] at hn
      obtain ⟨⟨i, _⟩, rest, rfl, rfl, hrest⟩ := List.map_eq_cons_iff.1 hn
      obtain ⟨inside, last, rfl, hinside, hlast⟩ := List.map_eq_append_iff.1 hrest
      obtain ⟨⟨j, _⟩, rfl, rfl⟩ := List.map_eq_singleton_iff.1 hlast
      exact .group i j (ih hinside)

/-! ### Ascending positions -/

/-- The parentheses stand one behind the other. -/
def Ascends (list : List Placed) : Prop := list.Pairwise fun s t => s.position < t.position

theorem Ascends.notMem (h : Ascends (before ++ t :: behind)) : t ∉ before ∧ t ∉ behind := by
  obtain ⟨-, hbehind, hbefore⟩ := List.pairwise_append.1 h
  constructor
  · intro ht
    exact Nat.lt_irrefl _ (hbefore t ht t List.mem_cons_self)
  · intro ht
    exact Nat.lt_irrefl _ ((List.pairwise_cons.1 hbehind).1 t ht)

/-- Where all groups are closed, there is none that a closing parenthesis could belong to. -/
theorem Ascends.not_closes_closing (h : Ascends (before ++ ⟨j, .closing⟩ :: behind))
    (hbefore : before.foldlM track [] = .ok []) (i : Nat) :
    ¬ Closes (before ++ ⟨j, .closing⟩ :: behind) i j := by
  rintro ⟨left, inside, right, hinside, heq⟩
  obtain ⟨hleft, hright⟩ := h.notMem
  rw [← List.cons_append, ← List.append_assoc,
    List.append_cons_inj_of_notMem hleft hright] at heq
  obtain ⟨rfl, -⟩ := heq
  -- the group opened at `i` would still be open
  rw [List.foldlM_append] at hbefore
  obtain ⟨opened, -, hgroup⟩ := bind_eq_ok.1 hbefore
  have hopen : (⟨i, .opening⟩ :: inside).foldlM track opened = .ok (i :: opened) :=
    hinside.foldlM_track (i :: opened)
  exact nomatch hopen.symm.trans hgroup

/-- A group with nothing but closed groups behind its opening is not closed. -/
theorem Ascends.not_closes_opening (h : Ascends (before ++ ⟨i, .opening⟩ :: inside))
    (hinside : Balanced inside) (j : Nat) :
    ¬ Closes (before ++ ⟨i, .opening⟩ :: inside) i j := by
  rintro ⟨left, closed, right, hclosed, heq⟩
  obtain ⟨hleft, hright⟩ := h.notMem
  rw [List.append_cons_inj_of_notMem hleft hright] at heq
  obtain ⟨-, -, rfl⟩ := heq
  have hread := hinside.foldlM_track []
  rw [List.foldlM_append, hclosed.foldlM_track] at hread
  exact nomatch hread

/-! ### The parenthesis to blame -/

/-- Where reading fails, the closing parenthesis is the first that belongs to none. -/
theorem Ascends.first_unopened (h : Ascends list) (hlist : ∀ t ∈ list, t.isParenthesis = true)
    (hread : list.foldlM track [] = .error i) :
    ⟨i, .closing⟩ ∈ list ∧ (∀ k, ¬ Closes list k i) ∧
      ∀ j < i, ⟨j, .closing⟩ ∈ list → ∃ k, Closes list k j := by
  obtain ⟨before, behind, rfl, hbefore⟩ := exists_of_foldlM_track_eq_error hread
  refine ⟨by simp, h.not_closes_closing hbefore, fun j hlt hj => ?_⟩
  have hbalanced : Leaves before [] :=
    leaves_of_foldlM_track (fun t ht => hlist t (List.mem_append_left _ ht)) hbefore
  obtain ⟨-, hbehind, -⟩ := List.pairwise_append.1 h
  have hmem : ⟨j, .closing⟩ ∈ before := by
    rcases List.mem_append.1 hj with hj | hj
    · exact hj
    · rcases List.mem_cons.1 hj with heq | hj
      · obtain ⟨rfl, -⟩ := Placed.mk.inj heq
        exact absurd hlt (Nat.lt_irrefl _)
      · exact absurd ((List.pairwise_cons.1 hbehind).1 _ hj) (Nat.lt_asymm hlt)
  obtain ⟨k, hcloses⟩ := hbalanced.exists_closes hmem
  exact ⟨k, hcloses.append [] _⟩

/-- Where a group is open in the end, the innermost is the last that is not closed. -/
theorem Ascends.last_unclosed (h : Ascends list) (hlist : ∀ t ∈ list, t.isParenthesis = true)
    (hread : list.foldlM track [] = .ok (i :: opened)) :
    (∀ j, ⟨j, .closing⟩ ∈ list → ∃ k, Closes list k j) ∧
      ⟨i, .opening⟩ ∈ list ∧ (∀ j, ¬ Closes list i j) ∧
      ∀ k, i < k → ⟨k, .opening⟩ ∈ list → ∃ j, Closes list k j := by
  have hleaves := leaves_of_foldlM_track hlist hread
  refine ⟨fun j hj => hleaves.exists_closes hj, ?_⟩
  obtain ⟨before, inside, rfl, -, hinside⟩ := hleaves
  refine ⟨by simp, h.not_closes_opening hinside, fun k hlt hk => ?_⟩
  obtain ⟨-, -, hbefore⟩ := List.pairwise_append.1 h
  have hmem : ⟨k, .opening⟩ ∈ inside := by
    rcases List.mem_append.1 hk with hk | hk
    · exact absurd (hbefore _ hk _ List.mem_cons_self) (Nat.lt_asymm hlt)
    · rcases List.mem_cons.1 hk with heq | hk
      · obtain ⟨rfl, -⟩ := Placed.mk.inj heq
        exact absurd hlt (Nat.lt_irrefl _)
      · exact hk
  obtain ⟨j, hcloses⟩ := hinside.exists_closes_opening hmem
  have happend := hcloses.append (before ++ [⟨i, .opening⟩]) []
  exact ⟨j, by simpa using happend⟩

end PatternLexer.Pattern
