import Mathlib.Algebra.GroupWithZero.Nat
import PatternLexer.Proofs.Automaton.Tables

/-! Tables put together by operations one after the other. How many states there will be is known
from the operations alone. If a word holds their number, nothing fails on the way, and the table is
that of the fragment made in the same way; if not, checked sums overflow. A few doublings make so
many states out of one. -/

namespace PatternLexer

namespace Assembly

/-- Two parts that are made without a fault, and combined without one. -/
theorem exists_table_of_parts {left right : Assembly} {f : Fragment}
    (op : Mode → Table → Table → Except Fault Table)
    (hl : ∃ t, (∀ mode, left.table mode = .ok t) ∧ t.Represents left.fragment)
    (hr : ∃ u, (∀ mode, right.table mode = .ok u) ∧ u.Represents right.fragment)
    (hop : ∀ t u, t.Represents left.fragment → u.Represents right.fragment →
      ∃ v, (∀ mode, op mode t u = .ok v) ∧ v.Represents f) :
    ∃ v, (∀ mode, (do op mode (← left.table mode) (← right.table mode)) = .ok v) ∧
      v.Represents f := by
  obtain ⟨t, ht, hrt⟩ := hl
  obtain ⟨u, hu, hru⟩ := hr
  obtain ⟨v, hv, hrv⟩ := hop t u hrt hru
  exact ⟨v, fun mode => bind_eq_ok.2 ⟨t, ht mode, bind_eq_ok.2 ⟨u, hu mode, hv mode⟩⟩, hrv⟩

/-- There is no fault as long as there is room for the states, and no mode makes a difference. -/
theorem exists_table (a : Assembly) (hroom : a.fragment.size < wordSize) :
    ∃ t, (∀ mode, a.table mode = .ok t) ∧ t.Represents a.fragment := by
  induction a with
  | symbol c => exact Table.represents_leaf (.symbol c)
  | epsilon => exact Table.represents_leaf .epsilon
  | empty => exact ⟨_, fun _ => rfl, Table.represents_empty⟩
  | embed host guest hh hg =>
    rw [fragment, Fragment.size_embed] at hroom
    refine exists_table_of_parts (fun mode t u => do return (← t.embed mode u).host)
      (hh (by omega)) (hg (by omega)) fun t u ht hu => ?_
    rw [← ht.size, ← hu.size] at hroom
    have hembed := Table.embed_eq_ok (hu.inRange guest.built_fragment.inRange) hroom
    exact ⟨_, fun mode => bind_eq_ok.2 ⟨_, hembed mode, rfl⟩, ht.embedding hu⟩
  | concatenate left right hl hr =>
    rw [fragment, Fragment.size_concatenate] at hroom
    refine exists_table_of_parts Table.concatenate (hl (by omega)) (hr (by omega))
      fun t u ht hu => ?_
    rw [← ht.size, ← hu.size] at hroom
    exact ht.concatenate hu left.built_fragment.inRange right.built_fragment.inRange hroom
  | alternate left right hl hr =>
    rw [fragment, Fragment.size_alternate] at hroom
    refine exists_table_of_parts Table.alternate (hl (by omega)) (hr (by omega))
      fun t u ht hu => ?_
    rw [← ht.size, ← hu.size] at hroom
    exact ht.alternate hu left.built_fragment.inRange right.built_fragment.inRange hroom
  | star operand h =>
    rw [fragment, Fragment.size_star] at hroom
    obtain ⟨t, ht, hrt⟩ := h (by omega)
    rw [← hrt.size] at hroom
    obtain ⟨v, hv, hrv⟩ := hrt.star operand.built_fragment.inRange hroom
    exact ⟨v, fun mode => bind_eq_ok.2 ⟨t, ht mode, hv mode⟩, hrv⟩

/-- A sum overflows in one of two parts, or else where they are combined. -/
theorem checked_parts_eq_error {left right : Assembly} (op : Table → Table → Except Fault Table)
    (hl : wordSize ≤ left.fragment.size → left.table .checked = .error .overflow)
    (hr : wordSize ≤ right.fragment.size → right.table .checked = .error .overflow)
    (hop : ∀ t u, t.Represents left.fragment → u.Represents right.fragment →
      op t u = .error .overflow) :
    (do op (← left.table .checked) (← right.table .checked)) = .error .overflow := by
  rcases Nat.lt_or_ge left.fragment.size wordSize with hroom | hfull
  · obtain ⟨t, ht, hrt⟩ := left.exists_table hroom
    refine bind_eq_error.2 (.inr ⟨t, ht .checked, ?_⟩)
    rcases Nat.lt_or_ge right.fragment.size wordSize with hroom | hfull
    · obtain ⟨u, hu, hru⟩ := right.exists_table hroom
      exact bind_eq_error.2 (.inr ⟨u, hu .checked, hop t u hrt hru⟩)
    · exact bind_eq_error.2 (.inl (hr hfull))
  · exact bind_eq_error.2 (.inl (hl hfull))

/-- Without room for the states some sum overflows before any assertion fails. -/
theorem checked_table_eq_error (a : Assembly) (hfull : wordSize ≤ a.fragment.size) :
    a.table .checked = .error .overflow := by
  induction a with
  | symbol c => exact absurd (show wordSize ≤ 2 from hfull) (by decide)
  | epsilon => exact absurd (show wordSize ≤ 2 from hfull) (by decide)
  | empty => exact absurd (show wordSize ≤ 1 from hfull) (by decide)
  | embed host guest hh hg =>
    rw [fragment, Fragment.size_embed] at hfull
    refine checked_parts_eq_error (fun t u => do return (← t.embed .checked u).host) hh hg
      fun t u ht hu => bind_eq_error.2 (.inl (Table.checked_embed_eq_error ?_))
    rwa [ht.size, hu.size]
  | concatenate left right hl hr =>
    rw [fragment, Fragment.size_concatenate] at hfull
    refine checked_parts_eq_error _ hl hr fun t u ht hu => Table.checked_concatenate_eq_error ?_
    rwa [ht.size, hu.size]
  | alternate left right hl hr =>
    rw [fragment, Fragment.size_alternate] at hfull
    refine checked_parts_eq_error _ hl hr fun t u ht hu =>
      Table.checked_alternate_eq_error (hu.inRange right.built_fragment.inRange) ?_
    rwa [ht.size, hu.size]
  | star operand h =>
    rw [fragment, Fragment.size_star] at hfull
    rcases Nat.lt_or_ge operand.fragment.size wordSize with hroom | hover
    · obtain ⟨t, ht, hrt⟩ := operand.exists_table hroom
      rw [← hrt.size] at hfull
      have hstar := hrt.checked_star_eq_error operand.built_fragment.inRange hfull
      exact bind_eq_error.2 (.inr ⟨t, ht .checked, hstar⟩)
    · exact bind_eq_error.2 (.inl (h hover))

theorem represents {a : Assembly} {mode : Mode} {t : Table} (ht : a.table mode = .ok t)
    (hroom : a.fragment.size < wordSize) : t.Represents a.fragment := by
  obtain ⟨u, hu, hrepresents⟩ := a.exists_table hroom
  obtain rfl := Except.ok.inj ((hu mode).symm.trans ht)
  exact hrepresents

/-- What is put together to the same fragment in two ways has the same table. -/
theorem table_congr {a b : Assembly} (h : a.fragment = b.fragment)
    (hroom : a.fragment.size < wordSize) :
    ∃ t, (∀ mode, a.table mode = .ok t) ∧ ∀ mode, b.table mode = .ok t := by
  obtain ⟨t, ht, hrt⟩ := a.exists_table hroom
  obtain ⟨u, hu, hru⟩ := b.exists_table (h ▸ hroom)
  rw [h] at hrt
  obtain rfl := hrt.eq hru
  exact ⟨t, ht, hu⟩

end Assembly

/-- Where there was no fault there was room. -/
theorem Table.Built.exists_assembly {t : Table} (h : t.Built) :
    ∃ a : Assembly, a.fragment.size < wordSize ∧ (∀ mode, a.table mode = .ok t) ∧
      t.Represents a.fragment := by
  obtain ⟨a, ha⟩ := h
  have hroom : a.fragment.size < wordSize := by
    refine Nat.lt_of_not_le fun hfull => ?_
    exact nomatch ha.symm.trans (a.checked_table_eq_error hfull)
  obtain ⟨u, hu, hrepresents⟩ := a.exists_table hroom
  obtain rfl := Except.ok.inj (ha.symm.trans (hu .checked))
  exact ⟨a, hroom, hu, hrepresents⟩

/-! ### Numbers of states that no word holds -/

namespace Assembly

/-- One state, embedded in itself over and over. -/
def doubled : Nat → Assembly
  | 0 => empty
  | n + 1 => (doubled n).embed (doubled n)

/-- A symbol in which two states are embedded, then four, and so on. -/
def padded (c : Char) : Nat → Assembly
  | 0 => symbol c
  | n + 1 => (padded c n).embed (doubled (n + 1))

theorem size_doubled (n : Nat) : (doubled n).fragment.size = 2 ^ n := by
  induction n with
  | zero => rfl
  | succ n ih => rw [doubled, fragment, Fragment.size_embed, ih, Nat.pow_succ, Nat.mul_two]

theorem wordSize_le_doubled : wordSize ≤ (doubled 64).fragment.size :=
  Nat.le_of_eq (size_doubled 64).symm

theorem size_padded (c : Char) (n : Nat) : (padded c n).fragment.size = 2 ^ (n + 1) := by
  induction n with
  | zero => rfl
  | succ n ih =>
    rw [padded, fragment, Fragment.size_embed, ih, size_doubled, Nat.pow_succ 2 (n + 1),
      Nat.mul_two]

/-- States without transitions are only counted when they are embedded. -/
theorem unchecked_embed_states (host : Table) (n : Nat) :
    (host.embed .unchecked { size := n }).map Embedding.host =
      .ok { host with size := (host.size + n) % wordSize } := rfl

theorem unchecked_table_doubled (n : Nat) :
    (doubled n).table .unchecked = .ok { size := 2 ^ n % wordSize } := by
  induction n with
  | zero => rfl
  | succ n ih =>
    refine bind_eq_ok.2 ⟨_, ih, bind_eq_ok.2 ⟨_, ih, ?_⟩⟩
    refine (unchecked_embed_states _ _).trans ?_
    rw [← Nat.add_mod, ← Nat.mul_two, ← Nat.pow_succ]

theorem unchecked_table_padded (c : Char) (n : Nat) :
    (padded c n).table .unchecked = .ok {
      size := 2 ^ (n + 1) % wordSize
      accepting := [2]
      filed := [(1, [⟨1, .symbol c, 2⟩])] } := by
  induction n with
  | zero => rfl
  | succ n ih =>
    refine bind_eq_ok.2 ⟨_, ih, bind_eq_ok.2 ⟨_, unchecked_table_doubled (n + 1), ?_⟩⟩
    refine (unchecked_embed_states _ _).trans ?_
    rw [← Nat.add_mod, ← Nat.mul_two, ← Nat.pow_succ]

end Assembly

/-! ### What holds of every table -/

/-- What a table keeps to, whatever it is put together from. -/
structure Table.WellFormed (t : Table) : Prop extends t.InRange where
  ascending : t.accepting.Pairwise (· < ·)
  symbolsAlone : ∀ e ∈ t.transitions, ∀ c, e.label = .symbol c →
    t.transitionsFrom e.source = [e] ∧ e.source ∉ t.accepting

theorem Table.Represents.wellFormed {t : Table} {f : Fragment} (h : t.Represents f)
    (hf : f.Built) : t.WellFormed := by
  refine ⟨h.inRange hf.inRange, ?_, ?_⟩
  · rw [h.accepting]
    exact hf.pairwise_accepting
  · rintro ⟨s, label, target⟩ he c rfl
    obtain ⟨halone, hacc⟩ := hf.symbolsAlone s c target (h.mem_transitions he)
    rw [h.transitionsFrom, h.accepting, halone]
    exact ⟨rfl, hacc⟩

/-- Whatever is put together, no assertion fails on the way. If words cannot hold the number of its
states, checked sums stop at an overflow. If they can, checked and unchecked sums make one table,
and the table keeps to its form: all numbers in it are states, transitions are filed under their
source, accepting states ascend without repetition, and a symbol is read on the one transition of a
state that does not accept. -/
theorem Assembly.table_wellFormed (a : Assembly) :
    a.table .checked ≠ .error .outOfRange ∧
    (wordSize ≤ a.fragment.size → a.table .checked = .error .overflow) ∧
    (a.fragment.size < wordSize → ∃ t, (∀ mode, a.table mode = .ok t) ∧
      t.Represents a.fragment ∧ t.WellFormed ∧ t.accepting.Nodup) := by
  have hfull := a.checked_table_eq_error
  have hroom (h : a.fragment.size < wordSize) : ∃ t, (∀ mode, a.table mode = .ok t) ∧
      t.Represents a.fragment ∧ t.WellFormed ∧ t.accepting.Nodup := by
    obtain ⟨t, ht, hrepresents⟩ := a.exists_table h
    have hform := hrepresents.wellFormed a.built_fragment
    exact ⟨t, ht, hrepresents, hform, hform.ascending.imp Nat.ne_of_lt⟩
  refine ⟨fun hfault => ?_, hfull, hroom⟩
  rcases Nat.lt_or_ge a.fragment.size wordSize with h | h
  · obtain ⟨t, ht, -⟩ := hroom h
    exact nomatch hfault.symm.trans (ht .checked)
  · exact nomatch hfault.symm.trans (hfull h)

-- A transition to a number that is no state would have failed the assertion.
example : Table.empty.addTransition .checked ⟨1, .epsilon, 2⟩ = .error .outOfRange := rfl

/-- A star over a choice, in either mode, and one state doubled until no word counts the states. -/
theorem Assembly.table_wellFormed_star :
    let a := star (alternate (symbol 'a') epsilon)
    a.fragment.size = 6 ∧
      (∃ t, (∀ mode, a.table mode = .ok t) ∧ t.Represents a.fragment ∧ t.WellFormed ∧
        t.accepting.Nodup) ∧
      wordSize ≤ (doubled 64).fragment.size ∧
      (doubled 64).table .checked = .error .overflow := by
  intro a
  have hsize : a.fragment.size = 6 := rfl
  exact ⟨hsize, a.table_wellFormed.2.2 (hsize ▸ by decide), wordSize_le_doubled,
    (doubled 64).table_wellFormed.2.1 wordSize_le_doubled⟩

/-- Unchecked, the count of these states wraps around to none, and the start is no state. -/
theorem Assembly.not_wellFormed_doubled :
    (doubled 64).table .checked = .error .overflow ∧
    ∃ t, (doubled 64).table .unchecked = .ok t ∧ t.size = 0 ∧ t.start = 1 ∧ ¬ t.WellFormed := by
  refine ⟨(doubled 64).checked_table_eq_error wordSize_le_doubled, _, unchecked_table_doubled 64,
    rfl, rfl, ?_⟩
  intro h
  exact absurd h.start (by decide)

end PatternLexer
