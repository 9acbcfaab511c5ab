import Mathlib.Data.Finset.Card
import Mathlib.Data.List.Induction
import Mathlib.Data.List.Nodup
import PatternLexer.Catalog

/-! Catalogs and what was declared. The entries follow from the list of all declarations: they are
the names in the order of the first declarations, with the values of the last. All that is used of
an insertion is that a new name goes to the end and a known one keeps its place, and of a comparison
that it ignores the order of the entries. -/

namespace PatternLexer.Catalog

variable {α : Type} {entries entries' declared before behind : List (String × α)} {name n : String}
  {value v old : α}

/-! ### Insertion -/

/-- A new name goes to the end. A known one keeps its place and takes the new value. -/
structure InsertsInOrder (insert : String → α → List (String × α) → List (String × α)) : Prop where
  fresh : ∀ {name value entries}, name ∉ entries.map Prod.fst →
    insert name value entries = entries ++ [(name, value)]
  known : ∀ {name value before old behind}, name ∉ before.map Prod.fst →
    insert name value (before ++ (name, old) :: behind) = before ++ (name, value) :: behind

theorem exists_entry (h : name ∈ entries.map Prod.fst) : ∃ before old behind,
    entries = before ++ (name, old) :: behind ∧ name ∉ before.map Prod.fst := by
  induction entries with
  | nil => exact absurd h List.not_mem_nil
  | cons entry entries ih =>
    by_cases hentry : entry.1 = name
    · subst hentry
      exact ⟨[], entry.2, entries, rfl, List.not_mem_nil⟩
    · rcases List.mem_cons.1 h with heq | hmem
      · exact absurd heq.symm hentry
      · obtain ⟨before, old, behind, rfl, hbefore⟩ := ih hmem
        refine ⟨entry :: before, old, behind, rfl, ?_⟩
        rw [List.map_cons, List.mem_cons, not_or]
        exact ⟨Ne.symm hentry, hbefore⟩

theorem assign_of_mem (h : name ∉ before.map Prod.fst) :
    assign name value (before ++ (name, old) :: behind) = before ++ (name, value) :: behind := by
  induction before with
  | nil => exact if_pos rfl
  | cons entry before ih =>
    obtain ⟨hentry, hbefore⟩ := List.ne_and_not_mem_of_not_mem_cons h
    rw [List.cons_append, assign, if_neg (Ne.symm hentry), ih hbefore]
    rfl

theorem insertsInOrder_assign : InsertsInOrder (assign (α := α)) where
  fresh := assign_of_not_mem
  known := assign_of_mem

/-- There is no other way to insert in order. -/
theorem InsertsInOrder.eq_assign {insert : String → α → List (String × α) → List (String × α)}
    (h : InsertsInOrder insert) : insert = assign := by
  funext name value entries
  by_cases hmem : name ∈ entries.map Prod.fst
  · obtain ⟨before, old, behind, rfl, hbefore⟩ := exists_entry hmem
    rw [h.known hbefore, assign_of_mem hbefore]
  · rw [h.fresh hmem, assign_of_not_mem hmem]

/-! ### The last declaration -/

/-- The last declaration of the name gives the value. -/
def LastOf (declared : List (String × α)) (name : String) (value : α) : Prop :=
  ∃ before behind, declared = before ++ (name, value) :: behind ∧ name ∉ behind.map Prod.fst

theorem not_lastOf_nil : ¬ LastOf [] name value := by
  rintro ⟨before, behind, h, -⟩
  simp at h

theorem lastOf_snoc : LastOf (declared ++ [(n, v)]) name value ↔
    (name = n ∧ value = v) ∨ (name ≠ n ∧ LastOf declared name value) := by
  constructor
  · rintro ⟨before, behind, h, hbehind⟩
    rcases List.eq_nil_or_concat behind with rfl | ⟨behind, last, rfl⟩
    · obtain ⟨-, heq⟩ := List.append_singleton_inj.1 h
      obtain ⟨rfl, rfl⟩ := Prod.mk.inj heq
      exact .inl ⟨rfl, rfl⟩
    · rw [List.concat_eq_append] at h hbehind
      rw [← List.cons_append, ← List.append_assoc] at h
      obtain ⟨rfl, rfl⟩ := List.append_singleton_inj.1 h
      rw [List.map_append, List.mem_append, not_or] at hbehind
      refine .inr ⟨fun heq => hbehind.2 ?_, before, behind, rfl, hbehind.1⟩
      exact List.mem_singleton.2 heq
  · rintro (⟨rfl, rfl⟩ | ⟨hne, before, behind, rfl, hbehind⟩)
    · exact ⟨declared, [], rfl, List.not_mem_nil⟩
    · refine ⟨before, behind ++ [(n, v)], by simp, ?_⟩
      rw [List.map_append, List.mem_append, not_or]
      exact ⟨hbehind, fun hmem => hne (List.mem_singleton.1 hmem)⟩

theorem exists_lastOf_iff : (∃ value, LastOf declared name value) ↔
    name ∈ declared.map Prod.fst := by
  induction declared using List.reverseRecOn with
  | nil => simp [not_lastOf_nil]
  | append_singleton declared entry ih =>
    obtain ⟨n, v⟩ := entry
    simp only [lastOf_snoc, List.map_append, List.mem_append, ← ih, List.map_cons, List.map_nil,
      List.mem_singleton]
    by_cases hname : name = n <;> simp [hname]

/-! ### Entries by what was declared -/

/-- Every name that was declared has one entry, with the value of its last declaration, and the
entries stand in the order of the first declarations. -/
structure Resolves (entries declared : List (String × α)) : Prop where
  distinct : (entries.map Prod.fst).Nodup
  order : (entries.map Prod.fst).Pairwise fun m n =>
    (declared.map Prod.fst).idxOf m < (declared.map Prod.fst).idxOf n
  mem_iff : ∀ name value, (name, value) ∈ entries ↔ LastOf declared name value

theorem Resolves.mem_names_iff (h : Resolves entries declared) :
    name ∈ entries.map Prod.fst ↔ name ∈ declared.map Prod.fst := by
  refine Iff.trans ?_ exists_lastOf_iff
  simp only [← h.mem_iff, List.mem_map, Prod.exists, exists_and_right, exists_eq_right]

/-- What was declared determines the entries. -/
theorem Resolves.unique (h : Resolves entries declared) (h' : Resolves entries' declared) :
    entries = entries' := by
  have hperm : entries.Perm entries' := by
    rw [List.perm_ext_iff_of_nodup h.distinct.of_map h'.distinct.of_map]
    rintro ⟨name, value⟩
    rw [h.mem_iff, h'.mem_iff]
  have horder := List.pairwise_map.1 h.order
  have horder' := List.pairwise_map.1 h'.order
  exact hperm.eq_of_pairwise (fun a b _ _ hab hba => absurd hba (Nat.lt_asymm hab)) horder horder'

theorem Resolves.length_eq (h : Resolves entries declared) :
    entries.length = (declared.map Prod.fst).toFinset.card := by
  have hnames : (declared.map Prod.fst).toFinset = (entries.map Prod.fst).toFinset := by
    ext name
    rw [List.mem_toFinset, List.mem_toFinset, h.mem_names_iff]
  rw [hnames, List.toFinset_card_of_nodup h.distinct, List.length_map]

theorem resolves_nil : Resolves ([] : List (String × α)) [] where
  distinct := .nil
  order := .nil
  mem_iff _ _ := iff_of_false List.not_mem_nil not_lastOf_nil

/-- One more declaration does not change the order of the names before it. -/
theorem Resolves.order_snoc (h : Resolves entries declared) (entry : String × α) :
    (entries.map Prod.fst).Pairwise fun m n =>
      ((declared ++ [entry]).map Prod.fst).idxOf m <
        ((declared ++ [entry]).map Prod.fst).idxOf n := by
  have hidx {m : String} (hm : m ∈ entries.map Prod.fst) :
      ((declared ++ [entry]).map Prod.fst).idxOf m = (declared.map Prod.fst).idxOf m := by
    rw [List.map_append, List.idxOf_append_of_mem (h.mem_names_iff.1 hm)]
  refine h.order.imp_of_mem fun hm hn hlt => ?_
  rwa [hidx hm, hidx hn]

theorem Resolves.change_known (h : Resolves (before ++ (name, old) :: behind) declared) :
    Resolves (before ++ (name, value) :: behind) (declared ++ [(name, value)]) := by
  have hnames : (before ++ (name, value) :: behind).map Prod.fst =
      (before ++ (name, old) :: behind).map Prod.fst := by simp
  have hdistinct := h.distinct
  rw [List.map_append, List.map_cons, List.nodup_middle, List.nodup_cons, List.mem_append,
    not_or] at hdistinct
  obtain ⟨⟨hbefore, hbehind⟩, -⟩ := hdistinct
  refine ⟨hnames ▸ h.distinct, hnames ▸ h.order_snoc _, fun n v => ?_⟩
  rw [lastOf_snoc, ← h.mem_iff]
  by_cases hn : n = name
  · subst hn
    have hmem : ∀ entries : List (String × α), n ∉ entries.map Prod.fst → (n, v) ∉ entries :=
      fun entries hnot hmem => hnot (List.mem_map_of_mem hmem)
    simp [hmem before hbefore, hmem behind hbehind]
  · simp [hn]

theorem Resolves.append_fresh (h : Resolves entries declared)
    (hname : name ∉ entries.map Prod.fst) :
    Resolves (entries ++ [(name, value)]) (declared ++ [(name, value)]) := by
  have hdeclared : name ∉ declared.map Prod.fst := fun hmem => hname (h.mem_names_iff.2 hmem)
  have hnames : (entries ++ [(name, value)]).map Prod.fst = entries.map Prod.fst ++ [name] :=
    List.map_append
  refine ⟨?_, ?_, fun n v => ?_⟩
  · rw [hnames, List.nodup_append_comm]
    exact List.nodup_cons.2 ⟨hname, h.distinct⟩
  · rw [hnames, List.pairwise_append]
    refine ⟨h.order_snoc _, List.pairwise_singleton _ _, ?_⟩
    intro m hm n hn
    obtain rfl := List.mem_singleton.1 hn
    have hm' := h.mem_names_iff.1 hm
    rw [List.map_append, List.idxOf_append_of_mem hm', List.idxOf_append_of_notMem hdeclared]
    exact Nat.lt_of_lt_of_le (List.idxOf_lt_length_of_mem hm') (Nat.le_add_right _ _)
  · rw [lastOf_snoc, ← h.mem_iff, List.mem_append, List.mem_singleton, Prod.mk.injEq]
    by_cases hn : n = name
    · subst hn
      have hmem : (n, v) ∉ entries := fun hmem => hname (List.mem_map_of_mem hmem)
      simp [hmem]
    · simp [hn]

/-- An insertion in order makes up for one more declaration. -/
theorem Resolves.insert {insert : String → α → List (String × α) → List (String × α)}
    (hinsert : InsertsInOrder insert) (h : Resolves entries declared) (name : String) (value : α) :
    Resolves (insert name value entries) (declared ++ [(name, value)]) := by
  by_cases hmem : name ∈ entries.map Prod.fst
  · obtain ⟨before, old, behind, rfl, hbefore⟩ := exists_entry hmem
    rw [hinsert.known hbefore]
    exact h.change_known
  · rw [hinsert.fresh hmem]
    exact h.append_fresh hmem

/-- Declarations made one after the other by any insertion in order. -/
theorem resolves_foldl {insert : String → α → List (String × α) → List (String × α)}
    (hinsert : InsertsInOrder insert) (declared : List (String × α)) :
    Resolves (declared.foldl (fun entries entry => insert entry.1 entry.2 entries) [])
      declared := by
  induction declared using List.reverseRecOn with
  | nil => exact resolves_nil
  | append_singleton declared entry ih =>
    rw [List.foldl_append]
    exact ih.insert hinsert entry.1 entry.2

theorem entries_foldl (declared : List (String × α)) (c : Catalog α) :
    (declared.foldl (fun c entry => c.declare entry.1 entry.2) c).entries =
      declared.foldl (fun entries entry => assign entry.1 entry.2 entries) c.entries :=
  (List.foldl_hom Catalog.entries fun _ _ => rfl).symm

theorem resolves_ofList (declared : List (String × α)) :
    Resolves (ofList declared).entries declared := by
  rw [ofList, entries_foldl]
  exact resolves_foldl insertsInOrder_assign declared

/-! ### Values and equality -/

variable {c d : Catalog α}

theorem eq_of_entries_eq : ∀ {c d : Catalog α}, c.entries = d.entries → c = d
  | ⟨_, _⟩, ⟨_, _⟩, rfl => rfl

theorem lookup_eq_some_iff_mem (h : (entries.map Prod.fst).Nodup) :
    entries.lookup name = some value ↔ (name, value) ∈ entries := by
  induction entries with
  | nil => simp
  | cons entry entries ih =>
    obtain ⟨n, v⟩ := entry
    obtain ⟨hfresh, hrest⟩ := List.nodup_cons.1 h
    by_cases hn : name = n
    · subst hn
      have hmem : (name, value) ∉ entries := fun hmem =>
        hfresh (List.mem_map.2 ⟨_, hmem, rfl⟩)
      simp [hmem, eq_comm]
    · simp [List.lookup_cons, beq_false_of_ne hn, ih hrest, hn]

theorem get?_eq_some_iff : c.get? name = some value ↔ (name, value) ∈ c.entries :=
  lookup_eq_some_iff_mem c.distinct

theorem exists_get?_iff : (∃ value, c.get? name = some value) ↔ name ∈ c.names := by
  simp [get?_eq_some_iff, names]

theorem get?_eq_none_iff : c.get? name = none ↔ name ∉ c.names := by
  rw [← exists_get?_iff, ← Option.isSome_iff_exists, Option.not_isSome_iff_eq_none]

/-! ### Comparison -/

/-- Catalogs with the same entries are the same, in whatever order the entries stand. -/
structure ComparesUpToOrder (same : Catalog α → Catalog α → Bool) : Prop where
  same_iff : ∀ c d, same c d = true ↔ c.entries.Perm d.entries

theorem comparesUpToOrder_agree [DecidableEq α] : ComparesUpToOrder (agree (α := α)) where
  same_iff c d := by
    have hagree : c.agree d = true ↔
        c.entries.length = d.entries.length ∧ ∀ entry ∈ c.entries, entry ∈ d.entries := by
      simp only [agree, Bool.and_eq_true, List.all_eq_true, decide_eq_true_eq, get?_eq_some_iff]
      rfl
    rw [hagree]
    constructor
    · rintro ⟨hlength, hsub⟩
      exact (List.subperm_of_subset c.distinct.of_map hsub).perm_of_length_le hlength.ge
    · intro hperm
      exact ⟨hperm.length_eq, fun entry => hperm.mem_iff.1⟩

/-- The entries are the same when all names have the same values. -/
theorem perm_entries_iff : c.entries.Perm d.entries ↔ ∀ name, c.get? name = d.get? name := by
  rw [List.perm_ext_iff_of_nodup c.distinct.of_map d.distinct.of_map]
  constructor
  · intro h name
    ext value
    rw [get?_eq_some_iff, get?_eq_some_iff, h]
  · intro h entry
    rw [← get?_eq_some_iff, ← get?_eq_some_iff, h]

end PatternLexer.Catalog
