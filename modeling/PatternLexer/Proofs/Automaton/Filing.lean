import PatternLexer.Automaton.Table

/-! Filing transitions. A transition is put behind those of its source, under numbers that ascend,
and all others stay as they are. An entry is made by the first transition that is filed under its
number and is never emptied, so what is filed under each number determines the entries. -/

namespace PatternLexer.Transition

variable {t : Transition} {filed filed' : List (Nat × List Transition)} {s k : Nat}
  {ts : List Transition}

/-- The numbers ascend, and under each are filed transitions of the state of this number. -/
structure Filed (filed : List (Nat × List Transition)) : Prop where
  ascending : (filed.map Prod.fst).Pairwise (· < ·)
  own : ∀ entry ∈ filed, ∀ t ∈ entry.2, t.source = entry.1

theorem map_fst_file (t : Transition) (filed : List (Nat × List Transition)) :
    (t.file filed).map Prod.fst = Ascending.place t.source (filed.map Prod.fst) := by
  induction filed with
  | nil => rfl
  | cons entry rest ih =>
    obtain ⟨k, ts⟩ := entry
    simp only [file, List.map_cons, Ascending.place]
    split
    · rfl
    · split
      · rw [List.map_cons, ih]
      · rfl

theorem own_file (h : ∀ entry ∈ filed, ∀ u ∈ entry.2, u.source = entry.1) :
    ∀ entry ∈ t.file filed, ∀ u ∈ entry.2, u.source = entry.1 := by
  induction filed with
  | nil => simp [file]
  | cons entry rest ih =>
    obtain ⟨k, ts⟩ := entry
    obtain ⟨hts, hrest⟩ := List.forall_mem_cons.1 h
    rw [file]
    split
    · exact List.forall_mem_cons.2 ⟨by simp, h⟩
    · split
      · exact List.forall_mem_cons.2 ⟨hts, ih hrest⟩
      · rename_i hlt hgt
        have hk : t.source = k := by omega
        refine List.forall_mem_cons.2 ⟨fun u hu => ?_, hrest⟩
        rcases List.mem_append.1 hu with hu | hu
        · exact hts u hu
        · rwa [List.mem_singleton.1 hu]

theorem Filed.file (h : Filed filed) (t : Transition) : Filed (t.file filed) := by
  refine ⟨?_, own_file h.own⟩
  rw [map_fst_file]
  exact Ascending.pairwise_place h.ascending

theorem lookup_eq_none_of_lt (h : ∀ k ∈ filed.map Prod.fst, s < k) : filed.lookup s = none := by
  refine List.lookup_eq_none_iff.2 fun entry hentry => ?_
  have hlt := h entry.1 (List.mem_map_of_mem hentry)
  rw [bne_iff_ne]
  omega

theorem lookup_cons_of_ne {k : Nat} {ts : List Transition} (h : s ≠ k) :
    ((k, ts) :: filed).lookup s = filed.lookup s := by
  rw [List.lookup_cons, beq_false_of_ne h]

/-- A transition is filed behind those of its source, and all others stay as they are. -/
theorem lookup_file (h : (filed.map Prod.fst).Pairwise (· < ·)) (t : Transition) (s : Nat) :
    ((t.file filed).lookup s).getD [] =
      (filed.lookup s).getD [] ++ if t.source = s then [t] else [] := by
  induction filed with
  | nil =>
    by_cases hs : s = t.source
    · subst hs
      simp [file]
    · rw [file, lookup_cons_of_ne hs, if_neg (Ne.symm hs), List.append_nil]
  | cons entry rest ih =>
    obtain ⟨k, ts⟩ := entry
    obtain ⟨hk, hrest⟩ := List.pairwise_cons.1 h
    rw [file]
    split
    · rename_i hlt
      by_cases hs : s = t.source
      · subst hs
        have hall : ∀ l ∈ ((k, ts) :: rest).map Prod.fst, t.source < l :=
          List.forall_mem_cons.2 ⟨hlt, fun l hl => Nat.lt_trans hlt (hk l hl)⟩
        have hnone := lookup_eq_none_of_lt hall
        rw [List.lookup_cons_self, hnone, if_pos rfl]
        rfl
      · rw [lookup_cons_of_ne hs, if_neg (Ne.symm hs), List.append_nil]
    · split
      · by_cases hs : s = k
        · subst hs
          rw [List.lookup_cons_self, List.lookup_cons_self, if_neg (by omega), List.append_nil]
        · rw [lookup_cons_of_ne hs, lookup_cons_of_ne hs, ih hrest]
      · have heq : t.source = k := by omega
        by_cases hs : s = k
        · subst hs
          rw [List.lookup_cons_self, List.lookup_cons_self, if_pos heq]
          rfl
        · rw [lookup_cons_of_ne hs, lookup_cons_of_ne hs, if_neg (by omega), List.append_nil]

/-- The same transition once its states have moved up, by numbers without a bound. -/
def shift (offset : Nat) (t : Transition) : Transition :=
  ⟨t.source + offset, t.label, t.target + offset⟩

theorem filter_shift (ts : List Transition) (offset s : Nat) :
    (ts.map (shift offset)).filter (·.source = s + offset) =
      (ts.filter (·.source = s)).map (shift offset) := by
  have hsource : (fun t : Transition => decide (t.source = s + offset)) ∘ shift offset =
      fun t => decide (t.source = s) := by
    funext t
    simp [shift]
  rw [List.filter_map, hsource]

/-- No state of a guest moves to where its host is. -/
theorem filter_shift_of_le {offset : Nat} {ts : List Transition} (hpos : ∀ t ∈ ts, 1 ≤ t.source)
    (h : s ≤ offset) : (ts.map (shift offset)).filter (·.source = s) = [] := by
  refine List.filter_eq_nil_iff.2 fun t ht hs => ?_
  obtain ⟨u, hu, rfl⟩ := List.mem_map.1 ht
  have hsource := hpos u hu
  have hshift : u.source + offset = s := of_decide_eq_true hs
  omega

/-- Filing one after the other keeps the transitions of a source in order. -/
theorem Filed.foldl (h : Filed filed) (ts : List Transition) :
    Filed (ts.foldl (fun filed t => t.file filed) filed) ∧
      ∀ s, ((ts.foldl (fun filed t => t.file filed) filed).lookup s).getD [] =
        (filed.lookup s).getD [] ++ ts.filter (·.source = s) := by
  induction ts generalizing filed with
  | nil => exact ⟨h, fun s => (List.append_nil _).symm⟩
  | cons t ts ih =>
    obtain ⟨hfiled, hlookup⟩ := ih (h.file t)
    refine ⟨hfiled, fun s => ?_⟩
    rw [List.foldl_cons, hlookup, lookup_file h.ascending, List.append_assoc, List.filter_cons]
    split <;> simp_all

/-- What is filed under a number is all that leaves the state of this number. -/
theorem Filed.filter_eq_lookup (h : Filed filed) (s : Nat) :
    (filed.flatMap Prod.snd).filter (·.source = s) = (filed.lookup s).getD [] := by
  obtain ⟨hascending, hown⟩ := h
  induction filed with
  | nil => rfl
  | cons entry rest ih =>
    obtain ⟨k, ts⟩ := entry
    obtain ⟨hk, hrest⟩ := List.pairwise_cons.1 hascending
    obtain ⟨hts, hown⟩ := List.forall_mem_cons.1 hown
    rw [List.flatMap_cons, List.filter_append, ih hrest hown]
    by_cases hs : s = k
    · subst hs
      have hall : ts.filter (·.source = s) = ts :=
        List.filter_eq_self.2 fun t ht => decide_eq_true (hts t ht)
      rw [hall, List.lookup_cons_self, lookup_eq_none_of_lt hk]
      exact List.append_nil ts
    · have hnone : ts.filter (·.source = s) = [] :=
        List.filter_eq_nil_iff.2 fun t ht => by simp [hts t ht, Ne.symm hs]
      rw [hnone, List.nil_append, lookup_cons_of_ne hs]

/-! ### Entries -/

/-- Under every number that has an entry some transition is filed. -/
def Occupied (filed : List (Nat × List Transition)) : Prop := ∀ entry ∈ filed, entry.2 ≠ []

theorem Occupied.file (h : Occupied filed) (t : Transition) : Occupied (t.file filed) := by
  induction filed with
  | nil => exact List.forall_mem_singleton.2 (List.cons_ne_nil t [])
  | cons entry rest ih =>
    obtain ⟨k, ts⟩ := entry
    obtain ⟨hts, hrest⟩ := List.forall_mem_cons.1 h
    rw [Transition.file]
    split
    · exact List.forall_mem_cons.2 ⟨List.cons_ne_nil t [], h⟩
    · split
      · exact List.forall_mem_cons.2 ⟨hts, ih hrest⟩
      · exact List.forall_mem_cons.2 ⟨List.append_ne_nil_of_left_ne_nil hts [t], hrest⟩

theorem Occupied.foldl (h : Occupied filed) (ts : List Transition) :
    Occupied (ts.foldl (fun filed t => t.file filed) filed) := by
  induction ts generalizing filed with
  | nil => exact h
  | cons t ts ih => exact ih (h.file t)

theorem Filed.lookup_eq (h : Filed filed) (hmem : (k, ts) ∈ filed) : filed.lookup k = some ts := by
  obtain ⟨before, behind, rfl⟩ := List.append_of_mem hmem
  refine List.lookup_eq_some_iff.2 ⟨before, behind, rfl, fun entry hentry => ?_⟩
  have hascending := h.ascending
  rw [List.map_append, List.map_cons] at hascending
  obtain ⟨-, -, hbefore⟩ := List.pairwise_append.1 hascending
  have hlt := hbefore entry.1 (List.mem_map_of_mem hentry) k List.mem_cons_self
  exact bne_iff_ne.2 (Nat.ne_of_gt hlt)

/-- The numbers with entries are those under which something is filed. -/
theorem Filed.mem_keys_iff (h : Filed filed) (ho : Occupied filed) :
    k ∈ filed.map Prod.fst ↔ (filed.lookup k).getD [] ≠ [] := by
  constructor
  · intro hk
    obtain ⟨⟨_, ts⟩, hentry, rfl⟩ := List.mem_map.1 hk
    rw [h.lookup_eq hentry]
    exact ho _ hentry
  · intro hne
    cases hlookup : filed.lookup k with
    | none =>
      rw [hlookup] at hne
      exact absurd rfl hne
    | some ts =>
      obtain ⟨before, behind, rfl, -⟩ := List.lookup_eq_some_iff.1 hlookup
      exact List.mem_map_of_mem (List.mem_append_right before List.mem_cons_self)

theorem Filed.eq_map_keys (h : Filed filed) :
    filed = (filed.map Prod.fst).map fun k => (k, (filed.lookup k).getD []) := by
  rw [List.map_map]
  refine (List.map_id filed).symm.trans (List.map_congr_left fun entry hentry => ?_)
  rw [Function.comp_apply, h.lookup_eq hentry]
  rfl

/-- What is filed under each number determines the entries. -/
theorem Filed.eq_of_lookup (h : Filed filed) (h' : Filed filed') (ho : Occupied filed)
    (ho' : Occupied filed')
    (hlookup : ∀ k, (filed.lookup k).getD [] = (filed'.lookup k).getD []) : filed = filed' := by
  have hkeys : filed.map Prod.fst = filed'.map Prod.fst := by
    refine Ascending.eq_of_pairwise h.ascending h'.ascending fun k => ?_
    rw [h.mem_keys_iff ho, h'.mem_keys_iff ho', hlookup]
  rw [h.eq_map_keys, h'.eq_map_keys, hkeys]
  simp only [hlookup]

end PatternLexer.Transition
