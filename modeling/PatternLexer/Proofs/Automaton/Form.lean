import PatternLexer.Proofs.Automaton.Ranges

/-! What holds of every fragment made of leaves by combinations, besides its ranges: the accepting
states ascend, and an arc that reads a symbol is the one arc of a state that does not accept. Both
rest on the ranges, which keep the states of a guest apart from those of its host, and on where arcs
are added, which is at accepting and at new states only. -/

namespace PatternLexer.Fragment

variable {f g left right : Fragment} {s target : Nat} {arc : Arc}

/-! ### The arcs of a state in order -/

theorem arcs_eq_nil_of_not_hasState (h : ¬ f.HasState s) : f.arcs s = [] :=
  List.eq_nil_iff_forall_not_mem.2 fun _ harc => h (hasState_of_mem_arcs harc)

theorem arcs_addArc_self (hs : f.HasState s) (arc : Arc) :
    (f.addArc arc s).arcs s = f.arcs s ++ [arc] := by
  cases s with
  | zero => exact absurd hs.1 (by decide)
  | succ i =>
    have hi : i < f.rows.length := hs.2
    simp [arcs, addArc, List.getElem?_eq_getElem hi]

theorem arcs_addArc_of_ne {r : Nat} (h : s ≠ r) (arc : Arc) :
    (f.addArc arc r).arcs s = f.arcs s := by
  cases r with
  | zero => rfl
  | succ r =>
    cases s with
    | zero => rfl
    | succ i =>
      have hne : r ≠ i := fun hri => h (congrArg (· + 1) hri.symm)
      simp [arcs, addArc, hne]

@[simp] theorem start_addArc (f : Fragment) (arc : Arc) (s : Nat) :
    (f.addArc arc s).start = f.start := by
  cases s <;> rfl

@[simp] theorem accepting_addArc (f : Fragment) (arc : Arc) (s : Nat) :
    (f.addArc arc s).accepting = f.accepting := by
  cases s <;> rfl

theorem arcs_link_of_not_mem {sources : List Nat} (h : s ∉ sources) :
    (f.link sources target).arcs s = f.arcs s := by
  induction sources generalizing f with
  | nil => rfl
  | cons r sources ih =>
    obtain ⟨hr, hsources⟩ := not_or.1 (mt List.mem_cons.2 h)
    exact (ih hsources).trans (arcs_addArc_of_ne hr _)

theorem arcs_embed (host guest : Fragment) (s : Nat) :
    (host.embed guest).host.arcs s =
      host.arcs s ++ (guest.arcs (s - host.size)).map (Arc.shift host.size) := by
  cases s with
  | zero => simp [arcs]
  | succ i =>
    by_cases hi : i < host.rows.length
    · have hnone : i + 1 - host.size = 0 := by rw [size]; omega
      rw [hnone]
      simp [arcs, embed, List.getElem?_append_left hi]
    · have hsome : i + 1 - host.size = i - host.rows.length + 1 := by rw [size]; omega
      rw [hsome]
      simp only [arcs, embed, List.getElem?_append_right (Nat.le_of_not_lt hi), List.getElem?_map]
      rw [List.getElem?_eq_none (Nat.le_of_not_lt hi)]
      cases guest.rows[i - host.rows.length]? <;> rfl

/-- The arcs of a new last state and of the others. -/
theorem arcs_snoc {row : List Arc} (h : g.rows = f.rows ++ [row]) (s : Nat) :
    g.arcs s = if s = f.size + 1 then row else f.arcs s := by
  cases s with
  | zero => rfl
  | succ i =>
    simp only [arcs, h, size, Nat.add_right_cancel_iff]
    split
    · rename_i hi
      simp [hi]
    · rename_i hi
      rcases Nat.lt_or_gt_of_ne hi with hlt | hgt
      · rw [List.getElem?_append_left hlt]
      · have hle : (f.rows ++ [row]).length ≤ i := by rw [List.length_append]; exact hgt
        rw [List.getElem?_eq_none hle, List.getElem?_eq_none (Nat.le_of_lt hgt)]

/-- An arc that is added to the last state. -/
theorem addArc_snoc (f : Fragment) (row : List Arc) (arc : Arc) :
    ({ f with rows := f.rows ++ [row] } : Fragment).addArc arc (f.size + 1) =
      { f with rows := f.rows ++ [row ++ [arc]] } := by
  have hrows : (f.rows ++ [row]).modify f.size (· ++ [arc]) = f.rows ++ [row ++ [arc]] := by
    rw [size]
    induction f.rows with
    | nil => rfl
    | cons head rows ih => exact congrArg (head :: ·) ih
  rw [addArc, hrows]

/-! ### Acceptance -/

theorem pairwise_shift {ys : List Nat} (h : ys.Pairwise (· < ·)) (n : Nat) :
    (ys.map (· + n)).Pairwise (· < ·) :=
  List.pairwise_map.2 (h.imp fun hlt => Nat.add_lt_add_right hlt n)

theorem pairwise_append_shift {xs ys : List Nat} {n : Nat} (hx : xs.Pairwise (· < ·))
    (hy : ys.Pairwise (· < ·)) (hle : ∀ x ∈ xs, x ≤ n) (hpos : ∀ y ∈ ys, 1 ≤ y) :
    (xs ++ ys.map (· + n)).Pairwise (· < ·) := by
  refine List.pairwise_append.2 ⟨hx, pairwise_shift hy n, fun x hxs y hys => ?_⟩
  obtain ⟨r, hr, rfl⟩ := List.mem_map.1 hys
  have hxn := hle x hxs
  have hr1 := hpos r hr
  omega

/-- States that are added later accept behind those that were there before. -/
theorem Built.pairwise_accepting (h : Built f) : f.accepting.Pairwise (· < ·) := by
  induction h with
  | symbol c => exact List.pairwise_singleton _ _
  | epsilon => exact List.pairwise_singleton _ _
  | empty => exact .nil
  | embed _ _ hh _ => exact hh
  | concatenate _ _ _ ihr => exact pairwise_shift ihr _
  | alternate hl hr ihl ihr =>
    exact pairwise_append_shift ihl ihr (fun x hx => (hl.inRange.accepting x hx).2)
      fun y hy => (hr.inRange.accepting y hy).1
  | star hf ih =>
    refine List.pairwise_append.2 ⟨ih, List.pairwise_singleton _ _, fun x hx y hy => ?_⟩
    rw [List.mem_singleton.1 hy]
    exact Nat.lt_succ_of_le (hf.inRange.accepting x hx).2

/-! ### Arcs that read a symbol -/

/-- An arc that reads a symbol is the one arc of its state, which does not accept. -/
def SymbolsAlone (f : Fragment) : Prop :=
  ∀ s c t, ⟨.symbol c, t⟩ ∈ f.arcs s → f.arcs s = [⟨.symbol c, t⟩] ∧ s ∉ f.accepting

/-- Side by side, the two parts leave each other's states alone. -/
theorem SymbolsAlone.embed {c : Char} {t : Nat} (hl : left.SymbolsAlone) (hr : right.SymbolsAlone)
    (hil : left.InRange) (hir : right.InRange)
    (h : ⟨.symbol c, t⟩ ∈ (left.embed right).host.arcs s) :
    (left.embed right).host.arcs s = [⟨.symbol c, t⟩] ∧ s ∉ left.accepting ∧
      s ∉ (left.embed right).accepting := by
  rcases mem_arcs_embed.1 h with h | ⟨r, rfl, ⟨l, u⟩, hb, heq⟩
  · obtain ⟨-, hle⟩ := hasState_of_mem_arcs h
    obtain ⟨halone, hacc⟩ := hl s c t h
    refine ⟨?_, hacc, fun hmem => ?_⟩
    · rw [arcs_embed, halone, Nat.sub_eq_zero_of_le hle]
      rfl
    · obtain ⟨r, hr, rfl⟩ := List.mem_map.1 hmem
      have hpos := (hir.accepting r hr).1
      omega
  · obtain ⟨rfl, rfl⟩ := Arc.mk.inj heq
    obtain ⟨hpos, -⟩ := hasState_of_mem_arcs hb
    obtain ⟨halone, hacc⟩ := hr r c u hb
    have hnot : ¬ left.HasState (r + left.size) := fun hstate => by
      have hle := hstate.2
      omega
    refine ⟨?_, fun hmem => hnot (hil.accepting _ hmem), fun hmem => ?_⟩
    · rw [arcs_embed, arcs_eq_nil_of_not_hasState hnot, Nat.add_sub_cancel, halone]
      rfl
    · obtain ⟨q, hq, hqr⟩ := List.mem_map.1 hmem
      exact hacc (Nat.add_right_cancel hqr ▸ hq)

/-- Epsilon arcs are only added to states that accept, and a new state has nothing else. -/
theorem Built.symbolsAlone (h : Built f) : f.SymbolsAlone := by
  induction h with
  | symbol d =>
    intro s c t hmem
    obtain ⟨rfl, heq⟩ := mem_arcs_leaf.1 hmem
    rw [heq]
    exact ⟨rfl, by simp [Fragment.symbol]⟩
  | epsilon =>
    intro s c t hmem
    exact nomatch (mem_arcs_leaf.1 hmem).2
  | empty => exact fun s c t hmem => (not_mem_arcs_empty hmem).elim
  | embed hh hg ihh ihg =>
    intro s c t hmem
    obtain ⟨halone, hacc, -⟩ := ihh.embed ihg hh.inRange hg.inRange hmem
    exact ⟨halone, hacc⟩
  | @concatenate left right hl hr ihl ihr =>
    intro s c t hmem
    have hold : ⟨.symbol c, t⟩ ∈ (left.embed right).host.arcs s :=
      (mem_arcs_link.1 hmem).resolve_right fun hnew => nomatch hnew.2.2
    obtain ⟨halone, hleft, hacc⟩ := ihl.embed ihr hl.inRange hr.inRange hold
    exact ⟨(arcs_link_of_not_mem hleft).trans halone, hacc⟩
  | @alternate left right hl hr ihl ihr =>
    intro s c t hmem
    have hrows : (left.alternate right).rows = (left.embed right).host.rows ++
        [[⟨.epsilon, left.start⟩, ⟨.epsilon, right.start + left.size⟩]] := rfl
    have hold : ⟨.symbol c, t⟩ ∈ (left.embed right).host.arcs s :=
      ((mem_arcs_snoc hrows).1 hmem).resolve_right fun hnew => by simpa using hnew.2
    obtain ⟨halone, hleft, hright⟩ := ihl.embed ihr hl.inRange hr.inRange hold
    have hne := Nat.ne_of_lt (Nat.lt_succ_of_le (hasState_of_mem_arcs hold).2)
    refine ⟨?_, fun hacc => (List.mem_append.1 hacc).elim hleft hright⟩
    rw [arcs_snoc hrows, if_neg hne, halone]
  | @star f hf ih =>
    intro s c t hmem
    have hrows : f.star.rows = (f.link f.accepting f.start).rows ++
        [[⟨.epsilon, f.start⟩, ⟨.epsilon, f.size + 1⟩]] := rfl
    have hold : ⟨.symbol c, t⟩ ∈ f.arcs s := by
      have hlink := ((mem_arcs_snoc hrows).1 hmem).resolve_right fun hnew => by simpa using hnew.2
      exact (mem_arcs_link.1 hlink).resolve_right fun hnew => nomatch hnew.2.2
    obtain ⟨halone, hacc⟩ := ih s c t hold
    have hne := Nat.ne_of_lt (Nat.lt_succ_of_le (hasState_of_mem_arcs hold).2)
    refine ⟨?_, fun hmem => ?_⟩
    · rw [arcs_snoc hrows, size_link, if_neg hne, arcs_link_of_not_mem hacc, halone]
    · rcases List.mem_append.1 hmem with hmem | hmem
      · exact hacc hmem
      · exact hne (List.mem_singleton.1 hmem)

end PatternLexer.Fragment
