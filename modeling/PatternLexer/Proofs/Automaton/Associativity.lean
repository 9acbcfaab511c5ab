import Mathlib.Data.List.Count
import PatternLexer.Proofs.Automaton.Form

/-! Embedding and concatenation in either order. A guest moves up by all that stands before it,
whether at once or part after part, and epsilon arcs are put behind the arcs that a state has, so
the two orders make the same fragment, arc by arc, and file the same transitions in its table. -/

namespace PatternLexer

theorem Arc.shift_comp_shift (m n : Nat) : shift m ∘ shift n = shift (m + n) := by
  funext arc
  simp only [Function.comp_apply, shift, Nat.add_assoc, Nat.add_comm n m]

namespace Fragment

variable {f g h : Fragment} {s target : Nat}

/-! ### Embedding -/

theorem embed_assoc (f g h : Fragment) :
    ((f.embed g).host.embed h).host = (f.embed (g.embed h).host).host := by
  have hrow : List.map (Arc.shift f.size) ∘ List.map (Arc.shift g.size) =
      List.map (Arc.shift (f.embed g).host.size) := by
    funext row
    rw [Function.comp_apply, List.map_map, Arc.shift_comp_shift, size_embed]
  have hrows : ((f.embed g).host.embed h).host.rows = (f.embed (g.embed h).host).host.rows := by
    show (f.rows ++ g.rows.map (List.map _)) ++ h.rows.map (List.map _) =
      f.rows ++ (g.rows ++ h.rows.map (List.map _)).map (List.map _)
    rw [List.map_append, List.append_assoc, List.map_map, hrow]
  exact congrArg (fun rows => { f with rows := rows }) hrows

/-! ### Concatenation -/

/-- Fragments are the same when their states have the same arcs in the same order. -/
theorem eq_of_arcs (hsize : f.size = g.size) (hstart : f.start = g.start)
    (haccepting : f.accepting = g.accepting) (harcs : ∀ s, f.arcs s = g.arcs s) : f = g := by
  have hrows : f.rows = g.rows := by
    refine List.ext_getElem hsize fun i hf hg => ?_
    have hrow := harcs (i + 1)
    simpa only [arcs, List.getElem?_eq_getElem hf, List.getElem?_eq_getElem hg,
      Option.getD_some] using hrow
  cases f
  cases g
  cases hrows
  cases hstart
  cases haccepting
  rfl

/-- One arc more for each time that a state is among the sources. -/
theorem arcs_link {sources : List Nat} (hsources : ∀ r ∈ sources, f.HasState r) (s : Nat) :
    (f.link sources target).arcs s =
      f.arcs s ++ List.replicate (sources.count s) ⟨.epsilon, target⟩ := by
  induction sources generalizing f with
  | nil => simp [link]
  | cons r sources ih =>
    obtain ⟨hr, hsources⟩ := List.forall_mem_cons.1 hsources
    have hsize := Nat.le_of_eq (size_addArc f ⟨.epsilon, target⟩ r).symm
    have hlink := ih fun q hq => (hsources q hq).of_le hsize
    refine hlink.trans ?_
    by_cases hs : s = r
    · subst hs
      rw [arcs_addArc_self hr, List.count_cons_self, List.replicate_succ, List.append_assoc]
      rfl
    · rw [arcs_addArc_of_ne hs, List.count_cons_of_ne (Ne.symm hs)]

theorem arcs_concatenate (hf : f.InRange) (g : Fragment) (s : Nat) :
    (f.concatenate g).arcs s =
      f.arcs s ++ (g.arcs (s - f.size)).map (Arc.shift f.size) ++
        List.replicate (f.accepting.count s) ⟨.epsilon, g.start + f.size⟩ := by
  have hsize := size_embed f g
  have hsources : ∀ r ∈ f.accepting, (f.embed g).host.HasState r := fun r hr =>
    (hf.accepting r hr).of_le (by omega)
  rw [← arcs_embed]
  exact arcs_link hsources s

theorem InRange.count_eq_zero (hf : f.InRange) (hs : ¬ f.HasState s) : f.accepting.count s = 0 :=
  List.count_eq_zero.2 fun hmem => hs (hf.accepting s hmem)

/-- The guest keeps its arcs. -/
theorem arcs_concatenate_guest (hf : f.InRange) (g : Fragment) (hs : 0 < s) :
    (f.concatenate g).arcs (s + f.size) = (g.arcs s).map (Arc.shift f.size) := by
  have hnot : ¬ f.HasState (s + f.size) := fun hstate =>
    Nat.not_lt.2 hstate.2 (Nat.lt_add_of_pos_left hs)
  rw [arcs_concatenate hf, arcs_eq_nil_of_not_hasState hnot, hf.count_eq_zero hnot,
    Nat.add_sub_cancel]
  exact List.append_nil _

/-- The states of the host that accept get arcs to the start of the guest. -/
theorem arcs_concatenate_host (hf : f.InRange) (g : Fragment) (hs : s ≤ f.size) :
    (f.concatenate g).arcs s =
      f.arcs s ++ List.replicate (f.accepting.count s) ⟨.epsilon, g.start + f.size⟩ := by
  have hnot : ¬ g.HasState 0 := fun hstate => absurd hstate.1 (by decide)
  rw [arcs_concatenate hf, Nat.sub_eq_zero_of_le hs, arcs_eq_nil_of_not_hasState hnot,
    List.map_nil, List.append_nil]

/-- The arcs of the guest of a guest have moved up twice, and nothing else has changed. -/
theorem concatenate_assoc (hf : f.InRange) (hg : g.InRange) (h : Fragment) :
    (f.concatenate g).concatenate h = f.concatenate (g.concatenate h) := by
  have hfg := inRange_concatenate hf hg
  have haccepting : (f.concatenate g).accepting = g.accepting.map (· + f.size) := rfl
  refine eq_of_arcs ?_ ?_ ?_ fun s => ?_
  · simp only [size_concatenate, Nat.add_assoc]
  · simp only [start_concatenate]
  · have hmap : (h.accepting.map (· + g.size)).map (· + f.size) =
        h.accepting.map (· + (f.concatenate g).size) := by
      rw [List.map_map, size_concatenate]
      exact List.map_congr_left fun t _ => by simp only [Function.comp_apply]; omega
    exact hmap.symm
  · rcases Nat.lt_or_ge f.size s with hlt | hle
    · obtain ⟨r, hr, rfl⟩ : ∃ r, 0 < r ∧ s = r + f.size := ⟨s - f.size, by omega, by omega⟩
      have hsub : r + f.size - (f.size + g.size) = r - g.size := by omega
      have hcount : (g.accepting.map (· + f.size)).count (r + f.size) = g.accepting.count r :=
        List.count_map_of_injective _ _ (fun _ _ => Nat.add_right_cancel) r
      have harc : Arc.shift f.size ⟨.epsilon, h.start + g.size⟩ =
          ⟨.epsilon, h.start + (f.size + g.size)⟩ := by
        simp only [Arc.shift, Nat.add_assoc, Nat.add_comm g.size]
      rw [arcs_concatenate hfg, arcs_concatenate_guest hf g hr, arcs_concatenate_guest hf _ hr,
        arcs_concatenate hg, size_concatenate, haccepting, hcount, hsub]
      simp only [List.map_append, List.map_map, List.map_replicate, Arc.shift_comp_shift, harc]
    · have hbelow : s ≤ (f.concatenate g).size := by
        rw [size_concatenate]
        omega
      have hcount : (f.concatenate g).accepting.count s = 0 := by
        refine List.count_eq_zero.2 fun hmem => ?_
        obtain ⟨r, hr, rfl⟩ := List.mem_map.1 (haccepting ▸ hmem)
        have hpos := (hg.accepting r hr).1
        omega
      rw [arcs_concatenate_host hfg h hbelow, arcs_concatenate_host hf _ hle,
        arcs_concatenate_host hf _ hle, hcount, start_concatenate]
      exact List.append_nil _

end Fragment

end PatternLexer
