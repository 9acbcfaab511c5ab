import PatternLexer.Proofs.Automaton.Ranges
import PatternLexer.Proofs.Automaton.Simulation

/-! The languages of combined fragments. A path through a combination stays in the part where it
began until it takes one of the arcs that tie the parts together, so it falls into paths of the
parts. Concatenation, choice and star of fragments are product, sum and star of their languages. -/

namespace PatternLexer.Fragment

variable {f g left right : Fragment} {s t u e : Nat} {v w : Text}

/-! ### Paths of parts -/

/-- A renumbering of states that keeps arcs keeps paths. -/
theorem Path.map (φ : Nat → Nat)
    (harc : ∀ s label t, ⟨label, t⟩ ∈ f.arcs s → ⟨label, φ t⟩ ∈ g.arcs (φ s))
    (h : Path f s w t) : Path g (φ s) w (φ t) := by
  induction h with
  | nil s => exact .nil _
  | epsilon hmem _ ih => exact .epsilon (harc _ _ _ hmem) ih
  | symbol hmem _ ih => exact .symbol (harc _ _ _ hmem) ih

/-- Where a renumbered part is left by epsilon arcs to one state only, a path that begins in the
part ends there too, or reads a word of the part up to the first arc that leaves. -/
theorem Path.leave (φ : Nat → Nat) (exits : List Nat) (hf : f.InRange)
    (harc : ∀ s label p, f.HasState s → ⟨label, p⟩ ∈ g.arcs (φ s) →
      (∃ t, ⟨label, t⟩ ∈ f.arcs s ∧ p = φ t) ∨ (s ∈ exits ∧ label = .epsilon ∧ p = e))
    (hs : f.HasState s) (h : Path g (φ s) w u) :
    (∃ t, u = φ t ∧ f.HasState t ∧ Path f s w t) ∨
      ∃ v x, w = v ++ x ∧ (∃ a ∈ exits, Path f s v a) ∧ Path g e x u := by
  generalize hp : φ s = p at h
  induction h generalizing s with
  | nil p => exact .inl ⟨s, hp.symm, hs, .nil s⟩
  | epsilon hmem htail ih =>
    subst hp
    rcases harc s _ _ hs hmem with ⟨t, ht, rfl⟩ | ⟨hexit, -, rfl⟩
    · rcases ih (hf.targets s _ ht) rfl with ⟨r, hu, hr, hpath⟩ | ⟨v, x, hw, ⟨a, ha, hv⟩, hx⟩
      · exact .inl ⟨r, hu, hr, .epsilon ht hpath⟩
      · exact .inr ⟨v, x, hw, ⟨a, ha, .epsilon ht hv⟩, hx⟩
    · exact .inr ⟨[], _, rfl, ⟨s, hexit, .nil s⟩, htail⟩
  | symbol hmem htail ih =>
    subst hp
    rcases harc s _ _ hs hmem with ⟨t, ht, rfl⟩ | ⟨-, hlabel, -⟩
    · rcases ih (hf.targets s _ ht) rfl with ⟨r, hu, hr, hpath⟩ | ⟨v, x, rfl, ⟨a, ha, hv⟩, hx⟩
      · exact .inl ⟨r, hu, hr, .symbol ht hpath⟩
      · exact .inr ⟨_ :: v, x, rfl, ⟨a, ha, .symbol ht hv⟩, hx⟩
    · exact nomatch hlabel

/-- A path that begins in a part that is never left. -/
theorem Path.stay (φ : Nat → Nat) (hf : f.InRange)
    (harc : ∀ s label p, f.HasState s → ⟨label, p⟩ ∈ g.arcs (φ s) →
      ∃ t, ⟨label, t⟩ ∈ f.arcs s ∧ p = φ t)
    (hs : f.HasState s) (h : Path g (φ s) w u) : ∃ t, u = φ t ∧ f.HasState t ∧ Path f s w t := by
  have hleave := Path.leave (e := 0) φ [] hf
    (fun s label p hs hmem => .inl (harc s label p hs hmem)) hs h
  rcases hleave with hstay | ⟨v, x, -, ⟨a, ha, -⟩, -⟩
  · exact hstay
  · exact nomatch ha

/-! ### Leaves -/

theorem language_leaf (label : Label) :
    (⟨[[⟨label, 2⟩], []], 1, [2]⟩ : Fragment).language = {label.symbol?.toList} := by
  have hend {w : Text} {t : Nat} (h : Path ⟨[[⟨label, 2⟩], []], 1, [2]⟩ 2 w t) : w = [] := by
    cases h with
    | nil => rfl
    | epsilon harc => exact absurd (mem_arcs_leaf.1 harc).1 (by decide)
    | symbol harc => exact absurd (mem_arcs_leaf.1 harc).1 (by decide)
  ext w
  rw [mem_language]
  constructor
  · rintro ⟨t, ht, hpath⟩
    obtain rfl := List.mem_singleton.1 ht
    cases hpath with
    | epsilon harc htail =>
      obtain ⟨-, heq⟩ := mem_arcs_leaf.1 harc
      obtain ⟨rfl, rfl⟩ := Arc.mk.inj heq
      exact hend htail
    | symbol harc htail =>
      obtain ⟨-, heq⟩ := mem_arcs_leaf.1 harc
      obtain ⟨rfl, rfl⟩ := Arc.mk.inj heq
      rw [hend htail]
      rfl
  · rintro rfl
    refine ⟨2, List.mem_singleton_self 2, ?_⟩
    cases label with
    | symbol c => exact .symbol (mem_arcs_leaf.2 ⟨rfl, rfl⟩) (.nil 2)
    | epsilon => exact .epsilon (mem_arcs_leaf.2 ⟨rfl, rfl⟩) (.nil 2)

theorem language_empty : empty.language = 0 := by
  ext w
  constructor
  · rintro ⟨t, ht, -⟩
    exact absurd ht List.not_mem_nil
  · intro h
    exact h.elim

/-! ### Two parts side by side -/

/-- The states of the left fragment, those of the right one behind them, and arcs that tie them. -/
def Joins (g left right : Fragment) (Tie : Nat → Arc → Prop) : Prop :=
  ∀ s arc, arc ∈ g.arcs s ↔
    arc ∈ left.arcs s ∨
      (∃ r, s = r + left.size ∧ ∃ b ∈ right.arcs r, arc = b.shift left.size) ∨ Tie s arc

namespace Joins

variable {Tie : Nat → Arc → Prop} {label : Label} {p : Nat}

theorem path_left (hj : Joins g left right Tie) (h : Path left s w t) : Path g s w t := by
  apply h.map id
  intro s label t harc
  exact (hj _ _).2 (.inl harc)

theorem path_right (hj : Joins g left right Tie) (h : Path right s w t) :
    Path g (s + left.size) w (t + left.size) := by
  apply h.map (· + left.size)
  intro s label t harc
  exact (hj _ _).2 (.inr (.inl ⟨s, rfl, _, harc, rfl⟩))

theorem mem_left (hj : Joins g left right Tie) (hs : left.HasState s)
    (h : ⟨label, p⟩ ∈ g.arcs s) : ⟨label, p⟩ ∈ left.arcs s ∨ Tie s ⟨label, p⟩ := by
  rcases (hj _ _).1 h with h | ⟨r, rfl, b, hb, -⟩ | h
  · exact .inl h
  · have hle := hs.2
    have hpos := (hasState_of_mem_arcs hb).1
    omega
  · exact .inr h

theorem mem_right (hj : Joins g left right Tie) (hs : right.HasState s)
    (h : ⟨label, p⟩ ∈ g.arcs (s + left.size)) :
    (∃ t, ⟨label, t⟩ ∈ right.arcs s ∧ p = t + left.size) ∨ Tie (s + left.size) ⟨label, p⟩ := by
  rcases (hj _ _).1 h with h | ⟨r, hr, b, hb, heq⟩ | h
  · have hle := (hasState_of_mem_arcs h).2
    have hpos := hs.1
    omega
  · obtain ⟨rfl, rfl⟩ := Arc.mk.inj heq
    obtain rfl : s = r := by omega
    exact .inl ⟨b.target, hb, rfl⟩
  · exact .inr h

/-- States behind both parts have no arcs but those that tie. -/
theorem mem_behind (hj : Joins g left right Tie) (hs : left.size + right.size < s)
    (h : ⟨label, p⟩ ∈ g.arcs s) : Tie s ⟨label, p⟩ := by
  rcases (hj _ _).1 h with h | ⟨r, rfl, b, hb, -⟩ | h
  · have hle := (hasState_of_mem_arcs h).2
    omega
  · have hle := (hasState_of_mem_arcs hb).2
    omega
  · exact h

/-- A path of the left part stays there when no arc ties a state of it to another. -/
theorem stay_left (hj : Joins g left right Tie) (hl : left.InRange)
    (hTie : ∀ s arc, left.HasState s → ¬ Tie s arc) (hs : left.HasState s) (h : Path g s w u) :
    left.HasState u ∧ Path left s w u := by
  have hmem (s : Nat) (label : Label) (p : Nat) (hs : left.HasState s)
      (hmem : ⟨label, p⟩ ∈ g.arcs s) : ∃ t, ⟨label, t⟩ ∈ left.arcs s ∧ p = t := by
    have hleft := (hj.mem_left hs hmem).resolve_right (hTie s _ hs)
    exact ⟨p, hleft, rfl⟩
  obtain ⟨t, rfl, ht⟩ := Path.stay id hl hmem hs h
  exact ht

theorem stay_right (hj : Joins g left right Tie) (hr : right.InRange)
    (hTie : ∀ s arc, right.HasState s → ¬ Tie (s + left.size) arc)
    (hs : right.HasState s) (h : Path g (s + left.size) w u) :
    ∃ t, u = t + left.size ∧ right.HasState t ∧ Path right s w t := by
  apply Path.stay (· + left.size) hr _ hs h
  intro s label p hs hmem
  exact (hj.mem_right hs hmem).resolve_right (hTie s _ hs)

end Joins

theorem joins_concatenate (hl : left.InRange) (right : Fragment) :
    Joins (left.concatenate right) left right fun s arc =>
      s ∈ left.accepting ∧ arc = ⟨.epsilon, right.start + left.size⟩ :=
  fun _ _ => mem_arcs_concatenate hl

theorem joins_alternate (left right : Fragment) :
    Joins (left.alternate right) left right fun s arc =>
      s = left.size + right.size + 1 ∧
        (arc = ⟨.epsilon, left.start⟩ ∨ arc = ⟨.epsilon, right.start + left.size⟩) :=
  fun _ _ => mem_arcs_alternate

/-- No state of the left part is one of the right part. -/
theorem HasState.ne_shift (hs : left.HasState s) (ht : right.HasState t) : s ≠ t + left.size := by
  have hle := hs.2
  have hpos := ht.1
  omega

theorem language_concatenate (hl : left.InRange) (hr : right.InRange) :
    (left.concatenate right).language = left.language * right.language := by
  have hjoin := joins_concatenate hl right
  have hexit (s : Nat) (label : Label) (p : Nat) (hs : left.HasState s)
      (hmem : ⟨label, p⟩ ∈ (left.concatenate right).arcs s) :
      (∃ t, ⟨label, t⟩ ∈ left.arcs s ∧ p = t) ∨
        (s ∈ left.accepting ∧ label = .epsilon ∧ p = right.start + left.size) := by
    rcases hjoin.mem_left hs hmem with hmem | ⟨hacc, heq⟩
    · exact .inl ⟨p, hmem, rfl⟩
    · exact .inr ⟨hacc, Arc.mk.inj heq⟩
  ext w
  rw [Language.mem_mul, mem_language, start_concatenate]
  constructor
  · rintro ⟨t, ht, hpath⟩
    obtain ⟨r, hacc, rfl⟩ := List.mem_map.1 ht
    rcases Path.leave id left.accepting hl hexit hl.start hpath with
      ⟨t, heq, ht, -⟩ | ⟨v, x, rfl, hv, hx⟩
    · exact absurd heq.symm (ht.ne_shift (hr.accepting r hacc))
    · obtain ⟨t, heq, -, hx⟩ := hjoin.stay_right hr
        (fun s arc hs htie => (hl.accepting _ htie.1).ne_shift hs rfl) hr.start hx
      obtain rfl : r = t := Nat.add_right_cancel heq
      exact ⟨v, hv, x, ⟨r, hacc, hx⟩, rfl⟩
  · rintro ⟨v, ⟨a, ha, hv⟩, x, ⟨t, ht, hx⟩, rfl⟩
    have htie := (hjoin _ _).2 (.inr (.inr ⟨ha, rfl⟩))
    refine ⟨t + left.size, List.mem_map_of_mem ht, ?_⟩
    exact (hjoin.path_left hv).append (.epsilon htie (hjoin.path_right hx))

theorem mem_accepting_alternate : t ∈ (left.alternate right).accepting ↔
    t ∈ left.accepting ∨ ∃ r ∈ right.accepting, r + left.size = t := by
  rw [← List.mem_map, ← List.mem_append]
  rfl

/-- A path from the new start of an alternative goes on in one of the two parts. -/
theorem path_start_alternate (hl : left.InRange) (hr : right.InRange)
    (h : Path (left.alternate right) (left.size + right.size + 1) w u) :
    u = left.size + right.size + 1 ∨ (left.HasState u ∧ Path left left.start w u) ∨
      ∃ t, u = t + left.size ∧ right.HasState t ∧ Path right right.start w t := by
  have hjoin := joins_alternate left right
  cases h with
  | nil => exact .inl rfl
  | symbol harc =>
    obtain ⟨-, heq⟩ := hjoin.mem_behind (Nat.lt_succ_self _) harc
    simp at heq
  | epsilon harc htail =>
    obtain ⟨-, heq⟩ := hjoin.mem_behind (Nat.lt_succ_self _) harc
    rcases heq with heq | heq
    · obtain ⟨-, rfl⟩ := Arc.mk.inj heq
      refine .inr (.inl (hjoin.stay_left hl ?_ hl.start htail))
      intro s arc hs htie
      have hle := hs.2
      have hnew := htie.1
      omega
    · obtain ⟨-, rfl⟩ := Arc.mk.inj heq
      refine .inr (.inr (hjoin.stay_right hr ?_ hr.start htail))
      intro s arc hs htie
      have hle := hs.2
      have hnew := htie.1
      omega

theorem language_alternate (hl : left.InRange) (hr : right.InRange) :
    (left.alternate right).language = left.language + right.language := by
  have hjoin := joins_alternate left right
  ext w
  rw [Language.mem_add, mem_language, start_alternate]
  constructor
  · rintro ⟨u, hacc, hpath⟩
    rw [mem_accepting_alternate] at hacc
    rcases path_start_alternate hl hr hpath with rfl | ⟨hu, hpath⟩ | ⟨t, rfl, ht, hpath⟩
    · rcases hacc with hacc | ⟨r, hacc, heq⟩
      · have := (hl.accepting _ hacc).2
        omega
      · have := (hr.accepting r hacc).2
        omega
    · refine .inl ⟨u, hacc.resolve_right ?_, hpath⟩
      rintro ⟨r, hacc, heq⟩
      exact hu.ne_shift (hr.accepting r hacc) heq.symm
    · rcases hacc with hacc | ⟨r, hacc, heq⟩
      · exact absurd rfl ((hl.accepting _ hacc).ne_shift ht)
      · obtain rfl : r = t := Nat.add_right_cancel heq
        exact .inr ⟨r, hacc, hpath⟩
  · rintro (⟨t, hacc, hpath⟩ | ⟨t, hacc, hpath⟩)
    · have harc := (hjoin _ _).2 (.inr (.inr ⟨rfl, .inl rfl⟩))
      exact ⟨t, mem_accepting_alternate.2 (.inl hacc), .epsilon harc (hjoin.path_left hpath)⟩
    · have harc := (hjoin _ _).2 (.inr (.inr ⟨rfl, .inr rfl⟩))
      exact ⟨t + left.size, mem_accepting_alternate.2 (.inr ⟨t, hacc, rfl⟩),
        .epsilon harc (hjoin.path_right hpath)⟩

/-! ### Star -/

theorem mem_accepting_star : t ∈ f.star.accepting ↔ t ∈ f.accepting ∨ t = f.size + 1 := by
  rw [← List.mem_singleton, ← List.mem_append]
  rfl

theorem append_mem_kstar {l : Language Char} (hv : v ∈ l) (hw : w ∈ KStar.kstar l) :
    v ++ w ∈ KStar.kstar l := by
  have hle : l * KStar.kstar l ≤ KStar.kstar l := mul_kstar_le_kstar
  exact hle (Language.mem_mul.2 ⟨v, hv, w, hw, rfl⟩)

/-- A path of a star from an old state to acceptance reads the rest of a word of the fragment and
then any number of words. -/
theorem path_star (hf : f.InRange) (hs : f.HasState s) (h : Path f.star s w u)
    (hu : u ∈ f.star.accepting) :
    ∃ v x, w = v ++ x ∧ (∃ a ∈ f.accepting, Path f s v a) ∧ x ∈ KStar.kstar f.language := by
  induction h with
  | nil s =>
    rcases mem_accepting_star.1 hu with hu | rfl
    · exact ⟨[], [], rfl, ⟨s, hu, .nil s⟩, Language.nil_mem_kstar _⟩
    · exact absurd hs f.not_hasState_succ
  | epsilon harc _ ih =>
    rcases (mem_arcs_star hf).1 harc with harc | ⟨hacc, heq⟩ | ⟨rfl, -⟩
    · obtain ⟨v, x, hw, ⟨a, ha, hv⟩, hx⟩ := ih (hf.targets _ _ harc) hu
      exact ⟨v, x, hw, ⟨a, ha, .epsilon harc hv⟩, hx⟩
    · -- back at the start: what was read from there on is a word of its own
      obtain ⟨-, rfl⟩ := Arc.mk.inj heq
      obtain ⟨v, x, rfl, hv, hx⟩ := ih hf.start hu
      exact ⟨[], v ++ x, rfl, ⟨_, hacc, .nil _⟩, append_mem_kstar hv hx⟩
    · exact absurd hs f.not_hasState_succ
  | symbol harc _ ih =>
    rcases (mem_arcs_star hf).1 harc with harc | ⟨-, heq⟩ | ⟨rfl, -⟩
    · obtain ⟨v, x, rfl, ⟨a, ha, hv⟩, hx⟩ := ih (hf.targets _ _ harc) hu
      exact ⟨_ :: v, x, rfl, ⟨a, ha, .symbol harc hv⟩, hx⟩
    · exact nomatch heq
    · exact absurd hs f.not_hasState_succ

/-- A path from the new start of a star stays there for nothing, or goes on at the old start. -/
theorem path_start_star (hf : f.InRange) (h : Path f.star (f.size + 1) w u) :
    (u = f.size + 1 ∧ w = []) ∨ Path f.star f.start w u := by
  generalize hs : f.size + 1 = s at h
  induction h with
  | nil => exact .inl ⟨rfl, rfl⟩
  | symbol harc =>
    subst hs
    rcases (mem_arcs_star hf).1 harc with harc | ⟨-, heq⟩ | ⟨-, heq⟩
    · exact absurd (hasState_of_mem_arcs harc) f.not_hasState_succ
    · exact nomatch heq
    · simp at heq
  | epsilon harc htail ih =>
    subst hs
    rcases (mem_arcs_star hf).1 harc with harc | ⟨hacc, -⟩ | ⟨-, heq | heq⟩
    · exact absurd (hasState_of_mem_arcs harc) f.not_hasState_succ
    · exact absurd (hf.accepting _ hacc) f.not_hasState_succ
    · obtain ⟨-, rfl⟩ := Arc.mk.inj heq
      exact .inr htail
    · obtain ⟨-, rfl⟩ := Arc.mk.inj heq
      exact ih rfl

theorem path_star_of_path (hf : f.InRange) (h : Path f s w t) : Path f.star s w t := by
  apply h.map id
  intro s label t harc
  exact (mem_arcs_star hf).2 (.inl harc)

/-- Words of the fragment one after the other, with the arc back to the start between them. -/
theorem path_star_words (hf : f.InRange) {words : List Text} (hw : w ∈ f.language)
    (hwords : ∀ v ∈ words, v ∈ f.language) :
    ∃ a ∈ f.accepting, Path f.star f.start (w ++ words.flatten) a := by
  obtain ⟨a, ha, hpath⟩ := hw
  induction words generalizing w a with
  | nil =>
    refine ⟨a, ha, ?_⟩
    rw [List.flatten_nil, List.append_nil]
    exact path_star_of_path hf hpath
  | cons v words ih =>
    obtain ⟨b, hb, hv⟩ := hwords v List.mem_cons_self
    obtain ⟨c, hc, hrest⟩ := ih (fun x hx => hwords x (List.mem_cons_of_mem v hx)) b hb hv
    have hback := (mem_arcs_star hf).2 (.inr (.inl ⟨ha, rfl⟩))
    exact ⟨c, hc, (path_star_of_path hf hpath).append (.epsilon hback hrest)⟩

theorem language_star (hf : f.InRange) : f.star.language = KStar.kstar f.language := by
  ext w
  constructor
  · rintro ⟨t, ht, hpath⟩
    rcases path_start_star hf hpath with ⟨-, rfl⟩ | hpath
    · exact Language.nil_mem_kstar _
    · obtain ⟨v, x, rfl, hv, hx⟩ := path_star hf hf.start hpath ht
      exact append_mem_kstar hv hx
  · intro h
    obtain ⟨words, rfl, hwords⟩ := Language.mem_kstar.1 h
    cases words with
    | nil => exact ⟨f.size + 1, mem_accepting_star.2 (.inr rfl), .nil _⟩
    | cons v words =>
      have hv := hwords v List.mem_cons_self
      obtain ⟨a, ha, hpath⟩ := path_star_words hf hv fun x hx =>
        hwords x (List.mem_cons_of_mem v hx)
      have harc := (mem_arcs_star hf).2 (.inr (.inr ⟨rfl, .inl rfl⟩))
      exact ⟨a, mem_accepting_star.2 (.inl ha), .epsilon harc hpath⟩

end PatternLexer.Fragment
