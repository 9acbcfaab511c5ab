import Mathlib.Data.List.Induction
import PatternLexer.Proofs.Source.FirstWord

/-! Tilings: candidates that take up a source without its blanks, piece after piece. The words of a
source tile it, and a tiling stays one when a piece is cut in two. In a tiling every piece stands
where it says. -/

namespace PatternLexer

/-! ### Positions by counting -/

namespace Position

/-- The position of the character behind the first ones of a source, by its line feeds. -/
def ofOffset (source : Text) (offset : Nat) : Position :=
  ⟨1 + (source.take offset).count '\n',
    1 + ((source.take offset).reverse.takeWhile fun c => c ≠ '\n').length⟩

@[simp] theorem advanced_advanced (p : Position) (m n : Nat) :
    (p.advanced m).advanced n = p.advanced (m + n) := by
  simp [advanced, Nat.add_assoc]

theorem past_eq (text : Text) :
    ({} : Position).past text =
      ⟨1 + text.count '\n', (text.reverse.takeWhile fun c => c ≠ '\n').length⟩ := by
  induction text using List.reverseRecOn with
  | nil => rfl
  | append_singleton text c ih =>
    rw [past_append, ih]
    by_cases hc : c = '\n'
    · subst hc
      simp [past, after, Nat.add_assoc]
    · simp [past, after, advanced, hc]

/-- The counted position is the one a cursor gives to the character that it reads next. -/
theorem ofOffset_eq (source : Text) (offset : Nat) :
    ofOffset source offset = (({} : Position).past (source.take offset)).advanced 1 := by
  rw [past_eq, advanced, ofOffset, Nat.add_comm _ 1]

theorem past_of_plain {text : Text} (h : ∀ c ∈ text, Text.isBlank c = false) (p : Position) :
    p.past text = p.advanced text.length := by
  induction text generalizing p with
  | nil => rfl
  | cons c text ih =>
    have hc : c ≠ '\n' := by
      rintro rfl
      exact absurd (h _ List.mem_cons_self) (by decide)
    have hstep : p.after c = p.advanced 1 := if_neg hc
    have htail := ih (fun d hd => h d (List.mem_cons_of_mem _ hd)) (p.advanced 1)
    show (p.after c).past text = _
    rw [hstep, htail, advanced_advanced, List.length_cons, Nat.add_comm]

end Position

/-! ### Tilings -/

/-- Pieces that take up a text without its blanks, in order. The text begins behind a position. -/
inductive Tiles : Position → Text → List Candidate → Prop
  | nil {p} : Tiles p [] []
  | blank {p c text pieces} (hblank : Text.isBlank c = true) (h : Tiles (p.after c) text pieces) :
      Tiles p (c :: text) pieces
  | piece {p word text pieces} (hne : word ≠ []) (hword : ∀ c ∈ word, Text.isBlank c = false)
      (h : Tiles (p.past word) text pieces) :
      Tiles p (word ++ text) (⟨word, p.advanced 1⟩ :: pieces)

variable {p : Position} {text : Text} {pieces pieces' : List Candidate}

namespace Tiles

theorem blanks {blanks : Text} (hblanks : ∀ c ∈ blanks, Text.isBlank c = true)
    (h : Tiles (p.past blanks) text pieces) : Tiles p (blanks ++ text) pieces := by
  induction blanks generalizing p with
  | nil => exact h
  | cons c blanks ih =>
    exact .blank (hblanks c List.mem_cons_self)
      (ih (fun d hd => hblanks d (List.mem_cons_of_mem _ hd)) h)

/-- Behind pieces that stay, others may take the place of the rest. -/
theorem append_of_imp (done : List Candidate)
    (h : ∀ p text, Tiles p text pieces → Tiles p text pieces')
    (htiles : Tiles p text (done ++ pieces)) : Tiles p text (done ++ pieces') := by
  generalize hall : done ++ pieces = all at htiles
  induction htiles generalizing done with
  | nil =>
    obtain ⟨rfl, rfl⟩ := List.append_eq_nil_iff.1 hall
    exact h _ _ .nil
  | blank hblank _ ih => exact .blank hblank (ih _ hall)
  | @piece q word text rest hne hword hrest ih =>
    cases done with
    | nil =>
      subst hall
      exact h _ _ (.piece hne hword hrest)
    | cons first done =>
      obtain ⟨rfl, htail⟩ := List.cons.inj hall
      exact .piece hne hword (ih _ htail)

/-- The front piece may be cut in two. Its second part stands as far behind as the first is
long. -/
theorem cut {first second : Text} {start : Position} (hfirst : first ≠ []) (hsecond : second ≠ [])
    (h : Tiles p text (⟨first ++ second, start⟩ :: pieces)) :
    Tiles p text (⟨first, start⟩ :: ⟨second, start.advanced first.length⟩ :: pieces) := by
  generalize hall : ⟨first ++ second, start⟩ :: pieces = all at h
  induction h with
  | nil => cases hall
  | blank hblank _ ih => exact .blank hblank (ih hall)
  | @piece q word text rest hne hword hrest ih =>
    obtain ⟨hhead, rfl⟩ := List.cons.inj hall
    obtain ⟨rfl, hposition⟩ := Candidate.mk.inj hhead
    have hplain : ∀ c ∈ first, Text.isBlank c = false := by
      intro c hc
      exact hword c (List.mem_append_left _ hc)
    have hbehind : (q.advanced 1).advanced first.length = (q.past first).advanced 1 := by
      simp [Position.past_of_plain hplain, Nat.add_comm]
    rw [hposition, hbehind, List.append_assoc]
    refine .piece hfirst hplain (.piece hsecond ?_ ?_)
    · intro c hc
      exact hword c (List.mem_append_right _ hc)
    · rwa [← Position.past_append]

end Tiles

/-! ### The words of a source -/

/-- The words of a source tile it. -/
theorem Cursor.tiles_words (c : Cursor) : Tiles c.position c.rest c.words := by
  obtain ⟨p, text⟩ := c
  induction p, text using words_induction with
  | blank p text h =>
    have htiles : Tiles p (text ++ []) [] := .blanks h .nil
    rw [words_of_blank h]
    rwa [List.append_nil] at htiles
  | word p text blanks word rest h ih =>
    rw [words_of_firstWord h, h.eq_append]
    exact .blanks h.blanks (.piece h.ne_nil h.plain ih)

/-! ### What a tiling says of its pieces -/

/-- A candidate is what its source holds at an offset, and has the position of this offset. -/
structure Candidate.StandsAt (candidate : Candidate) (source : Text) (offset : Nat) : Prop where
  text : (source.drop offset).take candidate.text.length = candidate.text
  position : candidate.position = .ofOffset source offset

namespace Tiles

theorem plain (h : Tiles p text pieces) :
    ∀ piece ∈ pieces, piece.text ≠ [] ∧ ∀ c ∈ piece.text, Text.isBlank c = false := by
  induction h with
  | nil => simp
  | blank _ _ ih => exact ih
  | piece hne hword _ ih =>
    intro piece hpiece
    rcases List.mem_cons.1 hpiece with rfl | hpiece
    · exact ⟨hne, hword⟩
    · exact ih piece hpiece

/-- Nothing but the blanks is left out. -/
theorem flatMap_text (h : Tiles p text pieces) :
    pieces.flatMap Candidate.text = text.filter fun c => !Text.isBlank c := by
  induction h with
  | nil => rfl
  | blank hblank _ ih => simp [hblank, ih]
  | @piece q word text rest _ hword _ ih =>
    have hkept : word.filter (fun c => !Text.isBlank c) = word :=
      List.filter_eq_self.2 fun c hc => by simp [hword c hc]
    rw [List.flatMap_cons, ih, List.filter_append, hkept]

/-- The pieces stand in the source one behind the other, each where its position says. -/
theorem exists_offsets (h : Tiles p text pieces) (before : Text)
    (hp : p = ({} : Position).past before) :
    ∃ placed : List (Nat × Candidate), placed.map Prod.snd = pieces ∧
      (∀ x ∈ placed, before.length ≤ x.1 ∧ x.2.StandsAt (before ++ text) x.1) ∧
      placed.Pairwise fun x y => x.1 + x.2.text.length ≤ y.1 := by
  induction h generalizing before with
  | nil => exact ⟨[], rfl, by simp, List.Pairwise.nil⟩
  | @blank q c text rest _ _ ih =>
    have hnext : q.after c = ({} : Position).past (before ++ [c]) := by
      rw [hp, Position.past_append]
      rfl
    obtain ⟨placed, hmap, hplaced, hpairwise⟩ := ih (before ++ [c]) hnext
    refine ⟨placed, hmap, ?_, hpairwise⟩
    intro x hx
    obtain ⟨hle, hstands⟩ := hplaced x hx
    rw [List.length_append] at hle
    rw [List.append_assoc] at hstands
    exact ⟨by omega, hstands⟩
  | @piece q word text rest _ hword _ ih =>
    have hnext : q.past word = ({} : Position).past (before ++ word) := by
      rw [hp, Position.past_append]
    obtain ⟨placed, hmap, hplaced, hpairwise⟩ := ih (before ++ word) hnext
    refine ⟨(before.length, ⟨word, q.advanced 1⟩) :: placed, ?_, ?_, ?_⟩
    · rw [List.map_cons, hmap]
    · intro x hx
      rcases List.mem_cons.1 hx with rfl | hx
      · refine ⟨Nat.le_refl _, ?_, ?_⟩
        · rw [List.drop_left, List.take_left]
        · rw [Position.ofOffset_eq, List.take_left, hp]
      · obtain ⟨hle, hstands⟩ := hplaced x hx
        rw [List.length_append] at hle
        rw [List.append_assoc] at hstands
        exact ⟨by omega, hstands⟩
    · refine .cons ?_ hpairwise
      intro x hx
      have hle := (hplaced x hx).1
      rwa [List.length_append] at hle

end Tiles

end PatternLexer
