import PatternLexer.Proofs.Source.Words

/-! Runs: the longest stretches of a source without blanks, where they stand. The words that a
cursor takes are runs, and a piece of a source belongs to one run at most, since a position is the
position of one offset only and two runs with an offset in common are the same. -/

namespace PatternLexer

variable {source front text behind : Text} {offset i j : Nat} {run run' piece : Candidate}

/-! ### Positions and offsets -/

namespace Position

/-- Reading leads to a later line, or further on the same line. -/
theorem past_ascends (p : Position) (text : Text) :
    p.line < (p.past text).line ∨
      (p.past text).line = p.line ∧ (p.past text).column = p.column + text.length := by
  induction text generalizing p with
  | nil => exact .inr ⟨rfl, rfl⟩
  | cons c text ih =>
    have hstep : p.past (c :: text) = (p.after c).past text := rfl
    have hafter := ih (p.after c)
    rw [hstep]
    by_cases hc : c = '\n'
    · have hline : (p.after c).line = p.line + 1 := by rw [after, if_pos hc]
      omega
    · have hsame : p.after c = p.advanced 1 := if_neg hc
      have hline : (p.after c).line = p.line := by rw [hsame, advanced]
      have hcolumn : (p.after c).column = p.column + 1 := by rw [hsame, advanced]
      rw [List.length_cons]
      omega

/-- Every offset of a source has a position of its own. -/
theorem ofOffset_injective (hi : i ≤ source.length) (hj : j ≤ source.length)
    (h : ofOffset source i = ofOffset source j) : i = j := by
  have hlt {i j : Nat} (hj : j ≤ source.length) (hij : i < j) :
      ofOffset source i ≠ ofOffset source j := by
    intro heq
    have htake : source.take j = source.take i ++ (source.drop i).take (j - i) := by
      rw [← List.take_add, Nat.add_sub_cancel' (Nat.le_of_lt hij)]
    have hlength : ((source.drop i).take (j - i)).length = j - i := by
      rw [List.length_take, List.length_drop]
      omega
    rw [ofOffset_eq, ofOffset_eq, htake, past_append] at heq
    have hascends := past_ascends (({} : Position).past (source.take i))
      ((source.drop i).take (j - i))
    obtain ⟨hline, hcolumn⟩ := Position.mk.inj heq
    omega
  rcases Nat.lt_trichotomy i j with hij | hij | hij
  · exact absurd h (hlt hj hij)
  · exact hij
  · exact absurd h.symm (hlt hi hij)

end Position

namespace Candidate

/-! ### Runs -/

/-- A stretch of the source without blanks that cannot be made longer on either side. -/
structure IsRun (run : Candidate) (source : Text) (offset : Nat) : Prop extends
    run.StandsAt source offset where
  ne_nil : run.text ≠ []
  plain : ∀ c ∈ run.text, Text.isBlank c = false
  front : ∀ c ∈ (source.take offset).getLast?, Text.isBlank c = true
  behind : ∀ c ∈ (source.drop (offset + run.text.length)).head?, Text.isBlank c = true

/-- Some characters of a run in a row, at least one, where they stand in the run. -/
def IsPartOf (piece run : Candidate) : Prop :=
  piece.text ≠ [] ∧ ∃ before behind, run.text = before ++ (piece.text ++ behind) ∧
    piece.position = run.position.advanced before.length

theorem isRun_of_append (hsource : source = front ++ (text ++ behind)) (hne : text ≠ [])
    (hplain : ∀ c ∈ text, Text.isBlank c = false)
    (hfront : ∀ c ∈ front.getLast?, Text.isBlank c = true)
    (hbehind : ∀ c ∈ behind.head?, Text.isBlank c = true) :
    (⟨text, (({} : Position).past front).advanced 1⟩ : Candidate).IsRun source front.length := by
  subst hsource
  refine ⟨⟨?_, ?_⟩, hne, hplain, ?_, ?_⟩
  · rw [List.drop_left, List.take_left]
  · rw [Position.ofOffset_eq, List.take_left]
  · rwa [List.take_left]
  · rwa [← List.drop_drop, List.drop_left, List.drop_left]

theorem IsRun.length_le (h : run.IsRun source offset) :
    offset + run.text.length ≤ source.length := by
  have hlength := congrArg List.length h.text
  have hpos := List.length_pos_iff.2 h.ne_nil
  rw [List.length_take, List.length_drop] at hlength
  omega

theorem IsRun.take_add (h : run.IsRun source offset) (hi : i ≤ run.text.length) :
    source.take (offset + i) = source.take offset ++ run.text.take i := by
  rw [List.take_add, ← h.text, List.take_take, Nat.min_eq_left hi]

theorem IsRun.drop_add (h : run.IsRun source offset) (hi : i ≤ run.text.length) :
    source.drop (offset + i) = run.text.drop i ++ source.drop (offset + run.text.length) := by
  have htext := List.take_append_drop run.text.length (source.drop offset)
  rw [h.text, List.drop_drop] at htext
  rw [← List.drop_drop, ← htext, List.drop_append_of_le_length hi]

/-- The characters of a run stand on one line, each a column behind the one before. -/
theorem IsRun.ofOffset_add (h : run.IsRun source offset) (hi : i ≤ run.text.length) :
    .ofOffset source (offset + i) = run.position.advanced i := by
  have hplain : ∀ c ∈ run.text.take i, Text.isBlank c = false := fun c hc =>
    h.plain c (List.mem_of_mem_take hc)
  rw [Position.ofOffset_eq, h.take_add hi, Position.past_append, Position.past_of_plain hplain,
    List.length_take, Nat.min_eq_left hi, h.position, Position.ofOffset_eq]
  simp [Nat.add_comm]

/-! ### Runs with an offset in common -/

/-- No run begins inside of another. -/
theorem IsRun.le_of_lt (h : run.IsRun source i) (h' : run'.IsRun source j)
    (hlt : j < i + run.text.length) : j ≤ i := by
  by_contra hij
  obtain ⟨k, rfl⟩ : ∃ k, j = i + k := ⟨j - i, by omega⟩
  have hne : run.text.take k ≠ [] := by
    apply List.ne_nil_of_length_pos
    rw [List.length_take]
    omega
  have hlast : (source.take (i + k)).getLast? = some ((run.text.take k).getLast hne) := by
    rw [h.take_add (by omega), List.getLast?_append, List.getLast?_eq_some_getLast hne,
      Option.some_or]
  have hblank := h'.front _ hlast
  have hplain := h.plain _ (List.mem_of_mem_take (List.getLast_mem hne))
  exact absurd (hblank.symm.trans hplain) (by decide)

/-- No run ends inside of another. -/
theorem IsRun.length_le_length (h : run.IsRun source offset) (h' : run'.IsRun source offset) :
    run'.text.length ≤ run.text.length := by
  by_contra hlt
  have hdrop := h'.drop_add (i := run.text.length) (by omega)
  have hne : run'.text.drop run.text.length ≠ [] := by
    apply List.ne_nil_of_length_pos
    rw [List.length_drop]
    omega
  have hhead : (source.drop (offset + run.text.length)).head? =
      some ((run'.text.drop run.text.length).head hne) := by
    rw [hdrop, List.head?_append, List.head?_eq_some_head hne, Option.some_or]
  have hblank := h.behind _ hhead
  have hplain := h'.plain _ (List.mem_of_mem_drop (List.head_mem hne))
  exact absurd (hblank.symm.trans hplain) (by decide)

theorem IsRun.eq_of_overlap (h : run.IsRun source i) (h' : run'.IsRun source j)
    (hlt : j < i + run.text.length) (hlt' : i < j + run'.text.length) : run = run' := by
  obtain rfl : i = j := Nat.le_antisymm (h'.le_of_lt h hlt') (h.le_of_lt h' hlt)
  have hlength := Nat.le_antisymm (h'.length_le_length h) (h.length_le_length h')
  have htext : run.text = run'.text := by rw [← h.text, ← h'.text, hlength]
  have hposition : run.position = run'.position := h.position.trans h'.position.symm
  calc run = ⟨run.text, run.position⟩ := rfl
    _ = ⟨run'.text, run'.position⟩ := by rw [htext, hposition]

/-! ### Parts of runs -/

theorem isPartOf_self (hne : run.text ≠ []) : run.IsPartOf run := ⟨hne, [], [], by simp, rfl⟩

theorem IsPartOf.trans (h : piece.IsPartOf run) (h' : run.IsPartOf run') :
    piece.IsPartOf run' := by
  obtain ⟨hne, before, behind, htext, hposition⟩ := h
  obtain ⟨-, before', behind', htext', hposition'⟩ := h'
  refine ⟨hne, before' ++ before, behind ++ behind', by simp [htext, htext'], ?_⟩
  rw [hposition, hposition', Position.advanced_advanced, List.length_append]

theorem IsPartOf.mem {c : Char} (h : piece.IsPartOf run) (hc : c ∈ piece.text) : c ∈ run.text := by
  obtain ⟨-, before, behind, htext, -⟩ := h
  rw [htext]
  exact List.mem_append_right _ (List.mem_append_left _ hc)

/-- A piece is part of one run only. -/
theorem IsPartOf.eq_run (h : piece.IsPartOf run) (h' : piece.IsPartOf run')
    (hrun : run.IsRun source i) (hrun' : run'.IsRun source j) : run = run' := by
  obtain ⟨hne, before, behind, htext, hposition⟩ := h
  obtain ⟨-, before', behind', htext', hposition'⟩ := h'
  have hpos := List.length_pos_iff.2 hne
  have hlength := congrArg List.length htext
  have hlength' := congrArg List.length htext'
  simp only [List.length_append] at hlength hlength'
  have hsame : i + before.length = j + before'.length := by
    apply Position.ofOffset_injective
    · exact Nat.le_trans (by omega) hrun.length_le
    · exact Nat.le_trans (by omega) hrun'.length_le
    · rw [hrun.ofOffset_add (by omega), hrun'.ofOffset_add (by omega), ← hposition, ← hposition']
  exact hrun.eq_of_overlap hrun' (by omega) (by omega)

end Candidate

/-! ### The words of a source -/

namespace Cursor

/-- Without blanks in front of it a word begins where the cursor stands. -/
theorem isBlank_before_word {front blanks word rest : Text}
    (hbegin : (∀ d ∈ front.getLast?, Text.isBlank d = true) ∨
      ∀ d ∈ (blanks ++ (word ++ rest)).head?, Text.isBlank d = true)
    (hblanks : ∀ d ∈ blanks, Text.isBlank d = true) (hne : word ≠ [])
    (hplain : ∀ d ∈ word, Text.isBlank d = false) :
    ∀ d ∈ (front ++ blanks).getLast?, Text.isBlank d = true := by
  cases hlast : blanks.getLast? with
  | none =>
    obtain rfl := List.getLast?_eq_none_iff.1 hlast
    rw [List.append_nil]
    refine hbegin.resolve_right fun hhead => ?_
    have hfirst : ([] ++ (word ++ rest)).head? = some (word.head hne) := by
      rw [List.nil_append, List.head?_append, List.head?_eq_some_head hne, Option.some_or]
    exact absurd ((hhead _ hfirst).symm.trans (hplain _ (List.head_mem hne))) (by decide)
  | some last =>
    intro d hd
    rw [List.getLast?_append, hlast] at hd
    exact hblanks d (List.mem_of_mem_getLast? (hlast.trans hd))

/-- The words behind a place where a run may begin are runs. -/
theorem isRun_of_mem_words (c : Cursor) (front : Text)
    (hposition : c.position = ({} : Position).past front)
    (hbegin : (∀ d ∈ front.getLast?, Text.isBlank d = true) ∨
      ∀ d ∈ c.rest.head?, Text.isBlank d = true) :
    ∀ word ∈ c.words, ∃ offset, word.IsRun (front ++ c.rest) offset := by
  obtain ⟨p, text⟩ := c
  induction p, text using words_induction generalizing front with
  | blank p text h =>
    rw [words_of_blank h]
    exact fun word hword => absurd hword List.not_mem_nil
  | word p text blanks word rest h ih =>
    have hfront := isBlank_before_word (h.eq_append ▸ hbegin) h.blanks h.ne_nil h.plain
    have hsource : front ++ text = front ++ blanks ++ (word ++ rest) := by
      rw [h.eq_append, List.append_assoc]
    obtain rfl : p = ({} : Position).past front := hposition
    rw [words_of_firstWord h]
    refine List.forall_mem_cons.2 ⟨⟨(front ++ blanks).length, ?_⟩, ?_⟩
    · have hrun := Candidate.isRun_of_append hsource h.ne_nil h.plain hfront h.behind
      rwa [Position.past_append] at hrun
    · have hall := ih (front ++ blanks ++ word)
        (by rw [Position.past_append, Position.past_append]) (.inr h.behind)
      rwa [List.append_assoc, ← hsource] at hall

end Cursor

end PatternLexer
