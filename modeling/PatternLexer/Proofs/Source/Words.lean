import PatternLexer.Proofs.Source.Tiling

/-! The words of a text, got by splitting it at its blanks. A cursor takes just these words, so
the words of a source do not depend on how many blanks stand between them, or which. -/

namespace PatternLexer

namespace Text

/-- The longest runs of a text without blanks, in order. -/
def words (text : Text) : List Text := (text.splitOnP isBlank).filter (· ≠ [])

variable {text word rest blanks : Text} {c : Char}

/-- Everything about words follows from how they split at a blank. -/
theorem words_append_cons (hc : isBlank c = true) (text rest : Text) :
    words (text ++ c :: rest) = words text ++ words rest := by
  unfold words
  rw [List.splitOnP_append_cons text rest hc, List.filter_append]

theorem words_append_of_blank (hblanks : ∀ c ∈ blanks, isBlank c = true) (text : Text) :
    words (blanks ++ text) = words text := by
  induction blanks with
  | nil => rfl
  | cons c blanks ih =>
    have hfront := words_append_cons (hblanks c List.mem_cons_self) [] (blanks ++ text)
    exact hfront.trans (ih fun d hd => hblanks d (List.mem_cons_of_mem _ hd))

theorem words_of_plain (hne : word ≠ []) (hword : ∀ c ∈ word, isBlank c = false) :
    words word = [word] := by
  rw [words, List.splitOnP_eq_singleton hword]
  simp [hne]

/-- A word ends where a blank stands or nothing more. -/
theorem words_append_of_plain (hne : word ≠ []) (hword : ∀ c ∈ word, isBlank c = false)
    (hrest : ∀ c ∈ rest.head?, isBlank c = true) : words (word ++ rest) = word :: words rest := by
  cases rest with
  | nil =>
    rw [List.append_nil, words_of_plain hne hword]
    rfl
  | cons c rest =>
    have hc : isBlank c = true := hrest c rfl
    rw [words_append_cons hc, words_of_plain hne hword, List.singleton_append]
    exact congrArg (word :: ·) (words_append_cons hc [] rest).symm

end Text

theorem Cursor.map_text_words (c : Cursor) : c.words.map Candidate.text = c.rest.words := by
  obtain ⟨p, text⟩ := c
  induction p, text using words_induction with
  | blank p text h =>
    have hnone : Text.words (text ++ []) = Text.words [] := Text.words_append_of_blank h []
    rw [words_of_blank h]
    rw [List.append_nil] at hnone
    exact hnone.symm
  | word p text blanks word rest h ih =>
    rw [words_of_firstWord h, h.eq_append, Text.words_append_of_blank h.blanks,
      Text.words_append_of_plain h.ne_nil h.plain h.behind, ← ih]
    rfl

/-- Every word of a text is the only word of itself. -/
theorem Text.words_of_mem_words {text word : Text} (h : word ∈ text.words) :
    word.words = [word] := by
  have hmap : (Cursor.ofText text).words.map Candidate.text = text.words :=
    Cursor.map_text_words (.ofText text)
  rw [← hmap] at h
  obtain ⟨candidate, hcandidate, rfl⟩ := List.mem_map.1 h
  obtain ⟨hne, hplain⟩ := (Cursor.tiles_words (.ofText text)).plain candidate hcandidate
  exact words_of_plain hne hplain

end PatternLexer
