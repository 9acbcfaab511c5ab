import Mathlib.Data.List.TakeWhile
import PatternLexer.Source.Cursor

/-! The first word of a text. A text is blank or has a first word, and what a cursor takes from it
follows from that word alone. All its words are taken one after the other, so what is true of a
blank text, and of a text when it is true behind its first word, is true of all. -/

namespace PatternLexer

namespace Text

variable {text blanks word rest front : Text}

/-- A text is made up of blanks, a whole word, and what is left behind the word. -/
structure FirstWord (text blanks word rest : Text) : Prop where
  eq_append : text = blanks ++ (word ++ rest)
  blanks : ∀ c ∈ blanks, isBlank c = true
  ne_nil : word ≠ []
  plain : ∀ c ∈ word, isBlank c = false
  behind : ∀ c ∈ rest.head?, isBlank c = true

theorem blank_or_firstWord (text : Text) : (∀ c ∈ text, isBlank c = true) ∨
    ∃ blanks word rest, FirstWord text blanks word rest := by
  have hsplit := (List.takeWhile_append_dropWhile (p := isBlank) (l := text)).symm
  cases hdrop : text.dropWhile isBlank with
  | nil =>
    rw [hdrop, List.append_nil] at hsplit
    rw [hsplit]
    exact .inl fun c hc => List.mem_takeWhile_imp hc
  | cons first behind =>
    have hfirst : isBlank first = false :=
      Cursor.not_of_mem_head?_dropWhile isBlank text first (by rw [hdrop]; rfl)
    have hword := List.takeWhile_append_dropWhile (p := fun c => !isBlank c) (l := behind)
    rw [hdrop, ← hword, ← List.cons_append] at hsplit
    refine .inr ⟨_, _, _, hsplit, fun c hc => List.mem_takeWhile_imp hc, List.cons_ne_nil _ _, ?_,
      fun c hc => ?_⟩
    · exact List.forall_mem_cons.2 ⟨hfirst, fun c hc => by simpa using List.mem_takeWhile_imp hc⟩
    · simpa using Cursor.not_of_mem_head?_dropWhile _ behind c hc

namespace FirstWord

theorem length_lt (h : FirstWord text blanks word rest) : rest.length < text.length := by
  have hpos := List.length_pos_iff.2 h.ne_nil
  rw [h.eq_append, List.length_append, List.length_append]
  omega

/-- More blanks may stand in front. -/
theorem blanks_append (h : FirstWord text blanks word rest)
    (hfront : ∀ c ∈ front, isBlank c = true) :
    FirstWord (front ++ text) (front ++ blanks) word rest where
  eq_append := by rw [h.eq_append, List.append_assoc]
  blanks := List.forall_mem_append.2 ⟨hfront, h.blanks⟩
  ne_nil := h.ne_nil
  plain := h.plain
  behind := h.behind

/-- A word stays whole when the text goes on with a blank. -/
theorem append_blank (h : FirstWord text blanks word rest) {c : Char} (hc : isBlank c = true)
    (behind : Text) :
    FirstWord (text ++ c :: behind) blanks word (rest ++ c :: behind) where
  eq_append := by rw [h.eq_append, List.append_assoc, List.append_assoc]
  blanks := h.blanks
  ne_nil := h.ne_nil
  plain := h.plain
  behind := by
    cases rest with
    | nil => exact fun d hd => Option.some.inj hd ▸ hc
    | cons d rest => exact h.behind

end FirstWord

end Text

namespace Cursor

variable {c stop : Cursor} {candidate : Candidate} {candidates : List Candidate} {p : Position}
  {text blanks word rest taken left : Text}

/-! ### One word -/

theorem takeWhile_append_of_head? {kind : Char → Bool} (htaken : ∀ d ∈ taken, kind d = true)
    (hleft : ∀ d ∈ left.head?, kind d = false) :
    (⟨p, taken ++ left⟩ : Cursor).takeWhile kind = (taken, ⟨p.past taken, left⟩) := by
  have hstop : left.takeWhile kind = [] ∧ left.dropWhile kind = left := by
    cases left with
    | nil => exact ⟨rfl, rfl⟩
    | cons d left => simp [hleft d rfl]
  unfold takeWhile
  simp only [List.takeWhile_append_of_pos htaken, List.dropWhile_append_of_pos htaken, hstop.1,
    hstop.2, List.append_nil]

theorem skipBlanks_append (hblanks : ∀ d ∈ blanks, Text.isBlank d = true)
    (hleft : ∀ d ∈ left.head?, Text.isBlank d = false) :
    (⟨p, blanks ++ left⟩ : Cursor).skipBlanks = ⟨p.past blanks, left⟩ := by
  rw [skipBlanks, takeWhile_append_of_head? hblanks hleft]

theorem word_of_blank (hblank : ∀ d ∈ text, Text.isBlank d = true) :
    (⟨p, text⟩ : Cursor).word = (none, ⟨p.past text, []⟩) := by
  have hskip : (⟨p, text ++ []⟩ : Cursor).skipBlanks = ⟨p.past text, []⟩ :=
    skipBlanks_append hblank nofun
  rw [List.append_nil] at hskip
  rw [Cursor.word, hskip]

/-- A word is read behind the blanks in front of it, and begins one column further. -/
theorem word_of_firstWord (h : Text.FirstWord text blanks word rest) (p : Position) :
    (⟨p, text⟩ : Cursor).word =
      (some ⟨word, (p.past blanks).advanced 1⟩, ⟨(p.past blanks).past word, rest⟩) := by
  obtain ⟨rfl, hblanks, hne, hplain, hbehind⟩ := h
  obtain ⟨first, word, rfl⟩ := List.exists_cons_of_ne_nil hne
  have hskip : (⟨p, blanks ++ (first :: word ++ rest)⟩ : Cursor).skipBlanks =
      ⟨p.past blanks, first :: word ++ rest⟩ :=
    skipBlanks_append hblanks (by simpa using hplain first List.mem_cons_self)
  have htake : (⟨p.past blanks, first :: word ++ rest⟩ : Cursor).takeWhile
      (fun d => !Text.isBlank d) = (first :: word, ⟨(p.past blanks).past (first :: word), rest⟩) :=
    takeWhile_append_of_head? (fun d hd => by simp [hplain d hd]) (by simpa using hbehind)
  rw [Cursor.word, hskip]
  simp only [List.cons_append] at htake ⊢
  rw [htake]

/-! ### All words -/

theorem words_eq_nil (h : c.word = (none, stop)) : c.words = [] := by
  rw [words, h]

theorem words_eq_cons (h : c.word = (some candidate, stop)) (hstop : stop.words = candidates) :
    c.words = candidate :: candidates := by
  rw [words, h]
  exact congrArg (candidate :: ·) hstop

theorem words_of_blank (hblank : ∀ d ∈ text, Text.isBlank d = true) (p : Position) :
    (⟨p, text⟩ : Cursor).words = [] := words_eq_nil (word_of_blank hblank)

theorem words_of_firstWord (h : Text.FirstWord text blanks word rest) (p : Position) :
    (⟨p, text⟩ : Cursor).words =
      ⟨word, (p.past blanks).advanced 1⟩ :: (⟨(p.past blanks).past word, rest⟩ : Cursor).words :=
  words_eq_cons (word_of_firstWord h p) rfl

/-- Induction along the words that a cursor takes. -/
@[elab_as_elim]
theorem words_induction {motive : Position → Text → Prop}
    (blank : ∀ p text, (∀ d ∈ text, Text.isBlank d = true) → motive p text)
    (word : ∀ p text blanks word rest, Text.FirstWord text blanks word rest →
      motive ((p.past blanks).past word) rest → motive p text)
    (p : Position) (text : Text) : motive p text := by
  generalize hlength : text.length = n
  induction n using Nat.strongRecOn generalizing p text with
  | ind n ih =>
    subst hlength
    rcases text.blank_or_firstWord with hblank | ⟨blanks, first, rest, h⟩
    · exact blank p text hblank
    · exact word p text blanks first rest h (ih rest.length h.length_lt _ rest rfl)

end Cursor

end PatternLexer
