import PatternLexer.Lexer.Basic
import PatternLexer.Proofs.Source.Reading
import PatternLexer.Proofs.Source.Runs

/-! Sources put together at a blank. The words of the whole are those of the first part and then
those of the second, which count their positions on from where the first part and the blank end. -/

namespace PatternLexer

namespace Position

/-- The same place when its text begins behind another position. Columns of the first line count on
from there, and the lines behind it have columns of their own. -/
def countedFrom (p base : Position) : Position :=
  if p.line = 1 then ⟨base.line, base.column + p.column⟩ else ⟨base.line + p.line - 1, p.column⟩

variable {p base : Position}

theorem advanced_countedFrom (p base : Position) (columns : Nat) :
    (p.advanced columns).countedFrom base = (p.countedFrom base).advanced columns := by
  by_cases hp : p.line = 1
  · simp [countedFrom, advanced, hp, Nat.add_assoc]
  · simp [countedFrom, advanced, hp]

theorem one_le_line_past (hp : 1 ≤ p.line) (text : Text) : 1 ≤ (p.past text).line := by
  have hascends := past_ascends p text
  omega

theorem after_countedFrom (hp : 1 ≤ p.line) (c : Char) :
    (p.after c).countedFrom base = (p.countedFrom base).after c := by
  by_cases hc : c = '\n'
  · have hfeed (q : Position) : q.after c = ⟨q.line + 1, 0⟩ := if_pos hc
    have hne : p.line + 1 ≠ 1 := by omega
    have hnext : (⟨p.line + 1, 0⟩ : Position).countedFrom base = ⟨base.line + p.line, 0⟩ :=
      if_neg hne
    rw [hfeed, hfeed, hnext, countedFrom]
    split
    · rename_i hfirst
      rw [hfirst]
    · have hline : base.line + p.line - 1 + 1 = base.line + p.line := by omega
      rw [hline]
  · have hsame (q : Position) : q.after c = q.advanced 1 := if_neg hc
    rw [hsame, hsame, advanced_countedFrom]

theorem past_countedFrom (hp : 1 ≤ p.line) (text : Text) :
    (p.past text).countedFrom base = (p.countedFrom base).past text := by
  induction text generalizing p with
  | nil => rfl
  | cons c text ih =>
    have htail := ih (one_le_line_past hp [c])
    show ((p.after c).past text).countedFrom base = ((p.countedFrom base).after c).past text
    rw [← after_countedFrom hp]
    exact htail

end Position

def Candidate.countedFrom (candidate : Candidate) (base : Position) : Candidate :=
  ⟨candidate.text, candidate.position.countedFrom base⟩

namespace Cursor

variable {blanks : Text} {d : Char}

/-- Words do not hang on where their source begins, but for their positions. -/
theorem words_countedFrom (base p : Position) (text : Text) (hline : 1 ≤ p.line) :
    (⟨p.countedFrom base, text⟩ : Cursor).words =
      (⟨p, text⟩ : Cursor).words.map (Candidate.countedFrom · base) := by
  induction p, text using words_induction with
  | blank p text h => rw [words_of_blank h, words_of_blank h, List.map_nil]
  | word p text blanks word rest h ih =>
    have hstart := Position.one_le_line_past hline blanks
    have hrest := ih (Position.one_le_line_past hstart word)
    rw [Position.past_countedFrom hstart, Position.past_countedFrom hline] at hrest
    rw [words_of_firstWord h, hrest, words_of_firstWord h, List.map_cons, Candidate.countedFrom,
      Position.advanced_countedFrom, Position.past_countedFrom hline]

/-- No word is taken from blanks in front. -/
theorem words_blanks_append (hblanks : ∀ d ∈ blanks, Text.isBlank d = true) (p : Position)
    (text : Text) :
    (⟨p, blanks ++ text⟩ : Cursor).words = (⟨p.past blanks, text⟩ : Cursor).words := by
  rcases text.blank_or_firstWord with hblank | ⟨more, word, rest, h⟩
  · have hall := List.forall_mem_append.2 ⟨hblanks, hblank⟩
    rw [words_of_blank hall, words_of_blank hblank]
  · rw [words_of_firstWord (h.blanks_append hblanks), words_of_firstWord h, Position.past_append]

/-- A blank ends the words in front of it. -/
theorem words_append_blank (hd : Text.isBlank d = true) (p : Position) (text behind : Text) :
    (⟨p, text ++ d :: behind⟩ : Cursor).words =
      (⟨p, text⟩ : Cursor).words ++ (⟨p.past (text ++ [d]), behind⟩ : Cursor).words := by
  induction p, text using words_induction with
  | blank p text h =>
    have hblanks : ∀ e ∈ text ++ [d], Text.isBlank e = true :=
      List.forall_mem_append.2 ⟨h, List.forall_mem_singleton.2 hd⟩
    rw [words_of_blank h, List.nil_append, ← words_blanks_append hblanks, List.append_assoc]
    rfl
  | word p text blanks word rest h ih =>
    have hstop : ((p.past blanks).past word).past (rest ++ [d]) = p.past (text ++ [d]) := by
      rw [h.eq_append, ← Position.past_append, ← Position.past_append]
      simp only [List.append_assoc]
    rw [words_of_firstWord (h.append_blank hd behind), ih, words_of_firstWord h, hstop]
    rfl

end Cursor

namespace Lexer

/-- The candidates of two sources with a blank between them are those of the first source and then
those of the second. The positions of the latter count on from the position of a cursor that has
read the first source and the blank, by whatever calls. -/
theorem pending_append_blank (alphabet : Alphabet) (recognizers : List (String × (Text → Bool)))
    (source₁ source₂ : Text) (c : Char) (hc : Text.isBlank c = true) (calls : List Cursor.Call)
    (hend : ((Cursor.ofText (source₁ ++ [c])).run calls).2.atEnd = true) :
    (ofRecognizers alphabet recognizers (source₁ ++ c :: source₂)).pending =
      (ofRecognizers alphabet recognizers source₁).pending ++
        (ofRecognizers alphabet recognizers source₂).pending.map
          (Candidate.countedFrom · ((Cursor.ofText (source₁ ++ [c])).run calls).2.position) := by
  have hstop : ((Cursor.ofText (source₁ ++ [c])).run calls).2.position =
      ({} : Position).past (source₁ ++ [c]) := by
    rw [Cursor.position_of_atEnd hend, Position.behind_eq]
  have hsecond := Cursor.words_countedFrom (({} : Position).past (source₁ ++ [c])) {} source₂
    (Nat.le_refl 1)
  have hwhole := Cursor.words_append_blank hc {} source₁ source₂
  rw [hstop]
  exact hwhole.trans (congrArg ((Cursor.ofText source₁).words ++ ·) hsecond)

/-- The second source goes on in the second line of the first, and has a line of its own. -/
theorem pending_append_blank_lines :
    let source₁ : Text := ['a', '\n', 'b']
    let source₂ : Text := ['a', '\n', 'b']
    let calls : List Cursor.Call := [.word, .word, .skipBlanks]
    Text.isBlank ' ' = true ∧
      ((Cursor.ofText (source₁ ++ [' '])).run calls).2.atEnd = true ∧
      (ofRecognizers .empty [] (source₁ ++ ' ' :: source₂)).pending =
        [⟨['a'], ⟨1, 1⟩⟩, ⟨['b'], ⟨2, 1⟩⟩] ++ [⟨['a'], ⟨2, 3⟩⟩, ⟨['b'], ⟨3, 1⟩⟩] := by
  intro source₁ source₂ calls
  have hend : ((Cursor.ofText (source₁ ++ [' '])).run calls).2.atEnd = true := by decide
  have hwhole := pending_append_blank .empty [] source₁ source₂ ' ' rfl calls hend
  have hfirst : (ofRecognizers .empty [] source₁).pending = [⟨['a'], ⟨1, 1⟩⟩, ⟨['b'], ⟨2, 1⟩⟩] :=
    Cursor.words_eq_cons rfl (Cursor.words_eq_cons rfl (Cursor.words_eq_nil rfl))
  rw [hfirst] at hwhole
  exact ⟨rfl, hend, hwhole⟩

end Lexer

end PatternLexer
