import PatternLexer.Proofs.Source.Tiling
import PatternLexer.Source.Reading

/-! What calls of a cursor give, said by the source alone. A call stands between the part of the
source that was read and the part that was not. What it gives and how much it reads follows from
these two, and so does the position. -/

namespace PatternLexer

/-- The position behind a text by its line feeds: how many there are, and how many characters stand
behind the last of them, or in the whole text if there is none. -/
def Position.behind (read : Text) : Position :=
  ⟨1 + read.count '\n', (read.reverse.takeWhile fun c => c ≠ '\n').length⟩

theorem Position.behind_eq (read : Text) : behind read = ({} : Position).past read :=
  (past_eq read).symm

namespace Cursor

/-- With one part of a source read, a call reads the next part and leaves the rest, and gives the
outcome. -/
inductive Answers (read : Text) : Text → Text → Call → Outcome → Prop
  | next (c : Char) (left : Text) : Answers read [c] left .next (.next (some c))
  | nextAtEnd : Answers read [] [] .next (.next none)
  | peek (left : Text) : Answers read [] left .peek (.peeked left.head?)
  | atEnd (left : Text) : Answers read [] left .atEnd (.atEnd left.isEmpty)
  | position (left : Text) : Answers read [] left .position (.position (.behind read))
  | skipBlanks {blanks left : Text} :
    (∀ c ∈ blanks, Text.isBlank c = true) → (∀ c ∈ left.head?, Text.isBlank c = false) →
    Answers read blanks left .skipBlanks .skipped
  | wordAtEnd {blanks : Text} :
    (∀ c ∈ blanks, Text.isBlank c = true) → Answers read blanks [] .word (.word none)
  | word {blanks word left : Text} {first : Char} :
    (∀ c ∈ blanks, Text.isBlank c = true) → (∀ c ∈ first :: word, Text.isBlank c = false) →
    (∀ c ∈ left.head?, Text.isBlank c = true) →
    Answers read (blanks ++ first :: word) left .word
      (.word (some ⟨first :: word, .behind (read ++ blanks ++ [first])⟩))

/-- Calls one after the other lead from one place in a source to another. A place is given by what
is read and what is left there. -/
inductive Follows : Text → Text → List Call → List Outcome → Text → Text → Prop
  | nil (read left : Text) : Follows read left [] [] read left
  | cons {read taken left read' left' : Text} {call : Call} {calls : List Call}
    {outcome : Outcome} {outcomes : List Outcome} : Answers read taken left call outcome →
    Follows (read ++ taken) left calls outcomes read' left' →
    Follows read (taken ++ left) (call :: calls) (outcome :: outcomes) read' left'

variable {c : Cursor} {read taken left : Text} {call : Call} {outcome : Outcome}

theorem run_cons {mid final : Cursor} {calls : List Call} {outcomes : List Outcome}
    (h : c.perform call = (outcome, mid)) (hrest : mid.run calls = (outcomes, final)) :
    c.run (call :: calls) = (outcome :: outcomes, final) := by
  rw [run, h]
  simp only [hrest]

/-- Characters read one by one. -/
theorem run_replicate_next (p : Position) (taken left : Text) :
    (⟨p, taken ++ left⟩ : Cursor).run (List.replicate taken.length .next) =
      (taken.map fun d => .next (some d), ⟨p.past taken, left⟩) := by
  induction taken generalizing p with
  | nil => rfl
  | cons d taken ih =>
    have hnext : (⟨p, d :: taken ++ left⟩ : Cursor).perform .next =
        (.next (some d), ⟨p.after d, taken ++ left⟩) := rfl
    exact run_cons hnext (ih (p.after d))

/-! ### One call -/

theorem past_behind (read taken : Text) :
    (Position.behind read).past taken = .behind (read ++ taken) := by
  rw [Position.behind_eq, Position.behind_eq, Position.past_append]

theorem perform_of_answers (h : Answers read taken left call outcome) :
    (⟨.behind read, taken ++ left⟩ : Cursor).perform call =
      (outcome, ⟨.behind (read ++ taken), left⟩) := by
  rw [← past_behind]
  cases h with
  | next => rfl
  | nextAtEnd => rfl
  | peek => rfl
  | atEnd => rfl
  | position => rfl
  | skipBlanks hblanks hleft => rw [perform, skipBlanks_append hblanks hleft]
  | wordAtEnd hblanks => rw [perform, List.append_nil, word_of_blank hblanks]
  | @word blanks word _ first hblanks hplain hleft =>
    have hword : Text.FirstWord (blanks ++ first :: word ++ left) blanks (first :: word) left :=
      ⟨List.append_assoc _ _ _, hblanks, List.cons_ne_nil _ _, hplain, hleft⟩
    have hfirst : ((Position.behind read).past blanks).advanced 1 =
        .behind (read ++ blanks ++ [first]) := by
      rw [past_behind, ← past_behind (read ++ blanks), Position.past_of_plain,
        List.length_singleton]
      exact List.forall_mem_singleton.2 (hplain first List.mem_cons_self)
    rw [perform, word_of_firstWord hword, hfirst, Position.past_append]

/-- There is an answer to every call at every place. -/
theorem exists_answers (read rest : Text) (call : Call) : ∃ taken left outcome,
    rest = taken ++ left ∧ Answers read taken left call outcome := by
  cases call with
  | next =>
    cases rest with
    | nil => exact ⟨[], [], _, rfl, .nextAtEnd⟩
    | cons c left => exact ⟨[c], left, _, rfl, .next c left⟩
  | peek => exact ⟨[], rest, _, rfl, .peek rest⟩
  | atEnd => exact ⟨[], rest, _, rfl, .atEnd rest⟩
  | position => exact ⟨[], rest, _, rfl, .position rest⟩
  | skipBlanks =>
    refine ⟨rest.takeWhile Text.isBlank, rest.dropWhile Text.isBlank, _,
      List.takeWhile_append_dropWhile.symm, .skipBlanks ?_ ?_⟩
    · exact fun c hc => List.mem_takeWhile_imp hc
    · exact not_of_mem_head?_dropWhile Text.isBlank rest
  | word =>
    rcases rest.blank_or_firstWord with
      hblank | ⟨blanks, word, left, hrest, hblanks, hne, hplain, hleft⟩
    · exact ⟨rest, [], _, (List.append_nil rest).symm, .wordAtEnd hblank⟩
    · obtain ⟨first, word, rfl⟩ := List.exists_cons_of_ne_nil hne
      rw [← List.append_assoc] at hrest
      exact ⟨_, left, _, hrest, .word hblanks hplain hleft⟩

/-- A call at a place in a source gives the answer of this place and no other. -/
theorem perform_eq_iff {c' : Cursor} (hposition : c.position = .behind read) :
    c.perform call = (outcome, c') ↔ ∃ taken, c.rest = taken ++ c'.rest ∧
      Answers read taken c'.rest call outcome ∧ c'.position = .behind (read ++ taken) := by
  obtain ⟨p, rest⟩ := c
  obtain rfl : p = .behind read := hposition
  constructor
  · intro h
    obtain ⟨taken, left, outcome', rfl, hanswer⟩ := exists_answers read rest call
    obtain ⟨rfl, rfl⟩ := Prod.mk.inj ((perform_of_answers hanswer).symm.trans h)
    exact ⟨taken, rfl, hanswer, rfl⟩
  · rintro ⟨taken, hrest, hanswer, hbehind⟩
    obtain rfl : rest = taken ++ c'.rest := hrest
    rw [perform_of_answers hanswer, ← hbehind]

/-! ### All calls -/

variable {calls : List Call} {outcomes : List Outcome} {read' left' : Text}

theorem Follows.append_eq (h : Follows read left calls outcomes read' left') :
    read' ++ left' = read ++ left := by
  induction h with
  | nil => rfl
  | cons _ _ ih => rw [ih, List.append_assoc]

theorem run_eq_iff {c' : Cursor} (hposition : c.position = .behind read) :
    c.run calls = (outcomes, c') ↔
      ∃ read', Follows read c.rest calls outcomes read' c'.rest ∧ c'.position = .behind read' := by
  induction calls generalizing c read outcomes with
  | nil =>
    obtain ⟨p, rest⟩ := c
    obtain rfl : p = .behind read := hposition
    obtain ⟨p', rest'⟩ := c'
    constructor
    · intro h
      obtain ⟨rfl, heq⟩ := Prod.mk.inj h
      obtain ⟨rfl, rfl⟩ := Cursor.mk.inj heq
      exact ⟨read, .nil read rest, rfl⟩
    · rintro ⟨read', hfollows, hbehind⟩
      cases hfollows
      obtain rfl : p' = .behind read := hbehind
      rfl
  | cons call calls ih =>
    constructor
    · intro h
      obtain ⟨rfl, rfl⟩ := Prod.mk.inj h
      obtain ⟨taken, hrest, hanswer, hbehind⟩ := (perform_eq_iff hposition).1 rfl
      obtain ⟨read', hfollows, hend⟩ := (ih hbehind).1 rfl
      refine ⟨read', ?_, hend⟩
      rw [hrest]
      exact .cons hanswer hfollows
    · obtain ⟨p, rest⟩ := c
      rintro ⟨read', hfollows, hend⟩
      cases hfollows with
      | @cons _ taken left _ _ _ _ outcome outcomes hanswer hfollows =>
        let behind : Cursor := ⟨.behind (read ++ taken), left⟩
        have hstep : (⟨p, taken ++ left⟩ : Cursor).perform call = (outcome, behind) :=
          (perform_eq_iff hposition).2 ⟨taken, rfl, hanswer, rfl⟩
        have hrest : behind.run calls = (outcomes, c') := (ih rfl).2 ⟨read', hfollows, hend⟩
        exact run_cons hstep hrest

theorem run_ofText_eq_iff {source : Text} : (ofText source).run calls = (outcomes, c) ↔
    ∃ read, read ++ c.rest = source ∧ c.position = .behind read ∧
      Follows [] source calls outcomes read c.rest := by
  have hstart : (ofText source).position = .behind [] := rfl
  rw [run_eq_iff hstart]
  constructor
  · rintro ⟨read, hfollows, hposition⟩
    exact ⟨read, hfollows.append_eq, hposition, hfollows⟩
  · rintro ⟨read, -, hposition, hfollows⟩
    exact ⟨read, hfollows, hposition⟩

/-- At the end the whole source was read. -/
theorem position_of_atEnd {source : Text} (h : ((ofText source).run calls).2.atEnd = true) :
    ((ofText source).run calls).2.position = .behind source := by
  obtain ⟨read, hread, hposition, -⟩ := run_ofText_eq_iff.1 rfl
  rw [List.isEmpty_iff.1 h, List.append_nil] at hread
  rw [hposition, hread]

/-- Calls of a cursor, one after the other, give the answers of the places that they come to in the
source, and no others. The parts read and left make up the source, and the position counts the part
read. The cursor ends where some number of calls of `next` brings it. -/
theorem run_follows_source (source : Text) (calls : List Call) :
    (∀ outcomes c, (ofText source).run calls = (outcomes, c) ↔
      ∃ read, read ++ c.rest = source ∧ c.position = .behind read ∧
        Follows [] source calls outcomes read c.rest) ∧
    ∃ n, ((ofText source).run calls).2 = ((ofText source).run (List.replicate n .next)).2 := by
  refine ⟨fun outcomes c => run_ofText_eq_iff, ?_⟩
  obtain ⟨read, hread, hposition, -⟩ := run_ofText_eq_iff.1 rfl
  have hnext := run_replicate_next {} read ((ofText source).run calls).2.rest
  rw [hread] at hnext
  refine ⟨read.length, ?_⟩
  rw [ofText, hnext, ← Position.behind_eq, ← hposition]
  rfl

/-- Blanks are skipped and words are read wherever the calls before have stopped. -/
example :
    ((ofText ['a', 'b', '\n', ' ', 'c']).run [.next, .word, .word, .position, .atEnd]).1 =
      [.next (some 'a'), .word (some ⟨['b'], ⟨1, 2⟩⟩), .word (some ⟨['c'], ⟨2, 2⟩⟩),
        .position ⟨2, 2⟩, .atEnd true] := by decide

end Cursor

end PatternLexer
