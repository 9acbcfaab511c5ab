import Mathlib.Tactic.SplitIfs
import PatternLexer.Proofs.Pattern.Groups

/-! Escapes by counting backslashes, against the reading of a pattern from left to right. The
parentheses among the tokens of a pattern are those that its text shows, with their positions. -/

namespace PatternLexer.Pattern

variable {alphabet : Alphabet} {markers : Markers} {before behind rest text pattern : Text}
  {c : Char} {token : Token} {tokens : List Placed}

/-! ### Reserved characters -/

theorem Token.char_eq_of_reserved? (h : Token.reserved? c = some token) : token.char = c := by
  unfold Token.reserved? at h
  split at h <;> cases h <;> rfl

/-- No marker and no symbol of an alphabet is read as a parenthesis. -/
theorem char_eq_of_classify? (h : classify? alphabet markers c = some token)
    (htoken : token = .opening ∨ token = .closing) : token.char = c := by
  unfold classify? at h
  split at h
  · cases h
    exact Token.char_eq_of_reserved? (by assumption)
  · split_ifs at h <;> cases h <;> simp at htoken

/-! ### Where no escape is open -/

/-- No backslash at the end of the text escapes what is put behind it. -/
def Whole (text : Text) : Prop := trailingBackslashes text % 2 = 0

theorem trailingBackslashes_snoc (text : Text) (c : Char) :
    trailingBackslashes (text ++ [c]) = if c = '\\' then trailingBackslashes text + 1 else 0 := by
  unfold trailingBackslashes
  rw [List.reverse_append, List.reverse_singleton, List.singleton_append, List.takeWhile_cons]
  split <;> simp_all

theorem whole_nil : Whole [] := rfl

theorem whole_snoc (hc : c ≠ '\\') : Whole (text ++ [c]) := by
  unfold Whole
  rw [trailingBackslashes_snoc, if_neg hc]

theorem Whole.escape (h : Whole text) (c : Char) : Whole (text ++ ['\\', c]) := by
  have hbackslash := trailingBackslashes_snoc text '\\'
  have hlast := trailingBackslashes_snoc (text ++ ['\\']) c
  rw [List.append_assoc] at hlast
  unfold Whole at h ⊢
  show trailingBackslashes (text ++ (['\\'] ++ [c])) % 2 = 0
  rw [hlast, hbackslash]
  split
  · simp only [if_true]
    omega
  · rfl

theorem Whole.isEscaped_eq (h : Whole before) (behind : Text) :
    isEscaped (before ++ behind) before.length = false := by
  unfold Whole at h
  simp [isEscaped, h]

theorem Whole.isEscaped_succ (h : Whole before) (behind : Text) :
    isEscaped (before ++ '\\' :: behind) (before.length + 1) = true := by
  have htake : (before ++ '\\' :: behind).take (before.length + 1) = before ++ ['\\'] := by
    simp [List.take_append, List.take_of_length_le (Nat.le_succ _)]
  unfold Whole at h
  rw [isEscaped, htake, trailingBackslashes_snoc, decide_eq_true_eq, if_pos rfl]
  omega

/-! ### Parentheses behind a part that was read -/

/-- The parentheses in the second part of a text. -/
def parenthesesBehind (before rest : Text) : List Placed :=
  (List.range' before.length rest.length).filterMap (parenthesisAt? (before ++ rest))

theorem parentheses_eq (pattern : Text) : parentheses pattern = parenthesesBehind [] pattern := by
  rw [parentheses, List.range_eq_range']
  rfl

theorem parenthesesBehind_cons (before : Text) (c : Char) (rest : Text) :
    parenthesesBehind before (c :: rest) =
      (parenthesisAt? (before ++ c :: rest) before.length).toList ++
        parenthesesBehind (before ++ [c]) rest := by
  unfold parenthesesBehind
  rw [List.length_cons, List.range'_succ, List.filterMap_cons, List.append_assoc,
    List.length_append, List.length_singleton, List.singleton_append]
  cases parenthesisAt? (before ++ c :: rest) before.length <;> rfl

/-- Where no escape is open, a character is the parenthesis that it is read as. -/
theorem Whole.parenthesisAt?_eq (h : Whole before)
    (hc : classify? alphabet markers c = some token) (behind : Text) :
    (parenthesisAt? (before ++ c :: behind) before.length).toList =
      [⟨before.length, token⟩].filter Placed.isParenthesis := by
  have hget : (before ++ c :: behind)[before.length]? = some c := by simp
  rw [parenthesisAt?, h.isEscaped_eq, hget]
  by_cases hopening : c = '('
  · subst hopening
    cases hc
    rfl
  by_cases hclosing : c = ')'
  · subst hclosing
    cases hc
    rfl
  · have hno : (⟨before.length, token⟩ : Placed).isParenthesis = false := by
      refine Bool.eq_false_iff.2 fun htoken => ?_
      rw [Placed.isParenthesis_iff] at htoken
      have hchar := char_eq_of_classify? hc htoken
      rcases htoken with rfl | rfl
      · exact hopening hchar.symm
      · exact hclosing hchar.symm
    simp [hno, hopening, hclosing]

/-- A backslash is no parenthesis, and neither is the character that it escapes. -/
theorem Whole.parenthesesBehind_escape (h : Whole before) (c : Char) (rest : Text) :
    parenthesesBehind before ('\\' :: c :: rest) =
      parenthesesBehind (before ++ ['\\', c]) rest := by
  have hfirst : parenthesisAt? (before ++ '\\' :: c :: rest) before.length = none := by
    simp [parenthesisAt?]
  have hsecond : parenthesisAt? (before ++ ['\\'] ++ c :: rest) (before ++ ['\\']).length =
      none := by
    simp [parenthesisAt?, h.isEscaped_succ]
  rw [parenthesesBehind_cons, parenthesesBehind_cons, hfirst, hsecond]
  simp

/-- The rest of a pattern is read as tokens with the parentheses that it shows. -/
theorem filter_tokensFrom (hbefore : Whole before)
    (h : tokensFrom alphabet markers before.length rest = .ok tokens) :
    tokens.filter Placed.isParenthesis = parenthesesBehind before rest := by
  generalize hposition : before.length = position at h
  fun_induction tokensFrom alphabet markers position rest generalizing before tokens with
  | case1 =>
    cases h
    rfl
  | case2 => exact nomatch h
  | case3 position c rest ih =>
    obtain ⟨read, hread, htokens⟩ := bind_eq_ok.1 h
    cases htokens
    have hlength : (before ++ ['\\', c]).length = position + 2 := by simp [hposition]
    have hrest := ih (hbefore.escape c) hlength hread
    rw [hbefore.parenthesesBehind_escape, ← hrest]
    rfl
  | case4 => exact nomatch h
  | case5 position c rest hlast hescape token hclass ih =>
    obtain ⟨read, hread, htokens⟩ := bind_eq_ok.1 h
    cases htokens
    have hc := ne_backslash_of_plain hlast hescape
    have hlength : (before ++ [c]).length = position + 1 := by simp [hposition]
    have hrest := ih (whole_snoc hc) hlength hread
    rw [parenthesesBehind_cons, hbefore.parenthesisAt?_eq hclass, ← hrest, hposition]
    exact List.filter_append [_] read

/-! ### Parentheses of a whole pattern -/

theorem filter_concatenationsFrom (after : Bool) (tokens : List Placed) :
    (concatenationsFrom after tokens).filter Placed.isParenthesis =
      tokens.filter Placed.isParenthesis := by
  induction tokens generalizing after with
  | nil => rfl
  | cons t tokens ih =>
    unfold concatenationsFrom
    split <;> simp [List.filter_cons, Placed.isParenthesis, ih]

/-- The parser is given the parentheses that stand in the pattern. -/
theorem filter_withConcatenations (h : tokenize alphabet markers pattern = .ok tokens) :
    (withConcatenations tokens).filter Placed.isParenthesis = parentheses pattern := by
  rw [withConcatenations, filter_concatenationsFrom, parentheses_eq]
  exact filter_tokensFrom whole_nil h

example : parentheses ['\\', '\\', '(', '\\', ')', ')'] = [⟨2, .opening⟩, ⟨5, .closing⟩] := by
  decide

theorem eq_of_parenthesisAt?_eq_some {i : Nat} {t : Placed}
    (h : parenthesisAt? pattern i = some t) : t.position = i ∧ t.isParenthesis = true := by
  unfold parenthesisAt? at h
  split at h
  · exact nomatch h
  · split at h <;> cases h <;> exact ⟨rfl, rfl⟩

theorem isParenthesis_of_mem_parentheses {t : Placed} (ht : t ∈ parentheses pattern) :
    t.isParenthesis = true := by
  obtain ⟨i, -, hi⟩ := List.mem_filterMap.1 ht
  exact (eq_of_parenthesisAt?_eq_some hi).2

theorem ascends_parentheses (pattern : Text) : Ascends (parentheses pattern) := by
  refine List.pairwise_filterMap.2 (List.pairwise_lt_range.imp ?_)
  intro i j hlt s hs t ht
  obtain ⟨rfl, -⟩ := eq_of_parenthesisAt?_eq_some hs
  obtain ⟨rfl, -⟩ := eq_of_parenthesisAt?_eq_some ht
  exact hlt

/-! ### Patterns of nothing but parentheses -/

/-- The text of a part of a pattern that holds only parentheses is that of its tokens. -/
theorem eq_map_char_of_tokensFrom {position : Nat}
    (h : tokensFrom alphabet markers position text = .ok tokens)
    (htokens : ∀ t ∈ tokens, t.isParenthesis = true) :
    text = tokens.map fun t => t.token.char := by
  fun_induction tokensFrom alphabet markers position text generalizing tokens with
  | case1 =>
    cases h
    rfl
  | case2 => exact nomatch h
  | case3 position c rest ih =>
    obtain ⟨read, -, heq⟩ := bind_eq_ok.1 h
    cases heq
    exact nomatch htokens _ List.mem_cons_self
  | case4 => exact nomatch h
  | case5 position c rest _ _ token hclass ih =>
    obtain ⟨read, hread, heq⟩ := bind_eq_ok.1 h
    cases heq
    have hrest := ih hread fun t ht => htokens t (List.mem_cons_of_mem _ ht)
    have htoken := Placed.isParenthesis_iff.1 (htokens _ List.mem_cons_self)
    rw [List.map_cons, ← hrest, char_eq_of_classify? hclass htoken]

theorem tokensFrom_parenthesis {position : Nat} (htoken : token = .opening ∨ token = .closing)
    (hrest : tokensFrom alphabet markers (position + 1) rest = .ok tokens) :
    tokensFrom alphabet markers position (token.char :: rest) =
      .ok (⟨position, token⟩ :: tokens) := by
  rcases htoken with rfl | rfl <;>
    simp [tokensFrom, Token.char, classify?, Token.reserved?, hrest, bind, Except.bind, pure,
      Except.pure]

/-- Every text of parentheses is read, in every alphabet and with all markers. -/
theorem exists_tokensFrom_map_char (alphabet : Alphabet) (markers : Markers) (position : Nat)
    (list : List Token) (hlist : ∀ token ∈ list, token = .opening ∨ token = .closing) :
    ∃ tokens, tokensFrom alphabet markers position (list.map Token.char) = .ok tokens ∧
      tokens.map Placed.token = list := by
  induction list generalizing position with
  | nil => exact ⟨[], rfl, rfl⟩
  | cons token list ih =>
    obtain ⟨htoken, hlist⟩ := List.forall_mem_cons.1 hlist
    obtain ⟨tokens, hread, htokens⟩ := ih (position + 1) hlist
    exact ⟨_, tokensFrom_parenthesis htoken hread, congrArg (token :: ·) htokens⟩

end PatternLexer.Pattern
