import PatternLexer.Pattern.Grouping
import PatternLexer.Proofs.Pattern.Parsing
import PatternLexer.Proofs.Pattern.Signs
import PatternLexer.Proofs.Pattern.Written

/-! Patterns made of patterns. In a group signs are written as if it stood alone, and the group
derives the tree of the pattern inside, so the tree of a pattern made of groups is made of their
trees. In this way every tree is the tree of some pattern. -/

namespace PatternLexer.Pattern

variable {alphabet : Alphabet} {markers : Markers} {kinds completed : List Token}
  {text pattern p q : Text} {token : Token} {tree left right : Tree}

/-- A pattern has a tree when it is a writing of tokens that derive the tree, all signs written. -/
theorem parse_eq_ok_iff : parse alphabet markers pattern = .ok tree ↔
    ∃ kinds, Writes alphabet markers kinds pattern ∧
      Derives .sum (completeFrom false kinds) tree := by
  constructor
  · intro h
    obtain ⟨tokens, htokenize, hparse⟩ := bind_eq_ok.1 h
    refine ⟨_, writes_of_tokenize htokenize, ?_⟩
    rw [← map_token_withConcatenations]
    exact derives_of_parseTokens (apart_concatenationsFrom false tokens) hparse
  · rintro ⟨kinds, hwrites, hderives⟩
    obtain ⟨tokens, htokenize, rfl⟩ := hwrites.exists_tokenize
    refine bind_eq_ok.2 ⟨tokens, htokenize, parseTokens_of_derives ?_⟩
    rwa [map_token_withConcatenations]

/-! ### Groups -/

/-- A closing parenthesis parts what is before it from what is behind. -/
theorem completeFrom_closing (after : Bool) (s rest : List Token) :
    completeFrom after (s ++ .closing :: rest) =
      completeFrom after s ++ .closing :: completeFrom true rest := by
  induction s generalizing after with
  | nil =>
    have hstarts : (after && Token.closing.startsOperand) = false := Bool.and_false after
    rw [List.nil_append, completeFrom, completeFrom, hstarts]
    rfl
  | cons token s ih =>
    rw [List.cons_append, completeFrom, completeFrom, ih]
    split <;> rfl

/-- Tokens that begin and end an operand. Signs are written between them in one way whatever comes
before and behind, and there is one before them when an operand has just ended. -/
def CompletesTo (kinds completed : List Token) : Prop :=
  ∀ after rest, completeFrom after (kinds ++ rest) =
    (if after then [.operator .concat] else []) ++ (completed ++ completeFrom true rest)

theorem CompletesTo.alone (h : CompletesTo kinds completed) :
    completeFrom false kinds = completed := by
  simpa [completeFrom] using h false []

theorem CompletesTo.behind (h : CompletesTo kinds completed) :
    completeFrom true kinds = .operator .concat :: completed := by
  simpa [completeFrom] using h true []

/-- Inside a group signs are written as if nothing were around it. -/
theorem completesTo_group (s : List Token) :
    CompletesTo (.opening :: (s ++ [.closing]))
      (.opening :: (completeFrom false s ++ [.closing])) := by
  intro after rest
  have hinside : completeFrom false (s ++ [.closing] ++ rest) =
      completeFrom false s ++ [.closing] ++ completeFrom true rest := by
    rw [List.append_assoc, List.append_assoc]
    exact completeFrom_closing false s rest
  have hstarts : (after && Token.opening.startsOperand) = after := Bool.and_true after
  have hends : Token.opening.endsOperand = false := rfl
  rw [List.cons_append, completeFrom, hstarts, hends, hinside]
  cases after <;> rfl

theorem Writes.grouped (h : Writes alphabet markers kinds text) :
    Writes alphabet markers (.opening :: (kinds ++ [.closing])) (grouped text) :=
  (h.append (.single .closing)).cons .opening

/-- A pattern with a tree in parentheses consists of tokens that derive the tree as a factor, when
its signs are written. -/
theorem exists_writes_grouped (h : parse alphabet markers p = .ok tree) :
    ∃ kinds completed, Writes alphabet markers kinds (grouped p) ∧
      CompletesTo kinds completed ∧ Derives .factor completed tree := by
  obtain ⟨kinds, hwrites, hderives⟩ := parse_eq_ok_iff.1 h
  exact ⟨_, _, hwrites.grouped, completesTo_group kinds, .group hderives⟩

theorem parse_grouped (h : parse alphabet markers p = .ok tree) :
    parse alphabet markers (grouped p) = .ok tree := by
  obtain ⟨kinds, completed, hwrites, hcompletes, hderives⟩ := exists_writes_grouped h
  refine parse_eq_ok_iff.2 ⟨kinds, hwrites, ?_⟩
  rw [hcompletes.alone]
  exact .product (.factor hderives)

theorem parse_star (h : parse alphabet markers p = .ok tree) :
    parse alphabet markers (grouped p ++ ['*']) = .ok (.star tree) := by
  obtain ⟨kinds, completed, hwrites, hcompletes, hderives⟩ := exists_writes_grouped h
  refine parse_eq_ok_iff.2 ⟨_, hwrites.append (.single (.operator .star)), ?_⟩
  rw [hcompletes]
  exact .product (.factor (.star hderives))

/-- Between two groups an operator that joins them is all there is. -/
theorem parse_join (op : Operator) (hp : parse alphabet markers p = .ok left)
    (hq : parse alphabet markers q = .ok right)
    (hjoin : ∀ {s t}, Derives .factor s left → Derives .factor t right →
      Derives .sum (s ++ .operator op :: t) tree) (hop : (Token.operator op).endsOperand = false) :
    parse alphabet markers (grouped p ++ op.char :: grouped q) = .ok tree := by
  obtain ⟨kinds, completed, hwrites, hcompletes, hderives⟩ := exists_writes_grouped hp
  obtain ⟨kinds', completed', hwrites', hcompletes', hderives'⟩ := exists_writes_grouped hq
  refine parse_eq_ok_iff.2 ⟨_, hwrites.append (hwrites'.cons (.operator op)), ?_⟩
  have hsign : completeFrom true (.operator op :: kinds') = .operator op :: completed' := by
    rw [completeFrom, hop, hcompletes'.alone]
    rfl
  rw [hcompletes, hsign]
  exact hjoin hderives hderives'

theorem parse_union (hp : parse alphabet markers p = .ok left)
    (hq : parse alphabet markers q = .ok right) :
    parse alphabet markers (grouped p ++ '|' :: grouped q) = .ok (.union left right) :=
  parse_join .union hp hq (fun hs ht => .union (.product (.factor hs)) (.factor ht)) rfl

theorem parse_juxtaposed (sign : Bool) (hp : parse alphabet markers p = .ok left)
    (hq : parse alphabet markers q = .ok right) :
    parse alphabet markers (juxtaposed sign p q) = .ok (.concat left right) := by
  cases sign with
  | true => exact parse_join .concat hp hq (fun hs ht => .product (.concat (.factor hs) ht)) rfl
  | false =>
    obtain ⟨kinds, completed, hwrites, hcompletes, hderives⟩ := exists_writes_grouped hp
    obtain ⟨kinds', completed', hwrites', hcompletes', hderives'⟩ := exists_writes_grouped hq
    refine parse_eq_ok_iff.2 ⟨_, hwrites.append hwrites', ?_⟩
    rw [hcompletes, hcompletes'.behind]
    exact .product (.concat (.factor hderives) hderives')

/-! ### Trees -/

theorem parse_piece (hpiece : Piece alphabet markers token p)
    (hderives : Derives .factor [token] tree) : parse alphabet markers p = .ok tree := by
  have htoken : completeFrom false [token] = [token] := rfl
  exact parse_eq_ok_iff.2 ⟨[token], .single hpiece, htoken.symm ▸ .product (.factor hderives)⟩

/-- Every tree is read back from its text. -/
theorem parse_render (alphabet : Alphabet) (hdistinct : markers.epsilon ≠ markers.empty)
    (hepsilon : Token.isReserved markers.epsilon = false)
    (hempty : Token.isReserved markers.empty = false) (sign : Bool) (tree : Tree) :
    parse alphabet markers (tree.render markers sign) = .ok tree := by
  induction tree with
  | symbol c => exact parse_piece (.escaped c) (.symbol c)
  | epsilon => exact parse_piece (.epsilon hepsilon) .epsilon
  | empty => exact parse_piece (.empty hempty hdistinct.symm) .empty
  | concat left right ihl ihr => exact parse_juxtaposed sign ihl ihr
  | union left right ihl ihr => exact parse_union ihl ihr
  | star operand ih => exact parse_star ih

/-- A pattern in parentheses has the tree of the pattern, and a star behind it, or an operator or
nothing between two of them, joins their trees. So every tree has a pattern, with the signs of
concatenation or without, as long as each marker can be told from the other and is not reserved. -/
theorem parse_groups (alphabet : Alphabet) (markers : Markers) :
    (∀ p q s t, parse alphabet markers p = .ok s → parse alphabet markers q = .ok t →
      parse alphabet markers (grouped p) = .ok s ∧
      parse alphabet markers (grouped p ++ ['*']) = .ok (.star s) ∧
      parse alphabet markers (grouped p ++ '|' :: grouped q) = .ok (.union s t) ∧
      parse alphabet markers (grouped p ++ '&' :: grouped q) = .ok (.concat s t) ∧
      parse alphabet markers (grouped p ++ grouped q) = .ok (.concat s t)) ∧
    (markers.epsilon ≠ markers.empty → Token.isReserved markers.epsilon = false →
      Token.isReserved markers.empty = false → ∀ (sign : Bool) (tree : Tree),
        parse alphabet markers (tree.render markers sign) = .ok tree) := by
  refine ⟨fun p q s t hp hq => ?_, fun hdistinct hepsilon hempty sign tree => ?_⟩
  · exact ⟨parse_grouped hp, parse_star hp, parse_union hp hq, parse_juxtaposed true hp hq,
      parse_juxtaposed false hp hq⟩
  · exact parse_render alphabet hdistinct hepsilon hempty sign tree

/-- In `(a|b)(\)*)` neither the union nor the escaped parenthesis leaves its group. A symbol under a
star before the empty word is written `((\a)*)(e)`. -/
theorem parse_groups_nested :
    let alphabet := Alphabet.ofText ['a', 'b']
    parse alphabet {} ['a', '|', 'b'] = .ok (.union (.symbol 'a') (.symbol 'b')) ∧
    parse alphabet {} ['\\', ')', '*'] = .ok (.star (.symbol ')')) ∧
    parse alphabet {} (grouped ['a', '|', 'b'] ++ grouped ['\\', ')', '*']) =
      .ok (.concat (.union (.symbol 'a') (.symbol 'b')) (.star (.symbol ')'))) ∧
    ('e' ≠ 'N' ∧ Token.isReserved 'e' = false ∧ Token.isReserved 'N' = false) ∧
    Tree.render {} false (.concat (.star (.symbol 'a')) .epsilon) =
      ['(', '(', '\\', 'a', ')', '*', ')', '(', 'e', ')'] ∧
    parse alphabet {} ['(', '(', '\\', 'a', ')', '*', ')', '(', 'e', ')'] =
      .ok (.concat (.star (.symbol 'a')) .epsilon) := by
  intro alphabet
  obtain ⟨hgroups, hrender⟩ := parse_groups alphabet {}
  have hp : parse alphabet {} ['a', '|', 'b'] = .ok (.union (.symbol 'a') (.symbol 'b')) := rfl
  have hq : parse alphabet {} ['\\', ')', '*'] = .ok (.star (.symbol ')')) := rfl
  have hmarkers : 'e' ≠ 'N' ∧ Token.isReserved 'e' = false ∧ Token.isReserved 'N' = false := by
    decide
  exact ⟨hp, hq, (hgroups _ _ _ _ hp hq).2.2.2.2, hmarkers, rfl,
    hrender hmarkers.1 hmarkers.2.1 hmarkers.2.2 false (.concat (.star (.symbol 'a')) .epsilon)⟩

end PatternLexer.Pattern
