import PatternLexer.Pattern.Grammar
import PatternLexer.Proofs.Automaton.Determinization
import PatternLexer.Proofs.Automaton.Languages
import PatternLexer.Regex

/-! Compiled patterns accept the words of their trees. The fragment of a tree has the language of
the tree, by the laws of the combinations, and determinization keeps what a fragment recognizes. -/

namespace PatternLexer

namespace Pattern.Tree

theorem built_toFragment (t : Tree) : t.toFragment.Built :=
  t.fragment_assembly ▸ t.assembly.built_fragment

theorem language_toFragment (t : Tree) : t.toFragment.language = t.language := by
  induction t with
  | symbol c => exact Fragment.language_leaf (.symbol c)
  | epsilon => exact Fragment.language_leaf .epsilon
  | empty => exact Fragment.language_empty
  | concat left right hl hr =>
    rw [toFragment, language, ← hl, ← hr]
    exact Fragment.language_concatenate left.built_toFragment.inRange right.built_toFragment.inRange
  | union left right hl hr =>
    rw [toFragment, language, ← hl, ← hr]
    exact Fragment.language_alternate left.built_toFragment.inRange right.built_toFragment.inRange
  | star operand h =>
    rw [toFragment, language, ← h]
    exact Fragment.language_star operand.built_toFragment.inRange

theorem recognizes_toFragment (t : Tree) (word : Text) :
    t.toFragment.recognizes word = true ↔ word ∈ t.language := by
  rw [Fragment.recognizes_iff, language_toFragment]

end Pattern.Tree

namespace Regex

theorem compile_eq_ok_iff {alphabet : Alphabet} {markers : Pattern.Markers} {pattern : Text}
    {r : Regex} : compile alphabet markers pattern = .ok r ↔
      ∃ tree, Pattern.parse alphabet markers pattern = .ok tree ∧ r = ofTree tree := by
  unfold compile
  cases Pattern.parse alphabet markers pattern with
  | error e => simp [Except.map]
  | ok tree => simp [Except.map, eq_comm]

theorem eq_ofTree_of_compile {alphabet : Alphabet} {markers : Pattern.Markers} {pattern : Text}
    {r : Regex} (h : compile alphabet markers pattern = .ok r) : r = ofTree r.tree := by
  obtain ⟨tree, -, rfl⟩ := compile_eq_ok_iff.1 h
  rfl

/-- A tree, its fragment and its automaton agree on every word, and so do the three that are kept
in a compiled pattern. -/
theorem recognizes_language :
    (∀ (t : Pattern.Tree) (s : Text),
      (t.toFragment.recognizes s = true ↔ s ∈ t.language) ∧
      (t.toFragment.determinize.recognizes s = true ↔ s ∈ t.language)) ∧
    ∀ (alphabet : Alphabet) (markers : Pattern.Markers) (pattern : Text) (r : Regex),
      compile alphabet markers pattern = .ok r → ∀ s : Text,
        (r.recognizes s = true ↔ s ∈ r.tree.language) ∧
        (r.fragment.recognizes s = true ↔ s ∈ r.tree.language) ∧
        (r.automaton.recognizes s = true ↔ s ∈ r.tree.language) := by
  have htree (t : Pattern.Tree) (s : Text) :
      (t.toFragment.recognizes s = true ↔ s ∈ t.language) ∧
      (t.toFragment.determinize.recognizes s = true ↔ s ∈ t.language) := by
    rw [Graph.recognizes_determinize, and_self]
    exact t.recognizes_toFragment s
  refine ⟨htree, ?_⟩
  intro alphabet markers pattern r hr s
  obtain ⟨hfragment, hautomaton⟩ := htree r.tree s
  rw [eq_ofTree_of_compile hr]
  exact ⟨hautomaton, hfragment, hautomaton⟩

/-- A star over an operand that can be empty, before a symbol. -/
theorem recognizes_language_nullable :
    let r := ofTree (.concat (.star (.union (.symbol 'a') .epsilon)) (.symbol 'b'))
    compile (.ofText ['a', 'b']) {} ['(', 'a', '|', 'e', ')', '*', 'b'] = .ok r ∧
      r.recognizes ['a', 'a', 'b'] = true ∧ ['a', 'a', 'b'] ∈ r.tree.language := by
  intro r
  have hr : compile (.ofText ['a', 'b']) {} ['(', 'a', '|', 'e', ')', '*', 'b'] = .ok r := rfl
  have hmatch : r.recognizes ['a', 'a', 'b'] = true :=
    (r.fragment.graph.recognizes_determinize ['a', 'a', 'b']).trans (by cbv)
  exact ⟨hr, hmatch, (recognizes_language.2 _ _ _ r hr ['a', 'a', 'b']).1.1 hmatch⟩

end Regex

end PatternLexer
