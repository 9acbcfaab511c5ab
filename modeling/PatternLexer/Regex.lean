import PatternLexer.Automaton.Determinization
import PatternLexer.Automaton.Table
import PatternLexer.Pattern.Parse

/-! Compiled patterns: the tree of a pattern, the fragment built from the tree, and the
deterministic automaton of the fragment. -/

namespace PatternLexer

/-- The fragment of a tree, built from the leaves up. -/
def Pattern.Tree.toFragment : Tree → Fragment
  | symbol c => .symbol c
  | epsilon => .epsilon
  | empty => .empty
  | concat left right => left.toFragment.concatenate right.toFragment
  | union left right => left.toFragment.alternate right.toFragment
  | star operand => operand.toFragment.star

/-- How the fragment of a tree is put together. -/
def Pattern.Tree.assembly : Tree → Assembly
  | symbol c => .symbol c
  | epsilon => .epsilon
  | empty => .empty
  | concat left right => left.assembly.concatenate right.assembly
  | union left right => left.assembly.alternate right.assembly
  | star operand => operand.assembly.star

theorem Pattern.Tree.fragment_assembly (t : Tree) : t.assembly.fragment = t.toFragment := by
  induction t with
  | symbol c => rfl
  | epsilon => rfl
  | empty => rfl
  | concat left right hl hr => rw [assembly, Assembly.fragment, hl, hr, toFragment]
  | union left right hl hr => rw [assembly, Assembly.fragment, hl, hr, toFragment]
  | star operand h => rw [assembly, Assembly.fragment, h, toFragment]

structure Regex where
  tree : Pattern.Tree
  fragment : Fragment
  automaton : DetAutomaton
  deriving DecidableEq

namespace Regex

def ofTree (tree : Pattern.Tree) : Regex :=
  ⟨tree, tree.toFragment, tree.toFragment.determinize⟩

def compile (alphabet : Alphabet) (markers : Pattern.Markers) (pattern : Text) :
    Except Pattern.Error Regex :=
  (Pattern.parse alphabet markers pattern).map ofTree

/-- The fragment as a table of transitions. -/
def table (mode : Mode) (r : Regex) : Except Fault Table := r.tree.assembly.table mode

/-- Whether the whole word matches. -/
def recognizes (r : Regex) (word : Text) : Bool := r.automaton.recognizes word

end Regex

end PatternLexer
