import Mathlib.Algebra.GroupWithZero.Nat
import PatternLexer.Proofs.Automaton.Ranges
import PatternLexer.Proofs.Pattern.Grouping
import PatternLexer.Proofs.Regex

/-! The number of states of a compiled pattern. In a derivation every token that is no parenthesis
is one leaf or one operator of the tree, and adds the same number of states to the fragment wherever
it stands. So the states are counted on the tokens that were read, and there are at most two for
each character of the pattern. -/

namespace PatternLexer

namespace Pattern

variable {alphabet : Alphabet} {markers : Markers} {token : Token} {position : Nat}
  {tokens : List Placed} {kinds : List Token} {text piece : Text} {tree : Tree} {level : Level}

/-! ### States for each token -/

/-- The states that a token adds to a fragment. -/
def Token.states : Token → Nat
  | symbol _ | epsilon => 2
  | empty | operator .union | operator .star => 1
  | operator .concat | opening | closing => 0

theorem Token.states_le_two (token : Token) : token.states ≤ 2 := by
  unfold states
  split <;> decide

def Token.isSymbol : Token → Bool
  | symbol _ => true
  | _ => false

/-- The states that some tokens add, by the kinds of tokens that add any. -/
theorem sum_states_eq (kinds : List Token) : (kinds.map Token.states).sum =
    2 * (kinds.countP Token.isSymbol + kinds.count .epsilon) + kinds.count .empty +
      kinds.count (.operator .union) + kinds.count (.operator .star) := by
  induction kinds with
  | nil => rfl
  | cons token kinds ih =>
    have htoken : token.states = 2 * ([token].countP Token.isSymbol + [token].count .epsilon) +
        [token].count .empty + [token].count (.operator .union) +
        [token].count (.operator .star) := by
      rcases token with _ | _ | _ | ⟨_ | _ | _⟩ | _ | _ <;> rfl
    rw [List.map_cons, List.sum_cons, ih, htoken]
    simp only [List.countP_cons, List.count_cons, List.countP_nil, List.count_nil]
    omega

theorem sum_states_le (kinds : List Token) : (kinds.map Token.states).sum ≤ 2 * kinds.length := by
  induction kinds with
  | nil => exact Nat.le_refl 0
  | cons token kinds ih =>
    have htoken := token.states_le_two
    simp only [List.map_cons, List.sum_cons, List.length_cons]
    omega

/-- The tokens that derive a tree are counted in its fragment. A combination adds the states of its
sign to those of its parts, and a group adds none to what is in it. -/
theorem Derives.size_toFragment (h : Derives level kinds tree) :
    tree.toFragment.size = (kinds.map Token.states).sum := by
  induction h with
  | union _ _ ihl ihr => simp [Tree.toFragment, Token.states, ihl, ihr, Nat.add_assoc, Nat.add_comm]
  | concat _ _ ihl ihr => simp [Tree.toFragment, Token.states, ihl, ihr]
  | star _ ih => simp [Tree.toFragment, Token.states, ih]
  | group _ ih => simp [Token.states, ih]
  | product _ ih => exact ih
  | factor _ ih => exact ih
  | _ => rfl

/-- A sign of concatenation adds no state, written or not. -/
theorem sum_states_completeFrom (after : Bool) (kinds : List Token) :
    ((completeFrom after kinds).map Token.states).sum = (kinds.map Token.states).sum := by
  induction kinds generalizing after with
  | nil => rfl
  | cons token kinds ih =>
    rw [completeFrom]
    split <;> simp [Token.states, ih]

/-! ### Characters for each token -/

theorem Piece.length_pos (h : Piece alphabet markers token piece) : 0 < piece.length := by
  cases h <;> exact Nat.succ_pos _

theorem Writing.length_le (h : Writing alphabet markers position tokens text) :
    tokens.length ≤ text.length := by
  induction h with
  | nil => exact Nat.le_refl 0
  | cons hpiece _ ih =>
    have hpos := hpiece.length_pos
    simp only [List.length_cons, List.length_append]
    omega

end Pattern

namespace Regex

open Pattern

/-- The fragment of a compiled pattern has two states for each symbol and each sign of the empty
word among the tokens of the pattern, and one for each sign of no word, each union and each star.
Parentheses and concatenations have none, whether a sign stands for them or not. So there are at
most two states for each character. -/
theorem size_counts_tokens {alphabet : Alphabet} {markers : Markers} {pattern : Text} {r : Regex}
    (h : compile alphabet markers pattern = .ok r) :
    ∃ tokens, tokenize alphabet markers pattern = .ok tokens ∧
      (let kinds := tokens.map Placed.token
      r.fragment.size =
        2 * (kinds.countP Token.isSymbol + kinds.count .epsilon) + kinds.count .empty +
          kinds.count (.operator .union) + kinds.count (.operator .star)) ∧
      r.fragment.size ≤ 2 * pattern.length := by
  obtain ⟨tree, hparse, rfl⟩ := compile_eq_ok_iff.1 h
  obtain ⟨tokens, htokenize, htokens⟩ := bind_eq_ok.1 hparse
  have hderives := derives_of_parseTokens (apart_concatenationsFrom false tokens) htokens
  have hsize : (ofTree tree).fragment.size = ((tokens.map Placed.token).map Token.states).sum := by
    calc tree.toFragment.size
      _ = (((withConcatenations tokens).map Placed.token).map Token.states).sum :=
        hderives.size_toFragment
      _ = ((tokens.map Placed.token).map Token.states).sum := by
        rw [map_token_withConcatenations, sum_states_completeFrom]
  refine ⟨tokens, htokenize, hsize.trans (sum_states_eq _), ?_⟩
  have hstates := sum_states_le (tokens.map Placed.token)
  have hlength := (writing_of_tokensFrom htokenize).length_le
  rw [List.length_map] at hstates
  omega

/-- In `(a|e)*&bN` six tokens add states, and the parentheses and both concatenations add none. -/
theorem size_counts_tokens_group :
    let pattern : Text := ['(', 'a', '|', 'e', ')', '*', '&', 'b', 'N']
    let r := ofTree (.concat (.concat (.star (.union (.symbol 'a') .epsilon)) (.symbol 'b')) .empty)
    compile (.ofText ['a', 'b']) {} pattern = .ok r ∧ r.fragment.size = 9 ∧
      r.fragment.size ≤ 2 * pattern.length := by
  intro pattern r
  have hr : compile (.ofText ['a', 'b']) {} pattern = .ok r := rfl
  obtain ⟨tokens, htokenize, hsize, hbound⟩ := size_counts_tokens hr
  cases htokenize
  exact ⟨hr, hsize, hbound⟩

end Regex

end PatternLexer
