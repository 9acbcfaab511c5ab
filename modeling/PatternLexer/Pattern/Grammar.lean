import Mathlib.Computability.Language
import PatternLexer.Pattern.Token

/-! The grammar of patterns, and the words that their trees stand for. A sum joins products, a
product joins factors, both from the left; a factor is a leaf or a group, under any number of stars.
Parentheses leave no node in the tree. The words are a language in the usual algebra: product, union
and Kleene star. -/

namespace PatternLexer.Pattern

inductive Level where
  | sum
  | product
  | factor
  deriving DecidableEq

/-- The tokens derive the tree at a level of the grammar. -/
inductive Derives : Level → List Token → Tree → Prop
  | union {s t : List Token} {left right : Tree} :
    Derives .sum s left → Derives .product t right →
    Derives .sum (s ++ .operator .union :: t) (.union left right)
  | product {s : List Token} {tree : Tree} : Derives .product s tree → Derives .sum s tree
  | concat {s t : List Token} {left right : Tree} :
    Derives .product s left → Derives .factor t right →
    Derives .product (s ++ .operator .concat :: t) (.concat left right)
  | factor {s : List Token} {tree : Tree} : Derives .factor s tree → Derives .product s tree
  | star {s : List Token} {operand : Tree} :
    Derives .factor s operand → Derives .factor (s ++ [.operator .star]) (.star operand)
  | group {s : List Token} {tree : Tree} :
    Derives .sum s tree → Derives .factor (.opening :: (s ++ [.closing])) tree
  | symbol (c : Char) : Derives .factor [.symbol c] (.symbol c)
  | epsilon : Derives .factor [.epsilon] .epsilon
  | empty : Derives .factor [.empty] .empty

/-- The language of a tree, over all characters and not only those of an alphabet. -/
def Tree.language : Tree → Language Char
  | symbol c => {[c]}
  | epsilon => 1
  | empty => 0
  | concat left right => left.language * right.language
  | union left right => left.language + right.language
  | star operand => KStar.kstar operand.language

end PatternLexer.Pattern
