import Mathlib.Data.List.Forall2
import PatternLexer.Proofs.Automaton.Assemblies
import PatternLexer.Proofs.Automaton.Associativity
import PatternLexer.Proofs.Pattern.Grouping
import PatternLexer.Proofs.Regex

/-! Chains of tables and of patterns. Since concatenation is associative down to the arcs, the
fragment of a tree depends on the parts that it concatenates and not on how they are grouped, and
neither do the table of the fragment and the automaton that is made of it. -/

namespace PatternLexer

/-! ### Chains of tables -/

namespace Table

variable {t u v : Table} {f g h : Fragment}

theorem Represents.concatenate_assoc (ht : t.Represents f) (hu : u.Represents g)
    (hv : v.Represents h) (hf : f.InRange) (hg : g.InRange) (hh : h.InRange)
    (hroom : t.size + u.size + v.size < wordSize) : ∃ tu uv w, ∀ mode,
      t.concatenate mode u = .ok tu ∧ tu.concatenate mode v = .ok w ∧
      u.concatenate mode v = .ok uv ∧ t.concatenate mode uv = .ok w := by
  obtain ⟨tu, htu, hrtu⟩ := ht.concatenate hu hf hg (by omega)
  obtain ⟨uv, huv, hruv⟩ := hu.concatenate hv hg hh (by omega)
  have hsizes : tu.size = t.size + u.size ∧ uv.size = u.size + v.size := by
    rw [hrtu.size, hruv.size, ht.size, hu.size, hv.size, Fragment.size_concatenate,
      Fragment.size_concatenate]
    exact ⟨rfl, rfl⟩
  obtain ⟨left, hleft, hrleft⟩ := hrtu.concatenate hv (Fragment.inRange_concatenate hf hg) hh
    (by omega)
  obtain ⟨right, hright, hrright⟩ := ht.concatenate hruv hf (Fragment.inRange_concatenate hg hh)
    (by omega)
  rw [Fragment.concatenate_assoc hf hg] at hrleft
  obtain rfl := hrleft.eq hrright
  exact ⟨tu, uv, left, fun mode => ⟨htu mode, hleft mode, huv mode, hright mode⟩⟩

theorem Represents.embed_assoc (ht : t.Represents f) (hu : u.Represents g)
    (hv : v.Represents h) (hg : g.InRange) (hh : h.InRange)
    (hroom : t.size + u.size + v.size < wordSize) : ∃ tu both inner outer, ∀ mode,
      t.embed mode u = .ok tu ∧ tu.host.embed mode v = .ok both ∧
      u.embed mode v = .ok inner ∧ t.embed mode inner.host = .ok outer ∧
      both.host = outer.host ∧ both.offset = t.size + u.size ∧
      outer.offset + inner.offset = t.size + u.size ∧ both.start = inner.start + outer.offset ∧
      both.accepting = inner.accepting.map (· + outer.offset) := by
  have hhosts : ((t.embedding u).host.embedding v).host =
      (t.embedding (u.embedding v).host).host := by
    have hleft := (ht.embedding hu).embedding hv
    rw [Fragment.embed_assoc] at hleft
    exact hleft.eq (ht.embedding (hu.embedding hv))
  have hinner : (u.embedding v).host.InRange :=
    (hu.embedding hv).inRange (Fragment.inRange_embed hg hh)
  have hbehind (s : Nat) : s + (t.embedding u).host.size = s + u.size + t.size := by
    show s + (t.size + u.size) = _
    omega
  refine ⟨t.embedding u, (t.embedding u).host.embedding v, u.embedding v,
    t.embedding (u.embedding v).host,
    fun mode => ⟨?_, ?_, ?_, ?_, hhosts, rfl, rfl, hbehind v.start, ?_⟩⟩
  · exact embed_eq_ok (hu.inRange hg) (by omega) mode
  · exact embed_eq_ok (hv.inRange hh) hroom mode
  · exact embed_eq_ok (hv.inRange hh) (by omega) mode
  · exact embed_eq_ok hinner (show t.size + (u.size + v.size) < wordSize by omega) mode
  · show v.accepting.map _ = (v.accepting.map _).map _
    rw [List.map_map]
    exact List.map_congr_left fun s _ => hbehind s

end Table

/-! ### Chains of patterns -/

namespace Pattern

/-! ### Fragments of chains -/

namespace Tree

variable {f : Fragment} {s t : Tree}

/-- The fragments of some trees one after the other, behind a first fragment. -/
def joinFragments (f : Fragment) (parts : List Tree) : Fragment :=
  parts.foldl (fun f part => f.concatenate part.toFragment) f

/-- Behind another fragment, a tree may as well be put there part after part. -/
theorem concatenate_toFragment (hf : f.InRange) (t : Tree) :
    f.concatenate t.toFragment = joinFragments f t.parts := by
  induction t generalizing f with
  | concat left right hl hr =>
    have hleft := left.built_toFragment.inRange
    calc f.concatenate (left.toFragment.concatenate right.toFragment)
      _ = (f.concatenate left.toFragment).concatenate right.toFragment :=
        (Fragment.concatenate_assoc hf hleft _).symm
      _ = joinFragments (f.concatenate left.toFragment) right.parts :=
        hr (Fragment.inRange_concatenate hf hleft)
      _ = joinFragments (joinFragments f left.parts) right.parts := by rw [hl hf]
      _ = joinFragments f (left.parts ++ right.parts) := List.foldl_append.symm
  | _ => rfl

theorem exists_parts (t : Tree) : ∃ first rest, t.parts = first :: rest ∧
    t.toFragment = joinFragments first.toFragment rest := by
  induction t with
  | concat left right hl _ =>
    obtain ⟨first, rest, hparts, hfragment⟩ := hl
    refine ⟨first, rest ++ right.parts, ?_, ?_⟩
    · rw [parts, hparts, List.cons_append]
    · rw [toFragment, concatenate_toFragment left.built_toFragment.inRange, hfragment]
      exact List.foldl_append.symm
  | _ => exact ⟨_, [], rfl, rfl⟩

theorem toFragment_congr (h : s.parts = t.parts) : s.toFragment = t.toFragment := by
  obtain ⟨first, rest, hs, hsfragment⟩ := s.exists_parts
  obtain ⟨first', rest', ht, htfragment⟩ := t.exists_parts
  obtain ⟨rfl, rfl⟩ := List.cons.inj (hs.symm.trans (h.trans ht))
  exact hsfragment.trans htfragment.symm

end Tree

/-! ### Trees of chains -/

variable {alphabet : Alphabet} {markers : Markers} {first : Text} {rest : List Text} {tree : Tree}
  {trees : List Tree}

theorem exists_trees (h : ∀ p ∈ rest, ∃ tree, parse alphabet markers p = .ok tree) :
    ∃ trees, List.Forall₂ (fun p tree => parse alphabet markers p = .ok tree) rest trees := by
  induction rest with
  | nil => exact ⟨[], .nil⟩
  | cons p rest ih =>
    obtain ⟨⟨tree, htree⟩, hrest⟩ := List.forall_mem_cons.1 h
    obtain ⟨trees, htrees⟩ := ih hrest
    exact ⟨tree :: trees, .cons htree htrees⟩

theorem exists_parse_leftChain (sign : Bool) (hfirst : parse alphabet markers first = .ok tree)
    (hrest : List.Forall₂ (fun p tree => parse alphabet markers p = .ok tree) rest trees) :
    ∃ whole, parse alphabet markers (leftChain sign first rest) = .ok whole ∧
      whole.parts = tree.parts ++ trees.flatMap Tree.parts := by
  induction hrest generalizing first tree with
  | nil => exact ⟨tree, hfirst, (List.append_nil _).symm⟩
  | cons hnext _ ih =>
    obtain ⟨whole, hparse, hparts⟩ := ih (parse_juxtaposed sign hfirst hnext)
    refine ⟨whole, hparse, hparts.trans ?_⟩
    rw [Tree.parts, List.flatMap_cons, List.append_assoc]

theorem exists_parse_rightChain (sign : Bool) (hfirst : parse alphabet markers first = .ok tree)
    (hrest : List.Forall₂ (fun p tree => parse alphabet markers p = .ok tree) rest trees) :
    ∃ whole, parse alphabet markers (rightChain sign first rest) = .ok whole ∧
      whole.parts = tree.parts ++ trees.flatMap Tree.parts := by
  induction hrest generalizing first tree with
  | nil => exact ⟨tree, hfirst, (List.append_nil _).symm⟩
  | cons hnext _ ih =>
    obtain ⟨whole, hparse, hparts⟩ := ih hnext
    refine ⟨.concat tree whole, parse_juxtaposed sign hfirst hparse, ?_⟩
    rw [Tree.parts, hparts, List.flatMap_cons]

end Pattern

/-! ### Compiled chains -/

namespace Regex

open Pattern

/-- The same fragment, the same automaton, and one table as long as there is room for its states. -/
structure Alike (left right : Regex) : Prop where
  fragment : left.fragment = right.fragment
  automaton : left.automaton = right.automaton
  table : left.fragment.size < wordSize →
    ∃ t, ∀ mode, left.table mode = .ok t ∧ right.table mode = .ok t

/-- Trees that concatenate the same parts are compiled alike. -/
theorem alike_ofTree {s t : Tree} (h : s.parts = t.parts) : (ofTree s).Alike (ofTree t) := by
  have hfragment := Tree.toFragment_congr h
  refine ⟨hfragment, congrArg Fragment.determinize hfragment, fun hroom => ?_⟩
  have hassembly : s.assembly.fragment = t.assembly.fragment := by
    rw [Tree.fragment_assembly, Tree.fragment_assembly, hfragment]
  rw [show (ofTree s).fragment = s.assembly.fragment from s.fragment_assembly.symm] at hroom
  obtain ⟨table, hs, ht⟩ := Assembly.table_congr hassembly hroom
  exact ⟨table, fun mode => ⟨hs mode, ht mode⟩⟩

theorem alike_of_compile {alphabet alphabet' : Alphabet} {markers markers' : Markers} {p q : Text}
    {left right : Regex} (hleft : compile alphabet markers p = .ok left)
    (hright : compile alphabet' markers' q = .ok right)
    (hparts : left.tree.parts = right.tree.parts) : left.Alike right := by
  rw [eq_ofTree_of_compile hleft, eq_ofTree_of_compile hright]
  exact alike_ofTree hparts

theorem compile_eq_ofTree {alphabet : Alphabet} {markers : Markers} {p : Text} {tree : Tree}
    (h : parse alphabet markers p = .ok tree) : compile alphabet markers p = .ok (ofTree tree) :=
  compile_eq_ok_iff.2 ⟨tree, h, rfl⟩

theorem compile_chains {alphabet : Alphabet} {markers : Markers} {first : Text} {rest : List Text}
    (h : ∀ p ∈ first :: rest, ∃ tree, parse alphabet markers p = .ok tree) (sign sign' : Bool) :
    ∃ left right, compile alphabet markers (leftChain sign first rest) = .ok left ∧
      compile alphabet markers (rightChain sign' first rest) = .ok right ∧ left.Alike right := by
  obtain ⟨⟨tree, hfirst⟩, hrest⟩ := List.forall_mem_cons.1 h
  obtain ⟨trees, htrees⟩ := exists_trees hrest
  obtain ⟨left, hleft, hleftParts⟩ := exists_parse_leftChain sign hfirst htrees
  obtain ⟨right, hright, hrightParts⟩ := exists_parse_rightChain sign' hfirst htrees
  exact ⟨ofTree left, ofTree right, compile_eq_ofTree hleft, compile_eq_ofTree hright,
    alike_ofTree (hleftParts.trans hrightParts.symm)⟩

/-- As long as there is room for the states of three tables, two concatenations, or two embeddings,
make the same table in either order. A guest in a guest begins behind both hosts and has its start
and its acceptance moved up by as much. So patterns that concatenate the same parts compile to the
same fragment, table and automaton; in particular a chain of patterns may be grouped from the left
or from the right. -/
theorem concatenation_ignores_grouping {t u v : Table} (ht : t.Built) (hu : u.Built)
    (hv : v.Built) :
    (t.size + u.size + v.size < wordSize →
      (∃ tu uv w, ∀ mode, t.concatenate mode u = .ok tu ∧ tu.concatenate mode v = .ok w ∧
        u.concatenate mode v = .ok uv ∧ t.concatenate mode uv = .ok w) ∧
      ∃ tu both inner outer, ∀ mode,
        t.embed mode u = .ok tu ∧ tu.host.embed mode v = .ok both ∧
        u.embed mode v = .ok inner ∧ t.embed mode inner.host = .ok outer ∧
        both.host = outer.host ∧ both.offset = t.size + u.size ∧
        outer.offset + inner.offset = t.size + u.size ∧
        both.start = inner.start + outer.offset ∧
        both.accepting = inner.accepting.map (· + outer.offset)) ∧
    (∀ (alphabet alphabet' : Alphabet) (markers markers' : Markers) (p q : Text)
      (left right : Regex), compile alphabet markers p = .ok left →
      compile alphabet' markers' q = .ok right → left.tree.parts = right.tree.parts →
      left.Alike right) ∧
    ∀ (alphabet : Alphabet) (markers : Markers) (sign sign' : Bool) (first : Text)
      (rest : List Text), (∀ p ∈ first :: rest, ∃ tree, parse alphabet markers p = .ok tree) →
      ∃ left right, compile alphabet markers (leftChain sign first rest) = .ok left ∧
        compile alphabet markers (rightChain sign' first rest) = .ok right ∧
        left.Alike right := by
  obtain ⟨a, -, -, hrt⟩ := ht.exists_assembly
  obtain ⟨b, -, -, hru⟩ := hu.exists_assembly
  obtain ⟨c, -, -, hrv⟩ := hv.exists_assembly
  have hg := b.built_fragment.inRange
  have hh := c.built_fragment.inRange
  refine ⟨fun hroom => ?_,
    fun _ _ _ _ _ _ _ _ hleft hright hparts => alike_of_compile hleft hright hparts,
    fun _ _ sign sign' _ _ h => compile_chains h sign sign'⟩
  exact ⟨hrt.concatenate_assoc hru hrv a.built_fragment.inRange hg hh hroom,
    hrt.embed_assoc hru hrv hg hh hroom⟩

/-- A part that accepts nothing between two others; the chain of `a|b`, `c*` and `d`, grouped from
the left without signs and from the right with them; and `abd`, whose tree is not that of
`a(bd)`. -/
theorem concatenation_ignores_grouping_chain :
    let t : Table := {
      size := 3
      start := 3
      accepting := [2, 3]
      filed := [(1, [⟨1, .symbol 'a', 2⟩]), (2, [⟨2, .epsilon, 1⟩]),
        (3, [⟨3, .epsilon, 1⟩, ⟨3, .epsilon, 3⟩])] }
    let alphabet := Alphabet.ofText ['a', 'b', 'c', 'd']
    t.Built ∧ Table.empty.Built ∧
    (∃ tu uv w, ∀ mode, t.concatenate mode .empty = .ok tu ∧ tu.concatenate mode t = .ok w ∧
      Table.empty.concatenate mode t = .ok uv ∧ t.concatenate mode uv = .ok w) ∧
    leftChain false ['a', '|', 'b'] [['c', '*'], ['d']] = "((a|b)(c*))(d)".toList ∧
    rightChain true ['a', '|', 'b'] [['c', '*'], ['d']] = "(a|b)&((c*)&(d))".toList ∧
    (∀ p ∈ [['a', '|', 'b'], ['c', '*'], ['d']], ∃ tree, parse alphabet {} p = .ok tree) ∧
    (∃ left right, compile alphabet {} "((a|b)(c*))(d)".toList = .ok left ∧
      compile alphabet {} "(a|b)&((c*)&(d))".toList = .ok right ∧ left.Alike right) ∧
    ∃ left right, compile alphabet {} ['a', 'b', 'd'] = .ok left ∧
      compile alphabet {} ['a', '(', 'b', 'd', ')'] = .ok right ∧
      left.tree ≠ right.tree ∧ left.tree.parts = right.tree.parts ∧ left.Alike right := by
  intro t alphabet
  have ht : t.Built := ⟨.star (.symbol 'a'), rfl⟩
  have hempty : Table.empty.Built := ⟨.empty, rfl⟩
  obtain ⟨htables, hcompile, hchains⟩ := concatenation_ignores_grouping ht hempty ht
  have hparse : ∀ p ∈ [['a', '|', 'b'], ['c', '*'], ['d']],
      ∃ tree, parse alphabet {} p = .ok tree :=
    List.forall_mem_cons.2 ⟨⟨.union (.symbol 'a') (.symbol 'b'), rfl⟩,
      List.forall_mem_cons.2 ⟨⟨.star (.symbol 'c'), rfl⟩,
        List.forall_mem_singleton.2 ⟨.symbol 'd', rfl⟩⟩⟩
  have hleft : compile alphabet {} ['a', 'b', 'd'] =
      .ok (ofTree (.concat (.concat (.symbol 'a') (.symbol 'b')) (.symbol 'd'))) :=
    compile_eq_ofTree rfl
  have hright : compile alphabet {} ['a', '(', 'b', 'd', ')'] =
      .ok (ofTree (.concat (.symbol 'a') (.concat (.symbol 'b') (.symbol 'd')))) :=
    compile_eq_ofTree rfl
  exact ⟨ht, hempty, (htables (by decide)).1, by decide, by decide, hparse,
    hchains alphabet {} false true ['a', '|', 'b'] [['c', '*'], ['d']] hparse,
    _, _, hleft, hright, by decide, rfl,
    hcompile alphabet alphabet {} {} _ _ _ _ hleft hright rfl⟩

/-- When the count of the states wraps around to none, the start of what is put behind them is the
start before them, and it matters in which order the accepting state is linked to it and to the
third part. -/
theorem not_concatenate_assoc_padded :
    let a := Assembly.padded 'a' 63
    let fromLeft := (a.concatenate (.symbol 'b')).concatenate (.symbol 'c')
    let fromRight := a.concatenate (.concatenate (.symbol 'b') (.symbol 'c'))
    fromLeft.table .checked = .error .overflow ∧ fromRight.table .checked = .error .overflow ∧
      ∃ left right, fromLeft.table .unchecked = .ok left ∧ fromRight.table .unchecked = .ok right ∧
        left.transitionsFrom 2 = [⟨2, .epsilon, 1⟩, ⟨2, .epsilon, 3⟩] ∧
        right.transitionsFrom 2 = [⟨2, .epsilon, 3⟩, ⟨2, .epsilon, 1⟩] ∧ left ≠ right := by
  intro a fromLeft fromRight
  have hsize : a.fragment.size = wordSize := Assembly.size_padded 'a' 63
  have hleft : wordSize ≤ fromLeft.fragment.size := by
    simp only [fromLeft, Assembly.fragment, Fragment.size_concatenate]
    omega
  have hright : wordSize ≤ fromRight.fragment.size := by
    simp only [fromRight, Assembly.fragment, Fragment.size_concatenate]
    omega
  have ha := Assembly.unchecked_table_padded 'a' 63
  let left : Table := {
    size := 4
    accepting := [4]
    filed := [(1, [⟨1, .symbol 'a', 2⟩, ⟨1, .symbol 'b', 2⟩]),
      (2, [⟨2, .epsilon, 1⟩, ⟨2, .epsilon, 3⟩]), (3, [⟨3, .symbol 'c', 4⟩])] }
  let right : Table := {
    size := 4
    accepting := [4]
    filed := [(1, [⟨1, .symbol 'a', 2⟩, ⟨1, .symbol 'b', 2⟩]),
      (2, [⟨2, .epsilon, 3⟩, ⟨2, .epsilon, 1⟩]), (3, [⟨3, .symbol 'c', 4⟩])] }
  have htables : fromLeft.table .unchecked = .ok left ∧ fromRight.table .unchecked = .ok right := by
    simp only [fromLeft, fromRight, Assembly.table, a, ha]
    exact ⟨by decide, by decide⟩
  exact ⟨fromLeft.checked_table_eq_error hleft, fromRight.checked_table_eq_error hright, left,
    right, htables.1, htables.2, rfl, rfl, by decide⟩

end Regex

end PatternLexer
