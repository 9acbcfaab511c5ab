import Mathlib.Computability.Language
import PatternLexer.Automaton.Path
import PatternLexer.Automaton.Simulation
import PatternLexer.Proofs.Exploration

/-! Simulation by sets of states against paths. The set held after a word has exactly the states
that some path from the start spells the word to, and so a fragment recognizes the words of the
paths that end in acceptance. -/

namespace PatternLexer

theorem Leads.trans {α : Type} {next : α → List α} {x y z : α} (h : Leads next x y)
    (k : Leads next y z) : Leads next x z := by
  induction k with
  | refl => exact h
  | step _ hz ih => exact ih.step hz

namespace Graph

variable {g : Graph} {s t : Nat} {c : Char} {w : Text}

/-! ### Paths that read one character at most -/

theorem path_nil_iff : Path g.arcs s [] t ↔ Leads (g.targets .epsilon) s t := by
  constructor
  · intro h
    generalize hword : ([] : Text) = word at h
    induction h with
    | nil => exact .refl
    | epsilon harc _ ih => exact (Leads.refl.step (mem_targets.2 harc)).trans (ih hword)
    | symbol => exact nomatch hword
  · intro h
    induction h with
    | refl => exact .nil s
    | step _ hz ih => exact ih.append (.epsilon (mem_targets.1 hz) (.nil _))

/-- A path that spells a word reads its first character on some arc, behind epsilons only. -/
theorem path_cons_iff : Path g.arcs s (c :: w) t ↔
    ∃ r u, Path g.arcs s [] r ∧ ⟨.symbol c, u⟩ ∈ g.arcs r ∧ Path g.arcs u w t := by
  constructor
  · intro h
    generalize hword : c :: w = word at h
    induction h with
    | nil => exact nomatch hword
    | epsilon harc _ ih =>
      obtain ⟨r, u, hr, hu, ht⟩ := ih hword
      exact ⟨r, u, .epsilon harc hr, hu, ht⟩
    | symbol harc htail _ =>
      obtain ⟨rfl, rfl⟩ := List.cons.inj hword
      exact ⟨_, _, .nil _, harc, htail⟩
  · rintro ⟨r, u, hr, hu, ht⟩
    exact hr.append (.symbol hu ht)

/-! ### The set after a word -/

/-- The set of states held once a word was read from the start. -/
def reach (g : Graph) (word : Text) : StateSet := word.foldl g.step (g.closure [g.start])

theorem reach_append (g : Graph) (v w : Text) :
    g.reach (v ++ w) = w.foldl g.step (g.reach v) := List.foldl_append

theorem mem_foldl_step {states : List Nat} :
    t ∈ w.foldl g.step (g.closure states) ↔ ∃ s ∈ states, Path g.arcs s w t := by
  induction w generalizing states with
  | nil => simp only [List.foldl_nil, mem_closure, path_nil_iff]
  | cons c w ih =>
    rw [List.foldl_cons, step, ih]
    simp only [List.mem_flatMap, mem_targets, Ascending.mem_toList, mem_closure, ← path_nil_iff,
      path_cons_iff]
    constructor
    · rintro ⟨u, ⟨r, ⟨s, hs, hr⟩, hu⟩, ht⟩
      exact ⟨s, hs, r, u, hr, hu, ht⟩
    · rintro ⟨s, hs, r, u, hr, hu, ht⟩
      exact ⟨u, ⟨r, ⟨s, hs, hr⟩, hu⟩, ht⟩

theorem mem_reach : t ∈ g.reach w ↔ Path g.arcs g.start w t := by
  unfold reach
  simp [mem_foldl_step]

/-! ### Recognition -/

theorem isAccepting_iff {states : StateSet} :
    g.isAccepting states = true ↔ ∃ t ∈ g.accepting, t ∈ states := by
  simp [isAccepting]

theorem isEmpty_closure_iff {states : List Nat} :
    (g.closure states).isEmpty = true ↔ states = [] := by
  simp only [Ascending.isEmpty_iff, mem_closure, List.eq_nil_iff_forall_not_mem]
  constructor
  · intro h s hs
    exact h s ⟨s, hs, .refl⟩
  · rintro h t ⟨s, hs, -⟩
    exact h s hs

theorem isEmpty_step {states : StateSet} (h : states.isEmpty = true) (c : Char) :
    (g.step states c).isEmpty = true := by
  unfold Ascending.isEmpty at h
  unfold step
  rw [isEmpty_closure_iff, List.isEmpty_iff.1 h]
  rfl

/-- Nothing comes back once no state is left. -/
theorem isEmpty_foldl_step {states : StateSet} (h : states.isEmpty = true) (word : Text) :
    (word.foldl g.step states).isEmpty = true := by
  induction word generalizing states with
  | nil => exact h
  | cons c word ih => exact ih (isEmpty_step h c)

theorem isAccepting_of_isEmpty {states : StateSet} (h : states.isEmpty = true) :
    g.isAccepting states = false := by
  rw [← Bool.not_eq_true, isAccepting_iff]
  rintro ⟨t, -, ht⟩
  exact Ascending.isEmpty_iff.1 h t ht

/-- Giving up early changes no answer. -/
theorem recognizesFrom_eq (g : Graph) (states : StateSet) (word : Text) :
    g.recognizesFrom states word = g.isAccepting (word.foldl g.step states) := by
  induction word generalizing states with
  | nil => rfl
  | cons c word ih =>
    rw [recognizesFrom, List.foldl_cons]
    split
    · rename_i h
      exact (isAccepting_of_isEmpty (isEmpty_foldl_step h word)).symm
    · exact ih _

theorem recognizes_eq (g : Graph) (word : Text) :
    g.recognizes word = g.isAccepting (g.reach word) := recognizesFrom_eq g _ word

/-! ### The language -/

/-- The words that some path spells from the start to acceptance. -/
def language (g : Graph) : Language Char := {w | ∃ t ∈ g.accepting, Path g.arcs g.start w t}

theorem mem_language : w ∈ g.language ↔ ∃ t ∈ g.accepting, Path g.arcs g.start w t := Iff.rfl

theorem recognizes_iff (g : Graph) (word : Text) :
    g.recognizes word = true ↔ word ∈ g.language := by
  simp only [recognizes_eq, isAccepting_iff, mem_reach, mem_language]

/-! ### The simulation as a whole -/

/-- The loop of a closure ends, and has visited each of its members once. -/
theorem exists_rounds_closure (g : Graph) (states : List Nat) : ∃ visited : List Nat,
    visited.Nodup ∧ g.closure states = .ofList visited ∧
      Rounds (visit? (g.targets .epsilon)) (unseen [] states, unseen [] states) visited
        (visited, []) :=
  ⟨_, nodup_reachable _ (g.targets_finite .epsilon) states, rfl,
    rounds_reachable (g.targets_finite .epsilon) states⟩

end Graph

namespace Fragment

/-- The set of states held once a word was read from the start. -/
abbrev reach (f : Fragment) (word : Text) : StateSet := f.graph.reach word

/-- The words that some path spells from the start to acceptance. -/
abbrev language (f : Fragment) : Language Char := f.graph.language

theorem mem_language {f : Fragment} {w : Text} :
    w ∈ f.language ↔ ∃ t ∈ f.accepting, Path f f.start w t := Iff.rfl

theorem recognizes_iff (f : Fragment) (word : Text) :
    f.recognizes word = true ↔ word ∈ f.language := f.graph.recognizes_iff word

/-- A closure is found in a loop that ends, and that visits nothing twice. It has the given numbers,
whether or not they are states, and the states that epsilon arcs lead to from these. A step follows
one arc with its character, and then any number of epsilon arcs. A word is recognized exactly when
some path spells it from the start to acceptance, and this is also what the sets say when the
simulation never gives up. -/
theorem simulates_paths (f : Fragment) :
    (∀ states : List Nat,
      (∃ visited : List Nat, visited.Nodup ∧ f.closure states = .ofList visited ∧
        Rounds (visit? (f.targets .epsilon)) (unseen [] states, unseen [] states) visited
          (visited, [])) ∧
      ∀ t, t ∈ f.closure states ↔ ∃ s ∈ states, Path f s [] t) ∧
    (∀ (states : StateSet) (c : Char) (t : Nat), t ∈ f.step states c ↔
      ∃ s ∈ states, ∃ u, ⟨.symbol c, u⟩ ∈ f.arcs s ∧ Path f u [] t) ∧
    ∀ w : Text, (f.recognizes w = true ↔ ∃ t ∈ f.accepting, Path f f.start w t) ∧
      f.recognizes w = f.isAccepting (w.foldl f.step (f.closure [f.start])) := by
  refine ⟨fun states => ⟨f.graph.exists_rounds_closure states, fun t => ?_⟩, fun states c t => ?_,
    fun w => ⟨?_, f.graph.recognizes_eq w⟩⟩
  · simp only [Graph.mem_closure, ← Graph.path_nil_iff]
  · simp only [Graph.mem_step, ← Graph.path_nil_iff]
  · rw [recognizes_iff, mem_language]

end Fragment

end PatternLexer
