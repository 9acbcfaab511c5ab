import PatternLexer.Alphabet
import PatternLexer.Automaton.Fragment

/-! Running a graph on a word, by the set of the numbers that it may be in. -/

namespace PatternLexer

abbrev StateSet := Ascending Nat

namespace Graph

/-- The given numbers, whether or not they are states, and all that epsilon arcs add. -/
def closure (g : Graph) (states : List Nat) : StateSet :=
  .ofList (reachable (g.targets .epsilon) (g.targets_finite .epsilon) states)

/-- Where a character leads from a set of states. -/
def step (g : Graph) (states : StateSet) (c : Char) : StateSet :=
  g.closure (states.toList.flatMap (g.targets (.symbol c)))

def isAccepting (g : Graph) (states : StateSet) : Bool :=
  g.accepting.any fun s => decide (s ∈ states)

/-- Reads a word from a set of states, and gives up as soon as no state is left. -/
def recognizesFrom (g : Graph) (states : StateSet) : Text → Bool
  | [] => g.isAccepting states
  | c :: rest =>
    let next := g.step states c
    if next.isEmpty then false else g.recognizesFrom next rest

def recognizes (g : Graph) (word : Text) : Bool :=
  g.recognizesFrom (g.closure [g.start]) word

/-! ### Membership -/

theorem mem_closure {g : Graph} {states : List Nat} {t : Nat} :
    t ∈ g.closure states ↔ ∃ s ∈ states, Leads (g.targets .epsilon) s t :=
  Ascending.mem_ofList.trans mem_reachable

theorem mem_step {g : Graph} {states : StateSet} {c : Char} {t : Nat} :
    t ∈ g.step states c ↔
      ∃ s ∈ states, ∃ u, ⟨.symbol c, u⟩ ∈ g.arcs s ∧ Leads (g.targets .epsilon) u t := by
  rw [step, mem_closure]
  simp only [List.mem_flatMap, mem_targets]
  constructor
  · rintro ⟨u, ⟨s, hs, hu⟩, ht⟩
    exact ⟨s, hs, u, hu, ht⟩
  · rintro ⟨s, hs, u, hu, ht⟩
    exact ⟨u, ⟨s, hs, hu⟩, ht⟩

/-- A step leads to targets of arcs only. -/
theorem mem_pool_of_mem_step {g : Graph} {pool : List Nat}
    (hpool : ∀ label s, ∀ t ∈ g.targets label s, t ∈ pool) {states : StateSet} {c : Char} {t : Nat}
    (h : t ∈ g.step states c) : t ∈ pool := by
  obtain ⟨s, _, u, hu, hut⟩ := mem_step.1 h
  cases hut with
  | refl => exact hpool _ s t (mem_targets.2 hu)
  | step _ ht => exact hpool _ _ t ht

end Graph

/-! ### Runs of fragments -/

namespace Fragment

abbrev targets (f : Fragment) (label : Label) (s : Nat) : List Nat := f.graph.targets label s

abbrev closure (f : Fragment) (states : List Nat) : StateSet := f.graph.closure states

abbrev step (f : Fragment) (states : StateSet) (c : Char) : StateSet := f.graph.step states c

abbrev isAccepting (f : Fragment) (states : StateSet) : Bool := f.graph.isAccepting states

abbrev recognizes (f : Fragment) (word : Text) : Bool := f.graph.recognizes word

end Fragment

end PatternLexer
