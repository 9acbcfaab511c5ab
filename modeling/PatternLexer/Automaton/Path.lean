import PatternLexer.Automaton.Fragment

/-! Paths along arcs and the words that they spell. A path reads its symbol labels in order; epsilon
labels leave no trace in the word. -/

namespace PatternLexer

/-- Some path leads from the first number to the second and spells the word. -/
inductive Path (arcs : Nat → List Arc) : Nat → Text → Nat → Prop
  | nil (s : Nat) : Path arcs s [] s
  | epsilon {s u t : Nat} {word : Text} :
    ⟨.epsilon, u⟩ ∈ arcs s → Path arcs u word t → Path arcs s word t
  | symbol {s u t : Nat} {c : Char} {word : Text} :
    ⟨.symbol c, u⟩ ∈ arcs s → Path arcs u word t → Path arcs s (c :: word) t

namespace Path

variable {arcs : Nat → List Arc} {s t u : Nat} {v w : Text}

theorem append (h : Path arcs s v t) (k : Path arcs t w u) : Path arcs s (v ++ w) u := by
  induction h with
  | nil => exact k
  | epsilon harc _ ih => exact .epsilon harc (ih k)
  | symbol harc _ ih => exact .symbol harc (ih k)

/-- A path that spells two words passes a state between them. -/
theorem split (h : Path arcs s (v ++ w) u) : ∃ t, Path arcs s v t ∧ Path arcs t w u := by
  generalize hword : v ++ w = word at h
  induction h generalizing v with
  | nil =>
    obtain ⟨rfl, rfl⟩ := List.append_eq_nil_iff.1 hword
    exact ⟨_, .nil _, .nil _⟩
  | epsilon harc _ ih =>
    obtain ⟨t, hv, hw⟩ := ih hword
    exact ⟨t, .epsilon harc hv, hw⟩
  | symbol harc htail ih =>
    cases v with
    | nil =>
      subst hword
      exact ⟨_, .nil _, .symbol harc htail⟩
    | cons c v =>
      obtain ⟨rfl, hrest⟩ := List.cons.inj hword
      obtain ⟨t, hv, hw⟩ := ih hrest
      exact ⟨t, .symbol harc hv, hw⟩

end Path

/-- Paths through a fragment. -/
abbrev Fragment.Path (f : Fragment) : Nat → Text → Nat → Prop := PatternLexer.Path f.arcs

end PatternLexer
