import PatternLexer.Exploration

/-! Exploration as a loop. In each round the first vertex that waits is visited, so every vertex
found is visited in the order of discovery, none of them twice, and the loop ends after as many
rounds as there are vertices found. -/

namespace PatternLexer

/-- Rounds of a loop: each takes an element off the state, and these are the elements taken on the
way from one state to another. -/
inductive Rounds {σ α : Type} (take? : σ → Option (α × σ)) : σ → List α → σ → Prop
  | nil (s : σ) : Rounds take? s [] s
  | cons {s rest final : σ} {x : α} {taken : List α} : take? s = some (x, rest) →
    Rounds take? rest taken final → Rounds take? s (x :: taken) final

/-- The image of a loop under a map that each of its rounds respects makes the same rounds. -/
theorem rounds_image_iff {σ τ α : Type} {take? : σ → Option (α × σ)} {take?' : τ → Option (α × τ)}
    {g : σ → τ} (hg : ∀ s, take?' (g s) = (take? s).map (Prod.map id g)) {s : σ} {t : τ}
    {taken : List α} :
    Rounds take?' (g s) taken t ↔ ∃ final, Rounds take? s taken final ∧ g final = t := by
  constructor
  · intro h
    generalize himage : g s = r at h
    induction h generalizing s with
    | nil => exact ⟨s, .nil s, himage⟩
    | cons htake _ ih =>
      rw [← himage, hg] at htake
      obtain ⟨⟨y, rest⟩, hround, heq⟩ := Option.map_eq_some_iff.1 htake
      obtain ⟨rfl, hrest⟩ := Prod.mk.inj heq
      obtain ⟨final, hrounds, hfinal⟩ := ih hrest
      exact ⟨final, .cons hround hrounds, hfinal⟩
  · rintro ⟨final, h, rfl⟩
    induction h with
    | nil s => exact .nil (g s)
    | cons htake _ ih => exact .cons (by rw [hg, htake]; rfl) ih

variable {α : Type} [DecidableEq α] {next : α → List α} {seeds visited found queue : List α}
  {state final : List α × List α}

/-- Visits the first vertex that waits. The state is what was found, and what of it waits. -/
def visit? (next : α → List α) : List α × List α → Option (α × List α × List α)
  | (_, []) => none
  | (found, x :: queue) =>
    some (x, found ++ unseen found (next x), queue ++ unseen found (next x))

theorem visit?_eq_some {x : α} (h : visit? next state = some (x, final)) :
    ∃ found queue, state = (found, x :: queue) ∧
      final = (found ++ unseen found (next x), queue ++ unseen found (next x)) := by
  obtain ⟨found, _ | ⟨y, queue⟩⟩ := state
  · exact nomatch h
  · obtain ⟨rfl, rfl⟩ := Prod.mk.inj (Option.some.inj h)
    exact ⟨found, queue, rfl, rfl⟩

/-! ### Any number of rounds -/

/-- What was found are the vertices visited before, those visited now and those that wait. -/
theorem Rounds.found_eq (h : Rounds (visit? next) state visited final) {before : List α}
    (hfound : state.1 = before ++ state.2) : final.1 = before ++ visited ++ final.2 := by
  induction h generalizing before with
  | nil state => rw [List.append_nil, hfound]
  | @cons state rest final x visited htake _ ih =>
    obtain ⟨found, queue, rfl, rfl⟩ := visit?_eq_some htake
    dsimp only at hfound
    have hrest : found ++ unseen found (next x) =
        (before ++ [x]) ++ (queue ++ unseen found (next x)) := by
      simp [hfound]
    rw [ih hrest, List.append_assoc before, List.singleton_append]

/-- What is found in the end can be told at any time. -/
theorem Rounds.explore_eq (h : Rounds (visit? next) state visited final)
    (finite : FiniteRange next) :
    explore next finite state.1 state.2 = explore next finite final.1 final.2 := by
  induction h with
  | nil state => rfl
  | cons htake _ ih =>
    obtain ⟨found, queue, rfl, rfl⟩ := visit?_eq_some htake
    rw [← ih, explore]

theorem exists_rounds_explore (finite : FiniteRange next) (found queue : List α) : ∃ visited,
    Rounds (visit? next) (found, queue) visited (explore next finite found queue, []) := by
  fun_induction explore next finite found queue with
  | case1 found => exact ⟨[], .nil _⟩
  | case2 found x queue ih =>
    obtain ⟨visited, hrounds⟩ := ih
    exact ⟨x :: visited, .cons rfl hrounds⟩

/-! ### From the seeds -/

/-- The loop visits all that the seeds lead to, in the order of discovery, and then it ends. -/
theorem rounds_reachable (finite : FiniteRange next) (seeds : List α) :
    Rounds (visit? next) (unseen [] seeds, unseen [] seeds) (reachable next finite seeds)
      (reachable next finite seeds, []) := by
  obtain ⟨visited, hrounds⟩ :=
    exists_rounds_explore finite (unseen [] seeds) (unseen [] seeds)
  have hvisited : reachable next finite seeds = [] ++ visited ++ [] := hrounds.found_eq rfl
  rw [List.nil_append, List.append_nil] at hvisited
  rwa [← hvisited] at hrounds

/-- However many rounds were made, what was found is the first that is found at all. -/
theorem Rounds.prefix_reachable
    (h : Rounds (visit? next) (unseen [] seeds, unseen [] seeds) visited (found, queue))
    (finite : FiniteRange next) : found <+: reachable next finite seeds := by
  have hexplore : reachable next finite seeds = explore next finite found queue :=
    h.explore_eq finite
  rw [hexplore]
  exact prefix_explore next finite found queue

/-- When the loop ends, all that the seeds lead to was visited. -/
theorem Rounds.visited_eq_reachable
    (h : Rounds (visit? next) (unseen [] seeds, unseen [] seeds) visited (found, []))
    (finite : FiniteRange next) : visited = reachable next finite seeds := by
  have hfound : found = [] ++ visited ++ [] := h.found_eq rfl
  have hexplore : reachable next finite seeds = explore next finite found [] :=
    h.explore_eq finite
  rw [hexplore, explore, hfound, List.nil_append, List.append_nil]

end PatternLexer
