import Mathlib.Data.List.Chain
import PatternLexer.Proofs.Pattern.Positions

/-! Concatenation signs, written or left out. The pass that completes a list of tokens writes a sign
at every place that lacks one and nowhere else. Which signs were there before makes no difference:
the completed list has the same tokens, and the parser gives the same answer. -/

namespace PatternLexer.Pattern

variable {after : Bool} {chosen : Nat → Bool} {tokens tokens' : List Placed}

/-! ### The pass without positions -/

/-- The pass on tokens alone. -/
def completeFrom (after : Bool) : List Token → List Token
  | [] => []
  | token :: rest =>
    let tail := token :: completeFrom token.endsOperand rest
    if after && token.startsOperand then .operator .concat :: tail else tail

theorem map_token_concatenationsFrom (after : Bool) (tokens : List Placed) :
    (concatenationsFrom after tokens).map Placed.token =
      completeFrom after (tokens.map Placed.token) := by
  induction tokens generalizing after with
  | nil => rfl
  | cons t tokens ih =>
    rw [List.map_cons, concatenationsFrom, completeFrom, ← ih]
    split <;> rfl

theorem map_token_withConcatenations (tokens : List Placed) :
    (withConcatenations tokens).map Placed.token = completeFrom false (tokens.map Placed.token) :=
  map_token_concatenationsFrom false tokens

theorem withConcatenations_idem (tokens : List Placed) :
    withConcatenations (withConcatenations tokens) = withConcatenations tokens :=
  concatenationsFrom_of_apart (apart_concatenationsFrom false tokens)

/-- The same tokens are parsed alike once their signs are written. -/
theorem parseTokens_withConcatenations_congr
    (h : completeFrom false (tokens.map Placed.token) =
      completeFrom false (tokens'.map Placed.token)) :
    (parseTokens (withConcatenations tokens)).mapError Error.unplaced =
      (parseTokens (withConcatenations tokens')).mapError Error.unplaced := by
  refine parseTokens_congr ?_
  rwa [map_token_withConcatenations, map_token_withConcatenations]

theorem Apart.isChain (h : Apart after tokens) :
    tokens.IsChain fun s t => ¬ (s.token.endsOperand = true ∧ t.token.startsOperand = true) := by
  induction tokens generalizing after with
  | nil => exact .nil
  | cons s tokens ih =>
    cases tokens with
    | nil => exact .singleton s
    | cons t tokens =>
      refine List.isChain_cons_cons.2 ⟨?_, ih h.2⟩
      rintro ⟨hends, hstarts⟩
      exact absurd (hends.symm.trans (h.2.1 hstarts)) Bool.noConfusion

/-! ### Places that lack a sign -/

/-- The places behind other tokens, of which the last ends an operand or does not. -/
def lacksSignFrom (after : Bool) (tokens : List Placed) : Nat → Bool
  | 0 => after && tokens[0]?.any fun t => t.token.startsOperand
  | i + 1 => lacksSign tokens (i + 1)

theorem lacksSignFrom_false (tokens : List Placed) :
    lacksSignFrom false tokens = lacksSign tokens := by
  funext i
  cases i <;> rfl

theorem lacksSignFrom_cons (after : Bool) (t : Placed) (rest : List Placed) :
    (fun i => lacksSignFrom after (t :: rest) (i + 1)) =
      lacksSignFrom t.token.endsOperand rest := by
  funext i
  cases i <;> rfl

/-- Written at all places that lack one, the signs are those of the pass. -/
theorem map_fst_writeSigns (after : Bool) (tokens : List Placed) :
    (writeSigns (lacksSignFrom after tokens) tokens).map Prod.fst =
      concatenationsFrom after tokens := by
  induction tokens generalizing after with
  | nil => rfl
  | cons t tokens ih =>
    have hfirst : lacksSignFrom after (t :: tokens) 0 = (after && t.token.startsOperand) := rfl
    rw [writeSigns, concatenationsFrom, lacksSignFrom_cons, hfirst, ← ih]
    split <;> rfl

theorem filter_writeSigns (chosen : Nat → Bool) (tokens : List Placed) :
    ((writeSigns chosen tokens).filter fun x => !x.2).map Prod.fst = tokens := by
  induction tokens generalizing chosen with
  | nil => rfl
  | cons t tokens ih =>
    rw [writeSigns]
    split <;> simp [ih]

theorem token_of_mem_writeSigns {x : Placed × Bool} (hx : x ∈ writeSigns chosen tokens)
    (hsign : x.2 = true) : x.1.token = .operator .concat := by
  induction tokens generalizing chosen with
  | nil => exact absurd hx List.not_mem_nil
  | cons t tokens ih =>
    have htail (hmem : x ∈ (t, false) :: writeSigns (fun i => chosen (i + 1)) tokens) :
        x.1.token = .operator .concat := by
      rcases List.mem_cons.1 hmem with rfl | hmem
      · exact absurd hsign Bool.false_ne_true
      · exact ih hmem
    rw [writeSigns] at hx
    split at hx
    · rcases List.mem_cons.1 hx with rfl | hx
      · rfl
      · exact htail hx
    · exact htail hx

/-- Signs at some of the places that lack one are not written twice. -/
theorem completeFrom_writeSigns (h : ∀ i, chosen i = true → lacksSignFrom after tokens i = true) :
    completeFrom after ((writeSigns chosen tokens).map fun x => x.1.token) =
      completeFrom after (tokens.map Placed.token) := by
  induction tokens generalizing after chosen with
  | nil => rfl
  | cons t tokens ih =>
    have hrest := ih fun i hi => congrFun (lacksSignFrom_cons after t tokens) i ▸ h (i + 1) hi
    rw [writeSigns]
    split
    · rename_i hchosen
      have hlacks : (after && t.token.startsOperand) = true := h 0 hchosen
      have hsign : (Token.operator .concat).endsOperand = false := rfl
      have hstart : (Token.operator .concat).startsOperand = false := rfl
      simp [completeFrom, hlacks, hsign, hstart, hrest]
    · simp [completeFrom, hrest]

/-- The pass writes a concatenation sign at every place that lacks one. Without these signs the
tokens are the old ones. Behind it no operand stands right behind another, and the pass adds nothing
more. Tokens with signs at some of these places, at whatever positions, are completed to the same
tokens, and parsed to the same tree or refused for the same reason. -/
theorem withConcatenations_completes (tokens : List Placed) :
    (writeSigns (lacksSign tokens) tokens).map Prod.fst = withConcatenations tokens ∧
    (∀ x ∈ writeSigns (lacksSign tokens) tokens, x.2 = true → x.1.token = .operator .concat) ∧
    ((writeSigns (lacksSign tokens) tokens).filter fun x => !x.2).map Prod.fst = tokens ∧
    ((withConcatenations tokens).IsChain fun s t =>
      ¬ (s.token.endsOperand = true ∧ t.token.startsOperand = true)) ∧
    withConcatenations (withConcatenations tokens) = withConcatenations tokens ∧
    ∀ (chosen : Nat → Bool) (signed : List Placed),
      (∀ i, chosen i = true → lacksSign tokens i = true) →
      signed.map Placed.token = (writeSigns chosen tokens).map (fun x => x.1.token) →
      (withConcatenations signed).map Placed.token =
        (withConcatenations tokens).map Placed.token ∧
      (parseTokens (withConcatenations signed)).mapError Error.unplaced =
        (parseTokens (withConcatenations tokens)).mapError Error.unplaced := by
  refine ⟨?_, fun x hx => token_of_mem_writeSigns hx, filter_writeSigns _ tokens,
    (apart_concatenationsFrom false tokens).isChain, withConcatenations_idem tokens, ?_⟩
  · rw [← lacksSignFrom_false]
    exact map_fst_writeSigns false tokens
  · intro chosen signed hchosen hsigned
    rw [← lacksSignFrom_false] at hchosen
    have hcomplete : completeFrom false (signed.map Placed.token) =
        completeFrom false (tokens.map Placed.token) := by
      rw [hsigned, completeFrom_writeSigns hchosen]
    refine ⟨?_, parseTokens_withConcatenations_congr hcomplete⟩
    rw [map_token_withConcatenations, map_token_withConcatenations, hcomplete]

/-- In `ab(c` with the sign before `b` written, the group that is not closed is one character
later. -/
theorem withConcatenations_completes_unclosed :
    let tokens : List Placed :=
      [⟨0, .symbol 'a'⟩, ⟨1, .symbol 'b'⟩, ⟨2, .opening⟩, ⟨3, .symbol 'c'⟩]
    let signed : List Placed := [⟨0, .symbol 'a'⟩, ⟨1, .operator .concat⟩, ⟨2, .symbol 'b'⟩,
      ⟨3, .opening⟩, ⟨4, .symbol 'c'⟩]
    (∀ i, decide (i = 1) = true → lacksSign tokens i = true) ∧
    signed.map Placed.token = (writeSigns (fun i => i = 1) tokens).map (fun x => x.1.token) ∧
    (withConcatenations signed).map Placed.token =
      (withConcatenations tokens).map Placed.token ∧
    parseTokens (withConcatenations tokens) = .error (.unclosedOpening 2) ∧
    parseTokens (withConcatenations signed) = .error (.unclosedOpening 3) ∧
    (parseTokens (withConcatenations signed)).mapError Error.unplaced =
      .error (.unclosedOpening 0) := by
  intro tokens signed
  have hchosen : ∀ i, decide (i = 1) = true → lacksSign tokens i = true := by
    intro i hi
    obtain rfl := of_decide_eq_true hi
    rfl
  obtain ⟨hcomplete, hparse⟩ :=
    (withConcatenations_completes tokens).2.2.2.2.2 (fun i => i = 1) signed hchosen rfl
  exact ⟨hchosen, rfl, hcomplete, rfl, rfl, hparse⟩

end PatternLexer.Pattern
