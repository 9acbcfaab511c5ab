import PatternLexer.Lexer.Run
import PatternLexer.Proofs.Lexer.LongestMatch

/-! Where taking tokens stops. Every token takes at least one character off what is pending,
whatever the kinds accept, so calls of `next` come to an error after at most that many tokens. The
error means that nothing is pending, or else it stands for the front candidate and comes back until
this candidate is given up. -/

namespace PatternLexer.Lexer

variable {lexer rest : Lexer} {token : Token} {error : Error} {calls : List Call}

/-! ### Tokens until the first error -/

theorem run_next_of_ok (h : lexer.next = (.ok token, rest)) (calls : List Call) :
    lexer.run (.next :: calls) = (.next (.ok token) :: (rest.run calls).1, (rest.run calls).2) := by
  simp only [run, perform, h]

/-- `tokenize` gives what calls of `next` give up to the first error, which it keeps unless nothing
is pending any more. -/
theorem run_replicate_tokenize (lexer : Lexer) :
    ∃ error, lexer.run (.replicate (lexer.tokenize.1.1.length + 1) .next) =
        (lexer.tokenize.1.1.map (fun token => .next (.ok token)) ++ [.next (.error error)],
          lexer.tokenize.2) ∧
      lexer.tokenize.2.next = (.error error, lexer.tokenize.2) ∧
      lexer.tokenize.1.2 = if error.isEndOfInput then none else some error := by
  induction lexer using Lexer.tokenize.induct with
  | case1 lexer token rest hnext _ _ _ _ ih =>
    obtain ⟨error, hrun, hlast, herror⟩ := ih
    rw [tokenize_of_next_eq_ok hnext]
    refine ⟨error, ?_, hlast, herror⟩
    rw [List.length_cons, List.replicate_succ, run_next_of_ok hnext, hrun]
    rfl
  | case2 lexer error rest hnext =>
    rw [tokenize_of_next_eq_error hnext]
    obtain rfl := eq_of_next_eq_error hnext
    exact ⟨error, run_replicate_next hnext 1, hnext, rfl⟩

/-- Each token takes a character at least off those that are in no token yet. -/
theorem length_tokens_add_unread_le (lexer : Lexer) :
    lexer.tokenize.1.1.length + lexer.tokenize.2.unread.length ≤ lexer.unread.length := by
  induction lexer using Lexer.tokenize.induct with
  | case1 lexer token rest hnext _ _ _ _ ih =>
    have hless := length_unread_next_lt hnext
    rw [tokenize_of_next_eq_ok hnext, List.length_cons]
    dsimp only
    omega
  | case2 lexer error rest hnext =>
    rw [tokenize_of_next_eq_error hnext]
    obtain rfl := eq_of_next_eq_error hnext
    simp

/-! ### Behind an error -/

theorem tokenize_of_refused (h : lexer.next = (.error error, lexer))
    (hend : error.isEndOfInput = false) : lexer.tokenize = (([], some error), lexer) := by
  rw [tokenize_of_next_eq_error h, hend]
  rfl

/-- An error other than that of the end comes back on every call until the candidate is given up. -/
theorem run_of_refused (h : lexer.next = (.error error, lexer)) (hend : error.isEndOfInput = false)
    (hskip : .skip ∉ calls) : lexer.run calls =
      (calls.map fun call =>
        if call = .tokenize then .tokenized [] (some error) else .next (.error error), lexer) := by
  induction calls with
  | nil => rfl
  | cons call calls ih =>
    obtain ⟨hcall, hcalls⟩ := List.ne_and_not_mem_of_not_mem_cons hskip
    cases call with
    | next => simp [run, perform, h, ih hcalls]
    | skip => exact absurd rfl hcall
    | tokenize => simp [run, perform, tokenize_of_refused h hend, ih hcalls]

/-- In every state of a lexer, whatever its kinds accept, `tokenize` ends after at most as many
tokens as there are characters pending. It gives the tokens that calls of `next` yield up to the
first error, and leaves what they leave. Without an error nothing is pending then. An error is that
of the front candidate, at its position, and until a candidate is given up all calls give this error
and nothing else and leave everything as it is. -/
theorem tokenize_stops (lexer : Lexer) :
    let tokens := lexer.tokenize.1.1
    let failure := lexer.tokenize.1.2
    let final := lexer.tokenize.2
    tokens.length ≤ lexer.unread.length ∧
    (∃ last, lexer.run (.replicate (tokens.length + 1) .next) =
      (tokens.map (fun token => .next (.ok token)) ++ [.next (.error last)], final)) ∧
    (failure = none ↔ final.pending = []) ∧
    ∀ error, failure = some error →
      (∃ candidate behind reason, final.pending = candidate :: behind ∧
        final.longestMatch candidate.text = .error reason ∧
        error = ⟨.invalidToken candidate.text reason, some candidate.position⟩) ∧
      ∀ calls, .skip ∉ calls → final.run calls =
        (calls.map fun call =>
          if call = .tokenize then .tokenized [] (some error) else .next (.error error),
          final) := by
  intro tokens failure final
  obtain ⟨last, hrun, hlast, hfailure⟩ := lexer.run_replicate_tokenize
  have hlength : tokens.length + final.unread.length ≤ lexer.unread.length :=
    lexer.length_tokens_add_unread_le
  refine ⟨by omega, ⟨last, hrun⟩, ?_⟩
  obtain ⟨-, ⟨hpending, rfl⟩ | ⟨candidate, behind, reason, hpending, hmatch, rfl⟩⟩ :=
    next_eq_error hlast
  · have hnone : failure = none := hfailure
    refine ⟨iff_of_true hnone hpending, fun error herror => ?_⟩
    exact nomatch hnone.symm.trans herror
  · have hsome : failure = some _ := hfailure
    refine ⟨iff_of_false (by simp [hsome]) (by simp [final, hpending]), fun error herror => ?_⟩
    obtain rfl := Option.some.inj (hsome.symm.trans herror)
    exact ⟨⟨candidate, behind, reason, hpending, hmatch, rfl⟩,
      fun calls => run_of_refused hlast rfl⟩

/-- A kind that accepts the empty word too takes one token and then refuses what is left, although
a match would come behind it. -/
theorem tokenize_stops_nullable :
    let kinds : Catalog (Text → Bool) := .ofList [("A", fun word => word.all (· = 'a'))]
    let lexer : Lexer :=
      ⟨.ofText ['a', 'b'], kinds, [⟨['a', 'a', 'b'], ⟨1, 1⟩⟩, ⟨['a'], ⟨1, 5⟩⟩]⟩
    let final : Lexer := { lexer with pending := [⟨['b'], ⟨1, 3⟩⟩, ⟨['a'], ⟨1, 5⟩⟩] }
    let error : Error := ⟨.invalidToken ['b'] .noMatch, some ⟨1, 3⟩⟩
    lexer.tokenize = (([⟨"A", ['a', 'a'], ⟨1, 1⟩⟩], some error), final) ∧
      final.run [.tokenize, .next, .tokenize] =
        ([.tokenized [] (some error), .next (.error error), .tokenized [] (some error)],
          final) := by
  intro kinds lexer final error
  have hfirst : lexer.next = (.ok ⟨"A", ['a', 'a'], ⟨1, 1⟩⟩, final) := rfl
  have hsecond : final.next = (.error error, final) := rfl
  have htokenize : lexer.tokenize = (([⟨"A", ['a', 'a'], ⟨1, 1⟩⟩], some error), final) := by
    rw [tokenize_of_next_eq_ok hfirst, tokenize_of_next_eq_error hsecond]
    rfl
  obtain ⟨-, -, -, hrefused⟩ := tokenize_stops lexer
  rw [htokenize] at hrefused
  exact ⟨htokenize, (hrefused error rfl).2 [.tokenize, .next, .tokenize] (by decide)⟩

end PatternLexer.Lexer
