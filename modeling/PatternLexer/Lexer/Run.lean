import PatternLexer.Lexer.Basic

/-! Sequences of calls of a lexer, and what each call gives. -/

namespace PatternLexer.Lexer

/-- The calls that change a lexer. -/
inductive Call where
  | next
  | skip
  | tokenize
  deriving DecidableEq

inductive Outcome where
  | next (result : Except Error Token)
  | skipped (candidate : Option Candidate)
  | tokenized (tokens : List Token) (error : Option Error)

def perform (lexer : Lexer) : Call → Outcome × Lexer
  | .next =>
    let (result, rest) := lexer.next
    (.next result, rest)
  | .skip =>
    let (candidate, rest) := lexer.skip
    (.skipped candidate, rest)
  | .tokenize =>
    let ((tokens, error), rest) := lexer.tokenize
    (.tokenized tokens error, rest)

/-- Performs calls one after the other. -/
def run (lexer : Lexer) : List Call → List Outcome × Lexer
  | [] => ([], lexer)
  | call :: calls =>
    let (outcome, rest) := lexer.perform call
    let (outcomes, final) := rest.run calls
    (outcome :: outcomes, final)

end PatternLexer.Lexer
