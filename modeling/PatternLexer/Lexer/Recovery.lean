import PatternLexer.Lexer.Basic

/-! Lexing on behind errors. A round takes tokens until an error comes and gives up the candidate at
which it came; rounds follow each other until nothing is pending. What a recovering run tells of its
source are the tokens, the causes of the errors and the texts given up, in order and without
positions. -/

namespace PatternLexer.Lexer

inductive Event where
  | token (kind : String) (lexeme : Text)
  | failure (cause : Cause)
  | skipped (text : Text)
  deriving DecidableEq

def Token.event (t : Token) : Event := .token t.kind t.lexeme

/-- The events of one round, and the lexer behind it. -/
def round (lexer : Lexer) : List Event × Lexer :=
  match lexer.tokenize with
  | ((tokens, none), rest) => (tokens.map Token.event, rest)
  | ((tokens, some error), rest) =>
    let (candidate, behind) := rest.skip
    let skipped := candidate.toList.map fun c => Event.skipped c.text
    (tokens.map Token.event ++ .failure error.cause :: skipped, behind)

/-- The recovering run of the lexer ends, with these events. -/
inductive Recovers : Lexer → List Event → Prop
  | last {lexer rest : Lexer} {events : List Event} :
    lexer.round = (events, rest) → rest.isExhausted = true → Recovers lexer events
  | more {lexer rest : Lexer} {events later : List Event} :
    lexer.round = (events, rest) → rest.isExhausted = false → Recovers rest later →
    Recovers lexer (events ++ later)

end PatternLexer.Lexer
