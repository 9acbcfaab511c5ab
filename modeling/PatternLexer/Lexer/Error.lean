import PatternLexer.Pattern.Error
import PatternLexer.Source.Position

/-! What can go wrong when a lexer is built or reads. -/

namespace PatternLexer.Lexer

/-- Why a candidate yields no token. -/
inductive Reason where
  | outOfAlphabet (c : Char)
  | noMatch
  deriving DecidableEq

inductive Cause where
  | invalidExpression (name : String) (error : Pattern.Error)
  | invalidToken (candidate : Text) (reason : Reason)
  | endOfInput
  deriving DecidableEq

/-- A cause, and where in the source it arose, if it arose there. -/
structure Error where
  cause : Cause
  position : Option Position := none
  deriving DecidableEq

def Reason.message : Reason → String
  | outOfAlphabet c => "character " ++ Text.quoteChar c ++ " is not part of the alphabet"
  | noMatch => "no token definition matches any prefix"

def Cause.message : Cause → String
  | invalidExpression name error =>
    "Token " ++ Text.quote name.toList ++ " has an invalid expression: " ++ error.message
  | invalidToken candidate reason =>
    "Invalid token " ++ Text.quote candidate ++ ": " ++ reason.message
  | endOfInput => "End of input"

/-- The position, if there is one, stands before the cause. -/
def Error.message (e : Error) : String :=
  match e.position with
  | none => e.cause.message
  | some position => position.display ++ ": " ++ e.cause.message

def Error.isEndOfInput (e : Error) : Bool := e.cause = .endOfInput

end PatternLexer.Lexer
