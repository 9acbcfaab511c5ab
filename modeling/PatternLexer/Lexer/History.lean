import PatternLexer.Lexer.Definitions

/-! Histories of definitions: the calls that change them, one after the other. -/

namespace PatternLexer.Definitions

inductive Call where
  | define (name : String) (pattern : Text)
  | withMarkers (markers : Pattern.Markers)
  deriving DecidableEq

def perform (d : Definitions) : Call → Definitions
  | .define name pattern => d.define name pattern
  | .withMarkers markers => d.withMarkers markers

/-- Performs calls one after the other. -/
def run (d : Definitions) (calls : List Call) : Definitions := calls.foldl perform d

/-- The name and the pattern that a call declares. -/
def Call.declaration? : Call → Option (String × Text)
  | define name pattern => some (name, pattern)
  | withMarkers _ => none

/-- The markers that a call sets. -/
def Call.markers? : Call → Option Pattern.Markers
  | define _ _ => none
  | withMarkers markers => some markers

end PatternLexer.Definitions
