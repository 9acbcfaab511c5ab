import PatternLexer.Catalog
import PatternLexer.Pattern.Token

/-! Token definitions: a pattern for each kind of token, in order of declaration, and the markers
that all of the patterns use. -/

namespace PatternLexer

structure Definitions where
  patterns : Catalog Text := .empty
  markers : Pattern.Markers := {}

namespace Definitions

def withMarkers (d : Definitions) (markers : Pattern.Markers) : Definitions :=
  { d with markers := markers }

/-- Defines a kind, or gives a defined kind another pattern in its place. -/
def define (d : Definitions) (name : String) (pattern : Text) : Definitions :=
  { d with patterns := d.patterns.declare name pattern }

def ofList (pairs : List (String × Text)) : Definitions := ⟨.ofList pairs, {}⟩

def get? (d : Definitions) (name : String) : Option Text := d.patterns.get? name

/-- Patterns that a comparison of catalogs takes for the same, and equal markers. -/
def agree (same : Catalog Text → Catalog Text → Bool) (d e : Definitions) : Bool :=
  same d.patterns e.patterns && d.markers = e.markers

end Definitions

end PatternLexer
