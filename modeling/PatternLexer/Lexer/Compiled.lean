import PatternLexer.Lexer.Basic
import PatternLexer.Lexer.Definitions
import PatternLexer.Regex

/-! Lexers whose kinds are given by patterns. Every pattern is compiled once, however many kinds
share it. -/

namespace PatternLexer.Lexer

/-- The automata of the patterns compiled so far. -/
abbrev Compiled := List (Text × DetAutomaton)

/-- The automata of definitions, in order. The first pattern that is malformed is reported under
its name. -/
def compileFrom (alphabet : Alphabet) (markers : Pattern.Markers) (compiled : Compiled) :
    List (String × Text) → Except Error (List (String × DetAutomaton))
  | [] => .ok []
  | (name, pattern) :: rest =>
    match compiled.lookup pattern with
    | some automaton => do
      let automata ← compileFrom alphabet markers compiled rest
      return (name, automaton) :: automata
    | none =>
      match Regex.compile alphabet markers pattern with
      | .error error => .error ⟨.invalidExpression name error, none⟩
      | .ok regex => do
        let automata ← compileFrom alphabet markers ((pattern, regex.automaton) :: compiled) rest
        return (name, regex.automaton) :: automata

def ofDefinitions (alphabet : Alphabet) (definitions : Definitions) (source : Text) :
    Except Error Lexer := do
  let automata ← compileFrom alphabet definitions.markers [] definitions.patterns.entries
  return ofRecognizers alphabet (automata.map fun entry => (entry.1, entry.2.recognizes)) source

end PatternLexer.Lexer
