import PatternLexer.Automaton.Construction
import PatternLexer.Automaton.Graph
import PatternLexer.Automaton.Path
import PatternLexer.Automaton.Table
import PatternLexer.Lexer.Compiled
import PatternLexer.Lexer.History
import PatternLexer.Lexer.Recovery
import PatternLexer.Lexer.Run
import PatternLexer.Pattern.Grammar
import PatternLexer.Pattern.Grouping
import PatternLexer.Pattern.Operands
import PatternLexer.Pattern.Parentheses
import PatternLexer.Pattern.Writing
import PatternLexer.Proofs.Automaton.Assemblies
import PatternLexer.Proofs.Automaton.Associativity
import PatternLexer.Proofs.Automaton.Construction
import PatternLexer.Proofs.Automaton.Determinization
import PatternLexer.Proofs.Automaton.Filing
import PatternLexer.Proofs.Automaton.Form
import PatternLexer.Proofs.Automaton.Languages
import PatternLexer.Proofs.Automaton.Layout
import PatternLexer.Proofs.Automaton.Liveness
import PatternLexer.Proofs.Automaton.Operations
import PatternLexer.Proofs.Automaton.Shortlex
import PatternLexer.Proofs.Automaton.Simulation
import PatternLexer.Proofs.Automaton.Tables
import PatternLexer.Proofs.Catalog
import PatternLexer.Proofs.Chains
import PatternLexer.Proofs.Except
import PatternLexer.Proofs.Lexer.Boundaries
import PatternLexer.Proofs.Lexer.Compilation
import PatternLexer.Proofs.Lexer.Coverage
import PatternLexer.Proofs.Lexer.Declarations
import PatternLexer.Proofs.Lexer.Foreign
import PatternLexer.Proofs.Lexer.LongestMatch
import PatternLexer.Proofs.Lexer.Recovery
import PatternLexer.Proofs.Lexer.Splitting
import PatternLexer.Proofs.Lexer.Stopping
import PatternLexer.Proofs.Pattern.Blame
import PatternLexer.Proofs.Pattern.Errors
import PatternLexer.Proofs.Pattern.Escapes
import PatternLexer.Proofs.Pattern.Frames
import PatternLexer.Proofs.Pattern.Grouping
import PatternLexer.Proofs.Pattern.Groups
import PatternLexer.Proofs.Pattern.Parsing
import PatternLexer.Proofs.Pattern.Positions
import PatternLexer.Proofs.Pattern.Refusals
import PatternLexer.Proofs.Pattern.Signs
import PatternLexer.Proofs.Pattern.Spelling
import PatternLexer.Proofs.Pattern.Waiting
import PatternLexer.Proofs.Pattern.Written
import PatternLexer.Proofs.Regex
import PatternLexer.Proofs.Source.Reading
import PatternLexer.Proofs.Source.Runs
import PatternLexer.Proofs.Source.Words
import PatternLexer.Proofs.StateCount
import PatternLexer.Source.Reading
