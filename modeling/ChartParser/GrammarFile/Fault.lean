import ChartParser.FileFault
import ChartParser.Location

/-!
# Faults of a grammar file

The causes for which a file is refused, each with the sentence that reports
it. A fault carries the name it is about and nothing else; where it occurred
is said by the location around it.
-/
namespace ChartParser.GrammarFile

inductive Fault where
  | missingEquals
  | unexpectedEquals
  /-- A line that defines something else than a bare name. -/
  | missingNonTerminal
  | unmatchedQuote
  /-- A bare name that no line defines. -/
  | undefinedNonTerminal (name : String)
  /-- A bar inside an alternative, where splitting should have left none. -/
  | unsplitAlternatives
  /-- A quoted name that some line defines. -/
  | ambiguousSymbol (name : String)
  | noRules
  | unreadable (cause : FileFault)
  deriving BEq

def Fault.message : Fault → String
  | missingEquals => "Expected `=` after nonterminal"
  | unexpectedEquals => "Unexpected `=` encountered"
  | missingNonTerminal => "Tried to define something other than a nonterminal"
  | unmatchedQuote => "Unmatched quotes"
  | undefinedNonTerminal name => "Could not find definition for `" ++ name ++ "`"
  | unsplitAlternatives =>
    "Alternatives were not fully split (this is a problem with chomsky, not the grammar)"
  | ambiguousSymbol name => "Terminal \"" ++ name ++ "\" has the name of a nonterminal"
  | noRules => "No rules found"
  | unreadable cause => "File error: " ++ cause.text

instance : ToString Fault := ⟨Fault.message⟩

end ChartParser.GrammarFile
