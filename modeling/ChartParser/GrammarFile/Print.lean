import ChartParser.Grammar

/-!
# Writing a grammar as a file

Each rule is written on a line of its own. Which symbols are quoted is not
remembered by a grammar but follows from its rules: heads of rules are written
bare and all other symbols between quotes.
-/
namespace ChartParser.GrammarFile

def printItem (g : Grammar) (s : Symbol) : String :=
  if g.isNonTerminal s then s.name else "\"" ++ s.name ++ "\""

def printRule (g : Grammar) (r : Rule) : String :=
  r.lhs.name ++ " =" ++ String.join (r.rhs.map (" " ++ printItem g ·)) ++ "\n"

def print (g : Grammar) : String :=
  String.join (g.rules.map (printRule g))

end ChartParser.GrammarFile
