import ChartParser.Grammar
import ChartParser.GrammarFile.Token

/-!
# Rule lines

A line defines one name by alternatives, each a sequence of bare names and
quoted texts and possibly empty. Which of the names are defined anywhere is
not asked here, so a line is judged on its own.
-/
namespace ChartParser.GrammarFile

/-- A symbol as it is written on the right of a rule. -/
inductive Item where
  | bare (name : String)
  | quoted (name : String)
  deriving DecidableEq

namespace Item

def name : Item → String
  | bare s | quoted s => s

def ofToken : Token → Except Fault Item
  | .equals => .error .unexpectedEquals
  | .bar => .error .unsplitAlternatives
  | .name s => .ok (.bare s)
  | .quoted s => .ok (.quoted s)

end Item

structure RuleLine where
  head : String
  alternatives : List (List Item)
  /-- The number of the line in its file, from one. -/
  number : Nat
  deriving DecidableEq

namespace RuleLine

/-- The alternatives that bars separate. -/
def alternativesOf (tokens : List Token) : Except Fault (List (List Item)) :=
  (tokens.splitOn .bar).mapM (·.mapM Item.ofToken)

def ofTokens (number : Nat) : List Token → Except Fault RuleLine
  | .name head :: .equals :: rest =>
    (alternativesOf rest).map fun alternatives => { head, alternatives, number }
  | .name _ :: _ => .error .missingEquals
  | _ => .error .missingNonTerminal

/-- The rule on a line, none if the line has no token. -/
def ofText (number : Nat) (text : List Char) : Except Fault (Option RuleLine) :=
  match Token.lex text with
  | .error fault => .error fault
  | .ok [] => .ok none
  | .ok tokens => (ofTokens number tokens).map some

/-- All names on the line, in the order of writing. -/
def names (l : RuleLine) : List String :=
  l.head :: l.alternatives.flatten.map Item.name

/-- One rule for each alternative. -/
def rules (l : RuleLine) : List Rule :=
  l.alternatives.map fun items => ⟨⟨l.head⟩, items.map fun item => ⟨item.name⟩⟩

end RuleLine

end ChartParser.GrammarFile
