import ChartParser.Grammar

/-!
# Chomsky normal form

A grammar is in normal form when each rule goes either to one terminal or to
two non-terminals. The check reports the first rule that does neither, and of
that rule the first thing that is wrong with it.
-/
namespace ChartParser

/-- The ways in which a rule can fall outside the normal form. -/
inductive Violation where
  | emptyRightSide
  | tooLong (length : Nat)
  | terminalInBinaryRule (symbol : Symbol)
  | nonTerminalInUnaryRule (symbol : Symbol)
  deriving DecidableEq

def Violation.message : Violation → String
  | emptyRightSide => "right hand side is empty"
  | tooLong length =>
    "right hand side has " ++ toString length ++ " symbols, at most 2 are allowed"
  | terminalInBinaryRule symbol => "terminal `" ++ symbol.name ++ "` in a binary rule"
  | nonTerminalInUnaryRule symbol =>
    "non-terminal `" ++ symbol.name ++ "` alone on the right hand side"

/-- A rule together with what is wrong with it. -/
structure NotNormalForm where
  rule : Rule
  violation : Violation
  deriving DecidableEq

def NotNormalForm.message (e : NotNormalForm) : String :=
  "The grammar is not in Chomsky Normal Form: `" ++ e.rule.render ++ "` (" ++
    e.violation.message ++ ")"

instance : ToString NotNormalForm := ⟨NotNormalForm.message⟩

namespace Grammar

def violationOf? (g : Grammar) (r : Rule) : Option Violation :=
  match r.rhs with
  | [] => some .emptyRightSide
  | [single] => if g.isNonTerminal single then some (.nonTerminalInUnaryRule single) else none
  | [left, right] => ([left, right].find? (!g.isNonTerminal ·)).map .terminalInBinaryRule
  | long => some (.tooLong long.length)

/-- The first rule outside the normal form, if there is one. -/
def firstViolation? (g : Grammar) : Option NotNormalForm :=
  g.rules.findSome? fun r => (g.violationOf? r).map (⟨r, ·⟩)

def inNormalForm (g : Grammar) : Bool :=
  g.firstViolation?.isNone

end Grammar

end ChartParser
