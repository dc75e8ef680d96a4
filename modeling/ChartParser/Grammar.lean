/-!
# Symbols, rules and grammars

A grammar is a vocabulary, a start symbol and a list of rules. Symbols are
matched by name alone: which of them are terminals is not stored but read off
the rules, a symbol being a non-terminal exactly when it heads one. Nothing
here asks for a normal form, and the vocabulary need not agree with the rules.
-/
namespace ChartParser

structure Symbol where
  name : String
  deriving DecidableEq, Hashable, Inhabited

/-- A production `lhs --> rhs`. -/
structure Rule where
  lhs : Symbol
  rhs : List Symbol
  deriving DecidableEq

namespace Rule

/-- The two symbols of a binary right-hand side. -/
def pair? (r : Rule) : Option (Symbol × Symbol) :=
  match r.rhs with
  | [left, right] => some (left, right)
  | _ => none

/-- The symbol of a one-symbol right-hand side. -/
def single? (r : Rule) : Option Symbol :=
  match r.rhs with
  | [symbol] => some symbol
  | _ => none

def render (r : Rule) : String :=
  r.lhs.name ++ " --> [" ++ ",".intercalate (r.rhs.map Symbol.name) ++ "]"

end Rule

structure Grammar where
  name : String
  /-- The vocabulary, terminals and non-terminals alike. -/
  symbols : List Symbol
  start : Symbol
  rules : List Rule
  deriving DecidableEq

namespace Grammar

/-- The heads of the rules, each once, in order of first appearance. -/
def nonTerminals (g : Grammar) : List Symbol :=
  (g.rules.map Rule.lhs).eraseDups

def isNonTerminal (g : Grammar) (s : Symbol) : Bool :=
  g.rules.any (·.lhs == s)

/-- The symbols of the vocabulary that head no rule. -/
def terminals (g : Grammar) : List Symbol :=
  g.symbols.filter (!g.isNonTerminal ·)

def rulesFor (g : Grammar) (s : Symbol) : List Rule :=
  g.rules.filter (·.lhs == s)

def withStart (g : Grammar) (s : Symbol) : Grammar :=
  { g with start := s }

def render (g : Grammar) : String :=
  "\x7bsymbols = [" ++ ",".intercalate (g.symbols.map Symbol.name) ++ "] axiom = " ++ g.start.name ++
    " rules = [" ++ ", ".intercalate (g.rules.map Rule.render) ++ "]\x7d"

theorem isNonTerminal_iff {g : Grammar} {s : Symbol} :
    g.isNonTerminal s = true ↔ ∃ r ∈ g.rules, r.lhs = s := by
  simp [isNonTerminal]

theorem mem_rulesFor {g : Grammar} {s : Symbol} {r : Rule} :
    r ∈ g.rulesFor s ↔ r ∈ g.rules ∧ r.lhs = s := by
  simp [rulesFor]

@[simp] theorem isNonTerminal_withStart (g : Grammar) (s t : Symbol) :
    (g.withStart s).isNonTerminal t = g.isNonTerminal t := rfl

end Grammar

end ChartParser
