import ChartParser.Grammar
import ChartParser.Chart.Span

/-!
# Events worth logging

What the library has to say while it works is a value: each event knows its
level, the part of the program that it belongs to and its text. Where and when
events are written is left to the command line.
-/
namespace ChartParser

inductive Level where
  | trace
  | debug
  | info
  | warn
  deriving DecidableEq

namespace Level

def name : Level → String
  | trace => "TRACE"
  | debug => "DEBUG"
  | info => "INFO"
  | warn => "WARN"

/-- Warnings always show; each step of verbosity shows one level more. -/
def shownAt (verbosity : Nat) : Level → Bool
  | warn => true
  | info => 1 ≤ verbosity
  | debug => 2 ≤ verbosity
  | trace => 3 ≤ verbosity

end Level

inductive Event where
  /-- A grammar file was read without errors. -/
  | grammarLoaded (grammar : Grammar)
  /-- The grammar of this run, its start symbol settled. -/
  | grammarChosen (grammar : Grammar)
  /-- The start symbol heads no rule. -/
  | startUndefined (start : Symbol)
  /-- No one-symbol rule has this token on its right. -/
  | tokenUnmatched (token : String) (position : Nat) (grammar : String)
  /-- A cell above the diagonal gained trees. -/
  | treesFound (span : Span) (count : Nat)
  /-- A table was filled; the trees on its diagonal are not counted. -/
  | tableBuilt (tokens : Nat) (grammar : String) (trees : Nat)
  deriving DecidableEq

namespace Event

def level : Event → Level
  | grammarLoaded _ => .debug
  | grammarChosen _ => .info
  | startUndefined _ => .warn
  | tokenUnmatched .. => .warn
  | treesFound .. => .trace
  | tableBuilt .. => .debug

/-- The part of the program that speaks. -/
def target : Event → String
  | grammarLoaded _ => "chomsky::bnf"
  | grammarChosen _ | startUndefined _ => "cyk"
  | tokenUnmatched .. | treesFound .. | tableBuilt .. => "chomsky::cyk"

def message : Event → String
  | grammarLoaded g =>
    "Loaded grammar " ++ g.name ++ " with " ++ toString g.rules.length ++ " rules over " ++
      toString g.symbols.length ++ " symbols"
  | grammarChosen g => g.render
  | startUndefined s => "Axiom `" ++ s.name ++ "` has no rule, every word will be rejected"
  | tokenUnmatched token position grammar =>
    "Token `" ++ token ++ "` at position " ++ toString position ++ " matches no terminal of " ++
      grammar
  | treesFound span count => span.render ++ ": " ++ toString count ++ " new trees"
  | tableBuilt tokens grammar trees =>
    "Built table for " ++ toString tokens ++ " tokens over " ++ grammar ++ ", " ++
      toString trees ++ " trees above the diagonal"

/-- Level and text on one line. -/
def render (e : Event) : String := e.level.name ++ " " ++ e.message

end Event

end ChartParser
