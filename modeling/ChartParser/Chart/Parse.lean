import ChartParser.Grammar.NormalForm
import ChartParser.Chart.Table
import ChartParser.Log

/-!
# Parsing

The table of a word is filled from the bottom. Its diagonal takes the
one-symbol rules that match a token; every longer span then takes the binary
rules over the trees of its two parts, shorter spans first. A word is accepted
when the topmost cell has a tree with the start symbol, and those trees are
its parses. Only `parse` asks for the normal form; the steps before it take
any grammar and leave rules of other shapes aside.
-/
namespace ChartParser

namespace Grammar

/-- The trees of a single token, one for each rule that has it on its right. -/
def tokenTrees (g : Grammar) (token : String) : List Tree :=
  g.rules.filterMap fun r =>
    r.single?.bind fun a => if a.name = token then some (.unary r.lhs (.leaf a)) else none

/-- Tokens from the given position on, each put into its cell on the diagonal. -/
def seedFrom (g : Grammar) : Nat → List String → Table → Table × List Event
  | _, [], T => (T, [])
  | i, token :: tokens, T =>
    let found := g.tokenTrees token
    let (seeded, log) := g.seedFrom (i + 1) tokens (T.insertAll ⟨i, i + 1⟩ found).1
    (seeded, if found.isEmpty then .tokenUnmatched token i g.name :: log else log)

/-- The table of a word with only its diagonal filled. -/
def seed (g : Grammar) (tokens : List String) : Table × List Event :=
  g.seedFrom 0 tokens (.empty tokens.length)

/-- The trees that binary rules make of a left and a right part. -/
def combine (g : Grammar) (left right : List Tree) : List Tree :=
  g.rules.flatMap fun r =>
    match r.pair? with
    | some (b, c) =>
      let rights := right.filter (·.label == c)
      (left.filter (·.label == b)).flatMap fun l => rights.map (.binary r.lhs l ·)
    | none => []

end Grammar

namespace Table

/-- What binary rules make of the parts of a span, by cut, rule, left and right tree. -/
def combinations (g : Grammar) (T : Table) (s : Span) : List Tree :=
  s.cuts.flatMap fun k => g.combine (T.treesAt ⟨s.start, k⟩) (T.treesAt ⟨k, s.stop⟩)

/-- The spans longer than one token, shorter ones first and each length from left to right. -/
def fillOrder (n : Nat) : List Span :=
  (List.range' 2 (n - 1)).flatMap fun l => (List.range (n + 1 - l)).map fun i => ⟨i, i + l⟩

/-- A table after some of its cells were filled. -/
structure Filled where
  table : Table
  /-- How many trees are new. -/
  added : Nat
  log : List Event

def fillSpans (g : Grammar) : List Span → Table → Filled
  | [], T => ⟨T, 0, []⟩
  | s :: rest, T =>
    let (T, count) := T.insertAll s (T.combinations g s)
    let filled := fillSpans g rest T
    { filled with
      added := count + filled.added
      log := if 0 < count then .treesFound s count :: filled.log else filled.log }

/-- Adds to every cell what binary rules make of the cells below it. -/
def fill (g : Grammar) (T : Table) : Filled :=
  fillSpans g (fillOrder T.size) T

/-- The start symbol labels a tree of the topmost cell. -/
def accepts (g : Grammar) (T : Table) : Bool :=
  T.top?.any (·.hasLabel g.start)

/-- The trees of the topmost cell that the start symbol labels. -/
def parses (g : Grammar) (T : Table) : List Tree :=
  match T.top? with
  | some c => c.labeled g.start
  | none => []

end Table

namespace Grammar

/-- The table of a word, provided that the grammar is in normal form. -/
def chart (g : Grammar) (tokens : List String) : Except NotNormalForm (Table × List Event) :=
  match g.firstViolation? with
  | some violation => .error violation
  | none =>
    let (seeded, warnings) := g.seed tokens
    let filled := seeded.fill g
    .ok (filled.table,
      warnings ++ filled.log ++ [.tableBuilt tokens.length g.name filled.added])

end Grammar

/-- The verdict on a word. -/
structure Outcome where
  accepted : Bool
  table : Table
  /-- Every derivation of the whole word from the start symbol. -/
  trees : List Tree
  log : List Event

/-- Parses a word that was cut into tokens. -/
def Grammar.parse (g : Grammar) (tokens : List String) : Except NotNormalForm Outcome :=
  (g.chart tokens).map fun (table, log) =>
    let accepted := table.accepts g
    { accepted, table, trees := if accepted then table.parses g else [], log }

end ChartParser
