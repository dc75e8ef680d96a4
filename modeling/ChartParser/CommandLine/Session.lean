import ChartParser.Chart.Parse
import ChartParser.CommandLine.Options
import ChartParser.Generator.Generate
import ChartParser.GrammarFile.Load

/-!
# A session

What the program does with its options, as a value. A session may fail before
any word is parsed, and then has nothing to show but its reports. Otherwise the
words are parsed one after the other, those of the command line first and the
generated ones after them. Each has a block, whose first line is written before
the word is parsed; a word that cannot be parsed ends the session there. A
session whose grammar file is read for ever never ends.
-/
namespace ChartParser

/-- A line for the error stream. -/
inductive Diagnostic where
  | event (e : Event)
  | report (text : String)

/-- A word and its verdict. -/
structure Block where
  word : String
  outcome : Outcome

structure Session where
  status : Nat
  grammar : String
  blocks : List Block
  /-- The word that ended the session; of its block there is only the first line. -/
  stoppedAt? : Option String := none
  diagnostics : List Diagnostic

namespace Block

/-- The first line of a block. -/
def headline (word grammar : String) : String :=
  "--- \"" ++ word ++ "\" - " ++ grammar ++ " ---"

/-- The trees of a word, one after the other, in the form that was asked for. -/
def treeLines (o : Options) (b : Block) : List String :=
  b.outcome.trees.map fun t => if o.pretty then t.pretty else t.render

def lines (o : Options) (grammar : String) (b : Block) : List String :=
  [headline b.word grammar] ++
    (if o.table then ["Analysis table :", b.outcome.table.render] else []) ++
    (if b.outcome.accepted then "The word is generated by the grammar" :: b.treeLines o
      else ["The word is NOT generated by the grammar"]) ++
    [""]

def render (o : Options) (grammar : String) (b : Block) : String :=
  String.join ((b.lines o grammar).map (· ++ "\n"))

end Block

namespace Diagnostic

/-- Further lines of a message are moved to the right. -/
def indentLines (text : String) : String :=
  .ofList (text.toList.flatMap fun c => if c = '\n' then "\n    ".toList else [c])

/-- An event under the time of its writing, its level padded to five columns. -/
def logLine (time : String) (e : Event) : String :=
  "[" ++ time ++ " " ++ .ofList (e.level.name.toList.rightpad 5 ' ') ++ " " ++ e.target ++ "] " ++
    indentLines e.message

/-- The line to write, none for an event that the verbosity hides. -/
def line? (o : Options) (time : String) : Diagnostic → Option String
  | report text => some text
  | event e => if e.level.shownAt o.verbosity then some (logLine time e) else none

end Diagnostic

namespace Session

/-- The words to parse with their tokens: those given, then those generated. -/
def words {σ : Type} (c : Chooser σ) (o : Options) (g : Grammar) (state : σ) :
    Except GenerationFault (List (String × List String)) :=
  (g.generateMany c o.maxDepth (o.generate?.getD 0) state).map fun (generated, _) =>
    o.words.map (fun word => (word, o.tokens word)) ++
      generated.map (fun tokens => (o.join tokens, tokens))

/-- The loaded grammar with the start symbol that the options ask for. -/
def chooseStart (o : Options) (g : Grammar) : Grammar :=
  match o.start? with
  | some start => g.withStart ⟨start⟩
  | none => g

def startEvents (g : Grammar) : List Event :=
  .grammarChosen g :: if g.isNonTerminal g.start then [] else [.startUndefined g.start]

def failed (diagnostics : List Diagnostic) : Session :=
  { status := 1, grammar := "", blocks := [], diagnostics }

/-- The blocks of words that are parsed one after the other, and the first word that cannot be
parsed with the reason, if there is one. -/
def parseAll (g : Grammar) :
    List (String × List String) → List Block × Option (String × NotNormalForm)
  | [] => ([], none)
  | (word, tokens) :: rest =>
    match g.parse tokens with
    | .error violation => ([], some (word, violation))
    | .ok outcome =>
      let (blocks, stopped?) := parseAll g rest
      (⟨word, outcome⟩ :: blocks, stopped?)

/-- The session of the given options once the grammar file has been loaded. -/
def ofLoaded {σ : Type} (c : Chooser σ) (o : Options)
    (loaded : Except (List GrammarFile.LoadError) Grammar) (state : σ) : Session :=
  let here : Location := { file := o.file }
  let loading := (GrammarFile.events loaded).map Diagnostic.event
  match loaded with
  | .error errors => failed (loading ++ errors.map fun e => .report e.render)
  | .ok g =>
    let g := chooseStart o g
    let starting := loading ++ (startEvents g).map .event
    match g.firstViolation? with
    | some violation =>
      failed (starting ++ [.report (Located.render ⟨here, violation⟩)])
    | none =>
      match words c o g state with
      | .error fault => failed (starting ++ [.report (Located.render ⟨here, fault⟩)])
      | .ok words =>
        let (blocks, stopped?) := parseAll g words
        let parsing := starting ++ blocks.flatMap (·.outcome.log.map .event)
        match stopped? with
        | some (word, violation) =>
          { status := 1, grammar := g.name, blocks, stoppedAt? := some word
            diagnostics := parsing ++ [.report (Located.render ⟨here, violation⟩)] }
        | none => { status := 0, grammar := g.name, blocks, diagnostics := parsing }

/-- The session with a grammar file that was read to its end or could not be opened. -/
def run {σ : Type} (c : Chooser σ) (o : Options) (read : Except FileFault (List UInt8))
    (state : σ) : Session :=
  ofLoaded c o (GrammarFile.ofRead o.file read) state

/-- The session with whatever file the options name, none if it never ends. -/
def runOn {σ : Type} (c : Chooser σ) (o : Options) (file : FileReading) (state : σ) :
    Option Session :=
  (GrammarFile.ofFile o.file file).map fun loaded => ofLoaded c o loaded state

/-- The text for the output stream. -/
def output (o : Options) (s : Session) : String :=
  String.join (s.blocks.map (Block.render o s.grammar)) ++
    match s.stoppedAt? with
    | some word => Block.headline word s.grammar ++ "\n"
    | none => ""

/-- The text for the error stream, every event under the given time. -/
def errors (o : Options) (time : String) (s : Session) : String :=
  String.join ((s.diagnostics.filterMap (Diagnostic.line? o time)).map (· ++ "\n"))

end Session

namespace Stop

def helpText : String :=
  String.join <| List.map (· ++ "\n") [
    "Decides membership in a grammar in Chomsky Normal Form " ++
      "and prints the derivation trees",
    "",
    "Usage: cyk [OPTIONS] <FILE> [WORDS]...",
    "",
    "Arguments:",
    "  <FILE>      File containing the grammar",
    "  [WORDS]...  Words to parse",
    "",
    "Options:",
    "  -a, --axiom <SYMBOL>     Start symbol (default: first in the file)",
    "  -w, --words-are-tokens   Split words on whitespace instead" ++
      " of into single characters",
    "  -n, --generate <AMOUNT>  Also parse this many randomly generated words",
    "      --max-depth <DEPTH>  Depth after which generated words" ++
      " are closed off as soon as possible [default: 6]",
    "  -t, --table              Print the parse table of each word",
    "  -p, --pretty             Print trees indented over several lines",
    "  -v, --verbose...         More logging (repeat for more)",
    "  -h, --help               Print help",
    "  -V, --version            Print version"]

/-- Asking for help or the version is no failure. -/
def status : Stop → Nat
  | help | version => 0
  | _ => 2

/-- The text for the output stream. -/
def output : Stop → String
  | help => helpText
  | version => "cyk 0.1.0\n"
  | _ => ""

/-- What is wrong with the arguments, for the error stream. -/
def complaint : Stop → String
  | help | version => ""
  | missingFile => "error: the file containing the grammar was not provided\n"
  | unknownSwitch => "error: unexpected argument found\n"
  | repeatedSwitch => "error: an argument cannot be used multiple times\n"
  | missingValue => "error: a value is required but none was supplied\n"
  | invalidValue => "error: invalid value for an argument\n"
  | unexpectedValue => "error: unexpected value for an argument that takes none\n"

end Stop

end ChartParser
