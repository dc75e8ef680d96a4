import ChartParser.Text.Blank

/-!
# Command-line options

The arguments name a grammar file, then words to parse, with options anywhere
between them until a double dash. An option that takes a value is completed
only when the next argument is looked at: until then a fault in its value is
outstanding, and an argument that cannot be understood at all comes first.
-/
namespace ChartParser

structure Options where
  file : String
  words : List String := []
  /-- A start symbol in place of the one that the file begins with. -/
  start? : Option String := none
  wordsAreTokens : Bool := false
  /-- How many words to generate and parse besides. -/
  generate? : Option Nat := none
  maxDepth : Nat := 6
  table : Bool := false
  pretty : Bool := false
  verbosity : Nat := 0
  deriving DecidableEq

namespace Options

/-- A word as tokens: its characters, or what blanks separate. -/
def tokens (o : Options) (word : String) : List String :=
  if o.wordsAreTokens then (Text.words word.toList).map String.ofList
  else word.toList.map String.singleton

/-- Tokens as one word, such that reading them back is possible where it can be. -/
def join (o : Options) (tokens : List String) : String :=
  (if o.wordsAreTokens then " " else "").intercalate tokens

end Options

/-- The reasons for which arguments give no options. -/
inductive Stop where
  | help
  | version
  | missingFile
  | unknownSwitch
  | repeatedSwitch
  /-- An option at whose end a value should have stood, or an empty file name. -/
  | missingValue
  | invalidValue
  /-- A value for an option that takes none. -/
  | unexpectedValue
  deriving DecidableEq

namespace CommandLine

/-- The options that take a value. -/
inductive Setting where
  | start
  | generate
  | maxDepth
  deriving DecidableEq

/-- The options that take none. -/
inductive Flag where
  | wordsAreTokens
  | table
  | pretty
  | verbose
  | help
  | version
  deriving DecidableEq

inductive Switch where
  | setting (s : Setting)
  | flag (f : Flag)
  deriving DecidableEq

def Switch.ofLetter? : Char → Option Switch
  | 'a' => some (.setting .start)
  | 'n' => some (.setting .generate)
  | 'w' => some (.flag .wordsAreTokens)
  | 't' => some (.flag .table)
  | 'p' => some (.flag .pretty)
  | 'v' => some (.flag .verbose)
  | 'h' => some (.flag .help)
  | 'V' => some (.flag .version)
  | _ => none

def Switch.ofName? : String → Option Switch
  | "axiom" => some (.setting .start)
  | "generate" => some (.setting .generate)
  | "max-depth" => some (.setting .maxDepth)
  | "words-are-tokens" => some (.flag .wordsAreTokens)
  | "table" => some (.flag .table)
  | "pretty" => some (.flag .pretty)
  | "verbose" => some (.flag .verbose)
  | "help" => some (.flag .help)
  | "version" => some (.flag .version)
  | _ => none

/-- A number in decimal digits, of which there is at least one. -/
def readDigits (cs : List Char) : Option Nat :=
  if cs ≠ [] ∧ cs.all Char.isDigit then
    some (cs.foldl (fun n c => 10 * n + (c.toNat - '0'.toNat)) 0)
  else none

/-- An amount may have a sign, as long as it is not negative, and fits into 32 bits. -/
def readAmount (text : String) : Option Nat :=
  let number :=
    match text.toList with
    | '+' :: digits => readDigits digits
    | '-' :: digits => (readDigits digits).filter (· == 0)
    | digits => readDigits digits
  number.filter (· < UInt32.size)

/-- A depth may have a plus in front and fits into 64 bits. -/
def readDepth (text : String) : Option Nat :=
  let number :=
    match text.toList with
    | '+' :: digits => readDigits digits
    | digits => readDigits digits
  number.filter (· < UInt64.size)

/-- Options of which some are not given yet. -/
structure Draft where
  file? : Option String := none
  words : List String := []
  start? : Option String := none
  wordsAreTokens : Bool := false
  generate? : Option Nat := none
  maxDepth? : Option Nat := none
  table : Bool := false
  pretty : Bool := false
  verbosity : Nat := 0

namespace Draft

/-- The counter of verbosity stops here. -/
def maxVerbosity : Nat := 255

def raise (d : Draft) : Flag → Except Stop Draft
  | .wordsAreTokens =>
    if d.wordsAreTokens then .error .repeatedSwitch else .ok { d with wordsAreTokens := true }
  | .table => if d.table then .error .repeatedSwitch else .ok { d with table := true }
  | .pretty => if d.pretty then .error .repeatedSwitch else .ok { d with pretty := true }
  | .verbose => .ok { d with verbosity := min (d.verbosity + 1) maxVerbosity }
  | .help => .error .help
  | .version => .error .version

/-- The setting has a value already. -/
def has (d : Draft) : Setting → Bool
  | .start => d.start?.isSome
  | .generate => d.generate?.isSome
  | .maxDepth => d.maxDepth?.isSome

def assign (d : Draft) (s : Setting) (value : String) : Except Stop Draft :=
  match s with
  | .start => .ok { d with start? := some value }
  | .generate =>
    match readAmount value with
    | some amount => .ok { d with generate? := some amount }
    | none => .error .invalidValue
  | .maxDepth =>
    match readDepth value with
    | some depth => .ok { d with maxDepth? := some depth }
    | none => .error .invalidValue

/-- Completes a setting: it needs a value, may be given once, and its value must be legible. -/
def give (d : Draft) (s : Setting) : Option String → Except Stop Draft
  | none => .error .missingValue
  | some value => if d.has s then .error .repeatedSwitch else d.assign s value

def nameFile (d : Draft) (name : String) : Except Stop Draft :=
  if name = "" then .error .missingValue else .ok { d with file? := some name }

def finish (d : Draft) : Except Stop Options :=
  match d.file? with
  | none => .error .missingFile
  | some file =>
    let depth := d.maxDepth?.getD 6
    .ok { d with file, maxDepth := depth }

end Draft

/-- An argument that was read but not completed. -/
inductive Pending where
  | nothing
  | setting (s : Setting) (value? : Option String)
  | file (name : String)

structure Scan where
  draft : Draft := {}
  pending : Pending := .nothing

namespace Scan

/-- Completes what is pending. -/
def settle (s : Scan) : Except Stop Draft :=
  match s.pending with
  | .nothing => .ok s.draft
  | .setting setting value? => s.draft.give setting value?
  | .file name => s.draft.nameFile name

def raise (s : Scan) (f : Flag) : Except Stop Scan := do
  return { draft := ← (← s.settle).raise f }

/-- Takes a setting whose value stands in the same argument. -/
def attach (s : Scan) (setting : Setting) (value : String) : Except Stop Scan := do
  return { draft := ← (← s.settle).give setting (some value) }

/-- Takes a setting whose value should be the next argument. -/
def await (s : Scan) (setting : Setting) : Except Stop Scan := do
  return { draft := ← s.settle, pending := .setting setting none }

/-- Takes an argument that is no option: the file name first, then words. -/
def word (s : Scan) (text : String) : Except Stop Scan := do
  let draft ← s.settle
  match draft.file? with
  | none => return { draft, pending := .file text }
  | some _ => return { draft := { draft with words := draft.words ++ [text] } }

/-- Takes the letters after a single dash; a setting takes the rest of them as its value. -/
def letters (s : Scan) : List Char → Except Stop Scan
  | [] => .ok s
  | c :: rest =>
    match Switch.ofLetter? c with
    | none => .error .unknownSwitch
    | some (.flag f) =>
      match s.raise f with
      | .error stop => .error stop
      | .ok s => s.letters rest
    | some (.setting setting) =>
      match rest with
      | [] => s.await setting
      | '=' :: value => s.attach setting (.ofList value)
      | value => s.attach setting (.ofList value)

/-- Takes the name after a double dash, with the value after an equals sign if there is one. -/
def long (s : Scan) (text : List Char) : Except Stop Scan :=
  let name := String.ofList (text.takeWhile (· ≠ '='))
  match Switch.ofName? name, text.dropWhile (· ≠ '=') with
  | none, _ => .error .unknownSwitch
  | some (.flag f), [] => s.raise f
  | some (.flag _), _ => .error .unexpectedValue
  | some (.setting setting), [] => s.await setting
  | some (.setting setting), _ :: value => s.attach setting (.ofList value)

/-- Takes one argument. A dash by itself is no option. -/
def argument (s : Scan) (text : String) : Except Stop Scan :=
  match text.toList with
  | '-' :: '-' :: name => s.long name
  | '-' :: c :: rest => s.letters (c :: rest)
  | _ =>
    match s.pending with
    | .setting setting none => .ok { s with pending := .setting setting (some text) }
    | _ => s.word text

/-- Takes all arguments; after a double dash none of them is an option. -/
def arguments : List String → Scan → Except Stop Draft
  | [], s => s.settle
  | text :: rest, s =>
    if text = "--" then
      match rest.foldlM word s with
      | .error stop => .error stop
      | .ok s => s.settle
    else
      match s.argument text with
      | .error stop => .error stop
      | .ok s => arguments rest s

end Scan

end CommandLine

/-- The options that the arguments after the program's name give. -/
def Options.ofArguments (arguments : List String) : Except Stop Options :=
  match CommandLine.Scan.arguments arguments {} with
  | .error stop => .error stop
  | .ok draft => draft.finish

end ChartParser
