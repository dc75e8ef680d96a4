import ChartParser.GrammarFile.RuleLine
import ChartParser.Log
import ChartParser.Text.Lines

/-!
# Loading a grammar file

A file is refused at the first of three stages that finds anything wrong, with
everything that this stage finds: lines that cannot be read or are no rules,
names used against their definitions, and the absence of any rule. A file that
passes becomes a grammar whose rules are the alternatives in the order of the
file, whose start symbol is the first name defined, and whose vocabulary is
ordered by first appearance. Nothing is said of a file before its end has been
met, so that a file without an end is read for ever.
-/
namespace ChartParser.GrammarFile

abbrev LoadError := Located Fault

/-- A physical line, unless its text could not be read. -/
abbrev Line := Except FileFault (List Char)

/-- The first character that is no blank exists and opens no comment. -/
def mayHoldRule (text : List Char) : Bool :=
  match text.dropWhile Text.isBlank with
  | [] => false
  | c :: _ => c ≠ ';'

/-- The rule on the line of the given number, none on blank lines and comments. -/
def readLine (path : String) (number : Nat) : Line → Except LoadError (Option RuleLine)
  | .error cause => .error ⟨{ file := path }, .unreadable cause⟩
  | .ok text =>
    if mayHoldRule text then
      (RuleLine.ofText number text).mapError (⟨⟨path, number⟩, ·⟩)
    else .ok none

def readLines (path : String) (lines : List Line) : List (Except LoadError (Option RuleLine)) :=
  (lines.zipIdx 1).map fun (line, number) => readLine path number line

/-- The rule lines, unless a line failed; then the failures of all lines that did. -/
def collect {ε α : Type} (results : List (Except ε (Option α))) : Except (List ε) (List α) :=
  match results.filterMap (fun | .error e => some e | .ok _ => none) with
  | [] => .ok (results.filterMap fun | .ok r => r | .error _ => none)
  | errors => .error errors

/-- A bare name must be defined somewhere in the file, and a quoted one must not. -/
def itemFault? (defined : List String) : Item → Option Fault
  | .bare name => if name ∈ defined then none else some (.undefinedNonTerminal name)
  | .quoted name => if name ∈ defined then some (.ambiguousSymbol name) else none

/-- The misused names of all lines, in the order of writing. -/
def misuses (path : String) (lines : List RuleLine) : List LoadError :=
  let defined := lines.map RuleLine.head
  lines.flatMap fun l =>
    (l.alternatives.flatten.filterMap (itemFault? defined)).map (⟨⟨path, l.number⟩, ·⟩)

/-- The grammar of rule lines that use their names well. -/
def assemble (path : String) (start : String) (lines : List RuleLine) : Grammar where
  name := Path.stem path
  symbols := (lines.flatMap RuleLine.names).eraseDups.map Symbol.mk
  start := ⟨start⟩
  rules := lines.flatMap RuleLine.rules

def ofRuleLines (path : String) (lines : List RuleLine) : Except (List LoadError) Grammar :=
  match misuses path lines, lines with
  | [], [] => .error [⟨{ file := path }, .noRules⟩]
  | [], first :: _ => .ok (assemble path first.head lines)
  | errors, _ => .error errors

def ofLines (path : String) (lines : List Line) : Except (List LoadError) Grammar :=
  match collect (readLines path lines) with
  | .error errors => .error errors
  | .ok ruleLines => ofRuleLines path ruleLines

/-- The grammar written in a text; the path gives it its name and places its errors. -/
def ofText (path text : String) : Except (List LoadError) Grammar :=
  ofLines path ((Text.lines '\n' '\r' text.toList).map .ok)

/-- A line of bytes as text, if the bytes are well-formed. -/
def decodeLine (bytes : List UInt8) : Line :=
  match String.fromUTF8? ⟨bytes.toArray⟩ with
  | some text => .ok text.toList
  | none => .error .malformedText

/-- The grammar written in bytes; lines are found before they are decoded. -/
def ofBytes (path : String) (bytes : List UInt8) : Except (List LoadError) Grammar :=
  ofLines path ((Text.lines 10 13 bytes).map decodeLine)

/-- The grammar in a file that was read to its end, or the reason why it was not opened. -/
def ofRead (path : String) : Except FileFault (List UInt8) → Except (List LoadError) Grammar
  | .error cause => .error [⟨{ file := path }, .unreadable cause⟩]
  | .ok bytes => ofBytes path bytes

/-- A file that was opened, as far as it has not been read: the lines that are left, or a failure
that every attempt to read meets. -/
inductive Source where
  | lines (rest : List (List UInt8))
  | broken (cause : FileFault)

namespace Source

/-- Opens a file. -/
def ofReading : FileReading → Except FileFault Source
  | .unopened cause => .error cause
  | .whole bytes => .ok (lines (Text.lines 10 13 bytes))
  | .broken cause => .ok (broken cause)

/-- The next line, none at the end. A failure takes the place of a line, and no end is met by it. -/
def next? : Source → Option (Line × Source)
  | lines [] => none
  | lines (line :: rest) => some (decodeLine line, lines rest)
  | broken cause => some (.error cause, broken cause)

/-- One line after the other up to the end, none if no end is ever met. -/
def drain : Source → Option (List Line)
  | lines rest => some (rest.map decodeLine)
  | broken _ => none

end Source

/-- The grammar in a file, or what is wrong with it; none if reading never ends. -/
def ofFile (path : String) (file : FileReading) : Option (Except (List LoadError) Grammar) :=
  match Source.ofReading file with
  | .error cause => some (.error [⟨{ file := path }, .unreadable cause⟩])
  | .ok source => source.drain.map (ofLines path)

/-- What loading has to log: nothing unless it succeeded. -/
def events : Except (List LoadError) Grammar → List Event
  | .ok g => [.grammarLoaded g]
  | .error _ => []

end ChartParser.GrammarFile
