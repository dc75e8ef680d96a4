import ChartParser.GrammarFile.Fault
import ChartParser.Text.Blank

/-!
# Tokens of a grammar line

A line is a sequence of equals signs, bars, bare names and quoted texts, with
blanks between them where one likes and a comment from a semicolon to the end.
Within quotes every character but the quote stands for itself. The only way
for a line to fail here is a quote that is never closed.
-/
namespace ChartParser.GrammarFile

inductive Token where
  | equals
  | bar
  | name (text : String)
  | quoted (text : String)
  deriving DecidableEq

namespace Token

/-- The characters at which a bare name stops. -/
def endsName (c : Char) : Bool :=
  Text.isBlank c || c == '=' || c == '|' || c == '"' || c == ';'

/-- Reads a quoted text up to its closing quote. The first character is taken for the
opening quote, whatever it is. -/
def readQuoted (cs : List Char) : Except Fault Token × List Char :=
  let body := cs.tail
  match body.dropWhile (· ≠ '"') with
  | [] => (.error .unmatchedQuote, [])
  | _ :: rest => (.ok (.quoted (.ofList (body.takeWhile (· ≠ '"')))), rest)

/-- Reads a bare name up to the next character that ends one. -/
def readName (cs : List Char) : Token × List Char :=
  (.name (.ofList (cs.takeWhile (!endsName ·))), cs.dropWhile (!endsName ·))

theorem length_dropWhile_le (p : Char → Bool) (cs : List Char) :
    (cs.dropWhile p).length ≤ cs.length :=
  (List.dropWhile_sublist p).length_le

theorem length_readQuoted (c : Char) (cs : List Char) :
    (readQuoted (c :: cs)).2.length ≤ cs.length := by
  have h := length_dropWhile_le (· ≠ '"') cs
  simp only [readQuoted, List.tail_cons]
  split
  · simp
  · next rest hrest =>
    simp only [hrest, List.length_cons] at h
    dsimp only
    omega

theorem length_readName {c : Char} (cs : List Char) (h : endsName c = false) :
    (readName (c :: cs)).2.length ≤ cs.length := by
  simpa [readName, h] using length_dropWhile_le (!endsName ·) cs

/-- The tokens of a line. -/
def lex : List Char → Except Fault (List Token)
  | [] => .ok []
  | c :: cs =>
    if c = '=' then (lex cs).map (.equals :: ·)
    else if c = '|' then (lex cs).map (.bar :: ·)
    else if c = '"' then
      match (readQuoted (c :: cs)).1 with
      | .error fault => .error fault
      | .ok token => (lex (readQuoted (c :: cs)).2).map (token :: ·)
    else if c = ';' then .ok []
    else if Text.isBlank c then lex cs
    else (lex (readName (c :: cs)).2).map ((readName (c :: cs)).1 :: ·)
termination_by cs => cs.length
decreasing_by
  all_goals simp only [List.length_cons]
  · omega
  · omega
  · have := length_readQuoted c cs
    omega
  · omega
  · have := length_readName (c := c) cs (by simp_all [endsName])
    omega

end Token

end ChartParser.GrammarFile
