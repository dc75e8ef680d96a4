import ChartParser.CommandLine.Session
import Std.Time.Format

/-!
# The program

Reads the grammar file, draws a seed, runs the session and writes its two
streams. All else is decided by the session.
-/
namespace ChartParser

/-- Some calls report the number of an error and some its negation. -/
def errorNumber (code : UInt32) : UInt32 :=
  if code < 0x80000000 then code else 0 - code

/-- A failure of the operating system as a failure to read a file. -/
def FileFault.ofError : IO.Error → FileFault
  | .noFileOrDirectory .. => .missing
  | .permissionDenied .. => .forbidden
  | .inappropriateType _ code _ => if errorNumber code = 20 then .throughFile else .folder
  | .invalidArgument _ code detail =>
    if errorNumber code = 36 then .nameTooLong else ⟨.invalidInput, detail⟩
  | .unexpectedEof => .ofKind .unexpectedEof
  | e => ⟨.other, toString e⟩

def readGrammarFile (path : String) : IO FileReading := do
  if '\x00' ∈ path.toList then return .unopened .nulInPath
  match ← (IO.FS.Handle.mk path .read).toBaseIO with
  | .error e => return .unopened (.ofError e)
  | .ok file =>
    match ← file.readBinToEnd.toBaseIO with
    | .error e => return .broken (.ofError e)
    | .ok bytes => return .whole bytes.toList

/-- The present second in coordinated universal time. -/
def timestamp : IO String := do
  let time ← Std.Time.Timestamp.now
  return (Std.Time.DateTime.ofTimestamp time Std.Time.TimeZone.ZoneRules.UTC).format
    "uuuu-MM-dd'T'HH:mm:ss'Z'"

def randomSource : IO RandomSource := do
  let bytes ← IO.getRandomBytes 8
  return { script := [], state := bytes.toList.foldl (fun n b => n * 256 + b.toUInt64) 0 }

end ChartParser

open ChartParser in
def main (arguments : List String) : IO UInt32 := do
  match Options.ofArguments arguments with
  | .error stop =>
    IO.print stop.output
    IO.eprint stop.complaint
    return stop.status.toUInt32
  | .ok o =>
    match Session.runOn RandomSource.chooser o (← readGrammarFile o.file) (← randomSource) with
    | some session =>
      IO.eprint (session.errors o (← timestamp))
      IO.print (session.output o)
      return session.status.toUInt32
    | none =>
      -- Nothing is written while the file is read for ever.
      repeat IO.sleep 1000
      return 1
