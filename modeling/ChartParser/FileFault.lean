/-!
# Failures to read a file

A failure has a kind, by which it is recognised, and a text, which only tells
more. Two failures of one kind are the same failure. A file is opened before it
is read. When that fails, nothing more is tried; but a file that was opened is
read again after a failure, as long as its end has not been met.
-/
namespace ChartParser

inductive FileFault.Kind where
  | notFound
  | permissionDenied
  | notADirectory
  | isADirectory
  | invalidInput
  | invalidFilename
  | invalidData
  | unexpectedEof
  | other
  deriving DecidableEq

structure FileFault where
  kind : FileFault.Kind
  text : String

namespace FileFault

instance : BEq FileFault where
  beq a b := a.kind == b.kind

/-- What is said of a kind when nothing more is known. -/
def Kind.text : Kind → String
  | notFound => "entity not found"
  | permissionDenied => "permission denied"
  | notADirectory => "not a directory"
  | isADirectory => "is a directory"
  | invalidInput => "invalid input parameter"
  | invalidFilename => "invalid filename"
  | invalidData => "invalid data"
  | unexpectedEof => "unexpected end of file"
  | other => "other error"

def ofKind (kind : Kind) : FileFault := ⟨kind, kind.text⟩

def missing : FileFault := ⟨.notFound, "No such file or directory (os error 2)"⟩

def throughFile : FileFault := ⟨.notADirectory, "Not a directory (os error 20)"⟩

def folder : FileFault := ⟨.isADirectory, "Is a directory (os error 21)"⟩

def forbidden : FileFault := ⟨.permissionDenied, "Permission denied (os error 13)"⟩

def nameTooLong : FileFault := ⟨.invalidFilename, "File name too long (os error 36)"⟩

def nulInPath : FileFault := ⟨.invalidInput, "file name contained an unexpected NUL byte"⟩

def malformedText : FileFault := ⟨.invalidData, "stream did not contain valid UTF-8"⟩

end FileFault

/-- What opening a file and reading it comes to. -/
inductive FileReading where
  | unopened (cause : FileFault)
  /-- All bytes up to the end. -/
  | whole (bytes : List UInt8)
  /-- No attempt to read gives a byte or meets the end, as with a folder. -/
  | broken (cause : FileFault)
  deriving Inhabited

/-- The bytes, or the first failure. -/
def FileReading.first : FileReading → Except FileFault (List UInt8)
  | unopened cause => .error cause
  | whole bytes => .ok bytes
  | broken cause => .error cause

end ChartParser
