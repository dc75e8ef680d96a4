import ChartParser.FileFault

/-!
# Looking up files

Files and folders around a working folder, as far as writing and reading by
path goes. A path is walked step by step, and two dots go one step back, so
that one place is reached by many paths. Writing makes the folders that the
walk enters. Reading takes each step from a folder, and the first step that
cannot be taken decides how the look-up fails. A folder can be opened like a
file, but not be read. There are no links, and no more is known to exist than
was written.
-/
namespace ChartParser

/-- The folder that a walk is counted from. -/
inductive Anchor where
  | root
  /-- The folder so many steps above the working folder. -/
  | above (steps : Nat)
  deriving DecidableEq

/-- An anchor and the names on the way down from it. -/
structure Place where
  anchor : Anchor
  names : List String := []
  deriving DecidableEq

namespace Place

/-- The place that a walk along the path begins at. -/
def origin (path : String) : Place :=
  if path.toList.head? = some '/' then ⟨.root, []⟩ else ⟨.above 0, []⟩

/-- The folder that the place lies in. The root lies in itself. -/
def parent (p : Place) : Place :=
  match p.anchor, p.names with
  | .root, [] => p
  | .above n, [] => ⟨.above (n + 1), []⟩
  | anchor, names => ⟨anchor, names.dropLast⟩

def child (p : Place) (name : String) : Place := { p with names := p.names ++ [name] }

/-- The place one step on. An empty step and a single dot lead nowhere else. -/
def move (p : Place) (part : String) : Place :=
  if part = "" ∨ part = "." then p
  else if part = ".." then p.parent
  else p.child part

end Place

structure FileTree where
  folders : List Place := []
  files : List (Place × List UInt8) := []
  deriving Inhabited

namespace FileTree

def partsOf (path : String) : List String :=
  (path.toList.splitOn '/').map String.ofList

/-- Writes a file and makes the folders on its way; of two files at one place the later counts. -/
def write (t : FileTree) (path : String) (bytes : List UInt8) : FileTree :=
  let parts := partsOf path
  let visited := (List.range parts.length).map fun n =>
    (parts.take n).foldl Place.move (.origin path)
  { folders := visited ++ t.folders
    files := (parts.foldl Place.move (.origin path), bytes) :: t.files }

def fileAt? (t : FileTree) (p : Place) : Option (List UInt8) :=
  (t.files.find? (·.1 == p)).map (·.2)

def isFile (t : FileTree) (p : Place) : Bool := (t.fileAt? p).isSome

/-- Anchors are folders, and so is what was made one. -/
def isFolder (t : FileTree) (p : Place) : Bool := p.names.isEmpty || t.folders.contains p

/-- No name of a file or folder is longer than this many bytes. -/
def maxNameBytes : Nat := 255

/-- No path is as long as this many bytes. -/
def maxPathBytes : Nat := 4096

def step (t : FileTree) (p : Place) (part : String) : Except FileFault Place :=
  let next := p.move part
  if t.isFile p then .error .throughFile
  else if maxNameBytes < part.utf8ByteSize then .error .nameTooLong
  else if t.isFile next ∨ t.isFolder next then .ok next
  else .error .missing

/-- Opens what the path leads to and reads it. -/
def reading (t : FileTree) (path : String) : FileReading :=
  if '\x00' ∈ path.toList then .unopened .nulInPath
  else if path = "" then .unopened .missing
  else if maxPathBytes ≤ path.utf8ByteSize then .unopened .nameTooLong
  else
    match (partsOf path).foldlM t.step (.origin path) with
    | .error fault => .unopened fault
    | .ok place =>
      match t.fileAt? place with
      | some bytes => .whole bytes
      | none => .broken .folder

/-- The bytes of the file that the path leads to, or the first failure. -/
def read (t : FileTree) (path : String) : Except FileFault (List UInt8) := (t.reading path).first

/-- Nothing but a folder is opened and cannot be read. -/
theorem eq_folder_of_reading {t : FileTree} {path : String} {cause : FileFault}
    (h : t.reading path = .broken cause) : cause = .folder := by
  unfold reading at h
  repeat' split at h
  all_goals first | exact (FileReading.broken.inj h).symm | cases h

end FileTree

end ChartParser
