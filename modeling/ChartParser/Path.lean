/-!
# Paths

A path is a text with steps between slashes. Empty steps say nothing, and
neither does a dot, except as the first step of a relative path; two paths are
the same when they take the same steps. The stem of a path is its last name
without the extension.
-/
namespace ChartParser.Path

inductive Step where
  | root
  | here
  | up
  | into (name : String)
  deriving DecidableEq

def Step.ofPart? (part : List Char) : Option Step :=
  if part = [] ∨ part = ['.'] then none
  else if part = ['.', '.'] then some .up
  else some (.into (.ofList part))

def steps (path : String) : List Step :=
  let parts := path.toList.splitOn '/'
  let first : Option Step :=
    if path.toList.head? = some '/' then some .root
    else if parts.head? = some ['.'] then some .here
    else none
  first.toList ++ parts.filterMap Step.ofPart?

/-- A name up to its last dot; a dot in front starts no extension. -/
def dropExtension (name : List Char) : List Char :=
  match name.reverse.dropWhile (· ≠ '.') with
  | [] | [_] => name
  | _ :: before => before.reverse

/-- The last name on the path without its extension, empty if the path ends in no name. -/
def stem (path : String) : String :=
  match (steps path).getLast? with
  | some (.into name) => .ofList (dropExtension name.toList)
  | _ => ""

end ChartParser.Path
