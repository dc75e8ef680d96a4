import ChartParser.Path

/-!
# Locations

An error is reported at a line of a file, or at the file as a whole, which is
written as line zero. Locations are compared by the steps of their paths, so
two spellings of one path name one place.
-/
namespace ChartParser

structure Location where
  file : String
  line : Nat := 0

namespace Location

instance : BEq Location where
  beq a b := Path.steps a.file == Path.steps b.file && a.line == b.line

def render (l : Location) : String :=
  if l.line = 0 then l.file else l.file ++ ":" ++ toString l.line

end Location

/-- A cause of failure and the place it is reported at. -/
structure Located (ε : Type) where
  location : Location
  cause : ε
  deriving BEq

/-- The report for a terminal, the place in red. -/
def Located.render {ε : Type} [ToString ε] (e : Located ε) : String :=
  "\x1b[31;49;1m[" ++ e.location.render ++ "]\x1b[39;49;1m  " ++ toString e.cause ++ "\x1b[0m"

end ChartParser
