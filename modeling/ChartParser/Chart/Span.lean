/-!
# Spans of the input

A span is a half-open interval of token positions. Any two numbers make one,
also in the wrong order; such a span has length zero and no table holds a cell
for it.
-/
namespace ChartParser

structure Span where
  start : Nat
  stop : Nat
  deriving DecidableEq, Hashable, Inhabited

namespace Span

/-- The number of positions, zero for a span whose ends are out of order. -/
def length (s : Span) : Nat := s.stop - s.start

/-- The positions strictly inside, at which the span falls into two non-empty parts. -/
def cuts (s : Span) : List Nat := List.range' (s.start + 1) (s.length - 1)

def render (s : Span) : String :=
  "(" ++ toString s.start ++ ", " ++ toString s.stop ++ ")"

theorem mem_cuts {s : Span} {k : Nat} : k ∈ s.cuts ↔ s.start < k ∧ k < s.stop := by
  simp only [cuts, length, List.mem_range'_1]
  omega

end Span

end ChartParser
