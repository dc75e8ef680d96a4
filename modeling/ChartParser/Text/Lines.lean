/-!
# Lines

A line ends with a feed, and a return just before the feed is part of that
end. What follows the last feed is one more line unless it is empty; since no
feed ends it, it keeps its return. The rule is the same for characters and for
bytes, so it is stated for any type of unit.
-/
namespace ChartParser.Text

variable {α : Type} [DecidableEq α]

/-- The list without a return at its end. -/
def dropReturn (ret : α) (line : List α) : List α :=
  if line.getLast? = some ret then line.dropLast else line

def lines (feed ret : α) (units : List α) : List (List α) :=
  let pieces := units.splitOn feed
  pieces.dropLast.map (dropReturn ret) ++ pieces.getLast?.toList.filter (!·.isEmpty)

end ChartParser.Text
