import ChartParser.Tree
import Std.Data.HashSet

/-!
# Cells

A cell lists the trees found for one span in the order of their discovery,
each once. Beside the list it keeps the set of its trees, so that a repeated
tree is noticed without a search.
-/
namespace ChartParser

structure Cell where
  trees : Array Tree := #[]
  seen : Std.HashSet Tree := ∅
  deriving Inhabited

namespace Cell

def contains (c : Cell) (t : Tree) : Bool := c.seen.contains t

def push (c : Cell) (t : Tree) : Cell :=
  { trees := c.trees.push t, seen := c.seen.insert t }

/-- Appends the tree, unless the cell has it; the flag tells which. -/
def insert (c : Cell) (t : Tree) : Cell × Bool :=
  if c.contains t then (c, false) else (c.push t, true)

/-- Inserts the trees one after the other and counts those that were new. -/
def insertAll : List Tree → Cell → Cell × Nat
  | [], c => (c, 0)
  | t :: ts, c =>
    if c.contains t then insertAll ts c
    else
      let (filled, count) := insertAll ts (c.push t)
      (filled, count + 1)

def toList (c : Cell) : List Tree := c.trees.toList

def size (c : Cell) : Nat := c.trees.size

def isEmpty (c : Cell) : Bool := c.trees.isEmpty

def labeled (c : Cell) (a : Symbol) : List Tree :=
  c.toList.filter (·.label == a)

def hasLabel (c : Cell) (a : Symbol) : Bool :=
  c.trees.any (·.label == a)

/-- The labels of the trees, in order. -/
def render (c : Cell) : String :=
  ", ".intercalate (c.toList.map (·.label.name))

/-- Cells agree when their lists do, order included, and their sets do. -/
instance : BEq Cell where
  beq a b := a.trees == b.trees && a.seen.all b.seen.contains && b.seen.all a.seen.contains

@[simp] theorem toList_push (c : Cell) (t : Tree) : (c.push t).toList = c.toList ++ [t] := by
  simp [push, toList]

@[simp] theorem contains_push (c : Cell) (t u : Tree) :
    (c.push t).contains u = (t == u || c.contains u) := by
  simp [push, contains]

end Cell

end ChartParser
