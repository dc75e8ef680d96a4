import ChartParser.Grammar

/-!
# Parse trees

The trees of a grammar in normal form: a terminal, a non-terminal over one
terminal, or a non-terminal over two subtrees. The type does not insist on
that reading, so any label may stand anywhere. A tree has two printed forms, a
bracketed one on a single line and an indented one with a line per node.
-/
namespace ChartParser

inductive Tree where
  | leaf (label : Symbol)
  | unary (label : Symbol) (child : Tree)
  | binary (label : Symbol) (left right : Tree)
  deriving DecidableEq, Hashable, Inhabited

namespace Tree

def label : Tree → Symbol
  | leaf a | unary a _ | binary a _ _ => a

def children : Tree → List Tree
  | leaf _ => []
  | unary _ t => [t]
  | binary _ l r => [l, r]

/-- The names of the leaves, from left to right. -/
def leaves : Tree → List String
  | leaf a => [a.name]
  | unary _ t => t.leaves
  | binary _ l r => l.leaves ++ r.leaves

def render : Tree → String
  | leaf a => a.name
  | unary a t => "[ " ++ a.name ++ ", " ++ t.render ++ " ]"
  | binary a l r => "[ " ++ a.name ++ ", " ++ l.render ++ ", " ++ r.render ++ " ]"

/-- A label at the given depth, two blanks a level. -/
def indented (depth : Nat) (a : Symbol) : String :=
  String.ofList (List.replicate (2 * depth) ' ') ++ a.name

/-- The lines of the indented form, for a tree that hangs at the given depth. -/
def outline (depth : Nat) : Tree → List String
  | leaf a => [indented depth a]
  | unary a t => indented depth a :: outline (depth + 1) t
  | binary a l r => indented depth a :: (outline (depth + 1) l ++ outline (depth + 1) r)

def pretty (t : Tree) : String :=
  "\n".intercalate (t.outline 0)

/-- Each node is made by a one-symbol rule over a leaf or by a two-symbol rule over trees
that are so made. Whether the leaf is a terminal is not asked. -/
inductive ValidFor (g : Grammar) : Tree → Prop
  | unary {a b : Symbol} : ⟨a, [b]⟩ ∈ g.rules → ValidFor g (.unary a (.leaf b))
  | binary {a : Symbol} {l r : Tree} : ⟨a, [l.label, r.label]⟩ ∈ g.rules →
      ValidFor g l → ValidFor g r → ValidFor g (.binary a l r)

theorem leaves_ne_nil (t : Tree) : t.leaves ≠ [] := by
  induction t with
  | leaf a => simp [leaves]
  | unary a t ih => simpa [leaves] using ih
  | binary a l r ihl _ => simp [leaves, ihl]

end Tree

end ChartParser
