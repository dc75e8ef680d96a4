import ChartParser.Grammar

/-!
# Derivations

The trees of a grammar whose rules have any number of symbols on the right,
none included. A derivation says which symbol stands where but not which rule
was used, since a rule can be read off a node and its children.
-/
namespace ChartParser

inductive Derivation where
  | terminal (symbol : Symbol)
  | node (head : Symbol) (children : List Derivation)
  deriving Inhabited

namespace Derivation

def root : Derivation → Symbol
  | terminal s | node s _ => s

mutual

/-- The names of the terminals, from left to right. -/
def word : Derivation → List String
  | terminal s => [s.name]
  | node _ children => wordOf children

def wordOf : List Derivation → List String
  | [] => []
  | d :: ds => d.word ++ wordOf ds

end

mutual

/-- Zero for a terminal and one more than the highest child for a node. -/
def height : Derivation → Nat
  | terminal _ => 0
  | node _ children => highest children + 1

def highest : List Derivation → Nat
  | [] => 0
  | d :: ds => max d.height (highest ds)

end

theorem wordOf_eq_flatMap (ds : List Derivation) : wordOf ds = ds.flatMap word := by
  induction ds with
  | nil => rfl
  | cons d ds ih => simp [wordOf, ih]

theorem height_le_highest {ds : List Derivation} {d : Derivation} (h : d ∈ ds) :
    d.height ≤ highest ds := by
  induction ds with
  | nil => simp at h
  | cons e ds ih =>
    rw [highest]
    rcases List.mem_cons.mp h with rfl | h
    · omega
    · have := ih h
      omega

theorem highest_le {ds : List Derivation} {n : Nat} (h : ∀ d ∈ ds, d.height ≤ n) :
    highest ds ≤ n := by
  induction ds with
  | nil => exact Nat.zero_le n
  | cons d ds ih =>
    have hd := h d List.mem_cons_self
    have hds := ih fun e he => h e (List.mem_cons_of_mem d he)
    rw [highest]
    omega

/-- Each node and its children form a rule, and each terminal heads none. -/
inductive ValidFor (g : Grammar) : Derivation → Prop
  | terminal {s : Symbol} : g.isNonTerminal s = false → ValidFor g (.terminal s)
  | node {r : Rule} {children : List Derivation} : r ∈ g.rules → children.map root = r.rhs →
      (∀ d ∈ children, ValidFor g d) → ValidFor g (.node r.lhs children)

theorem ValidFor.child {g : Grammar} {s : Symbol} {children : List Derivation}
    (h : (Derivation.node s children).ValidFor g) {d : Derivation} (hd : d ∈ children) : d.ValidFor g := by
  cases h with
  | node _ _ hvalid => exact hvalid d hd

end Derivation

end ChartParser
