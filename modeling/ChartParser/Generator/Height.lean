import ChartParser.Grammar
import Std.Data.HashMap

/-!
# Termination heights

The height of a non-terminal is that of its lowest finite derivation; one
without an entry has no finite derivation at all. The heights are found by
passing over the rules until a pass changes nothing. A pass works in place,
so that one rule already profits from the rule before it.
-/
namespace ChartParser

abbrev Heights := Std.HashMap Symbol Nat

namespace Grammar

/-- Zero for a terminal, and what the heights say of a non-terminal. -/
def symbolHeight? (g : Grammar) (h : Heights) (s : Symbol) : Option Nat :=
  if g.isNonTerminal s then h[s]? else some 0

/-- The least bound of all heights, missing when one of them is. -/
def highest? (g : Grammar) (h : Heights) : List Symbol → Option Nat
  | [] => some 0
  | s :: rest => do return max (← g.symbolHeight? h s) (← g.highest? h rest)

/-- The height of the derivations that use this rule first. -/
def ruleHeight? (g : Grammar) (h : Heights) (r : Rule) : Option Nat :=
  (g.highest? h r.rhs).map (· + 1)

/-- The rule has a height below what is known of its head. -/
def improvement? (g : Grammar) (h : Heights) (r : Rule) : Option Nat :=
  (g.ruleHeight? h r).filter fun height => h[r.lhs]?.all (height < ·)

/-- One pass over rules; the flag tells whether a height was improved. -/
def improveBy (g : Grammar) : List Rule → Heights → Heights × Bool
  | [], h => (h, false)
  | r :: rest, h =>
    match g.improvement? h r with
    | some height => ((g.improveBy rest (h.insert r.lhs height)).1, true)
    | none => g.improveBy rest h

/-- Passes over all rules until one changes nothing, or for as often as is allowed. -/
def settle (g : Grammar) : Nat → Heights → Heights
  | 0, h => h
  | passes + 1, h =>
    match g.improveBy g.rules h with
    | (improved, true) => g.settle passes improved
    | (settled, false) => settled

/-- The height of each non-terminal that has a finite derivation. A pass settles at least
the lowest of the heights still open, so one pass for each rule and one more are enough. -/
def heights (g : Grammar) : Heights :=
  g.settle (g.rules.length + 1) ∅

theorem symbolHeight?_le_highest? {g : Grammar} {h : Heights} {rhs : List Symbol} {n : Nat}
    (hn : g.highest? h rhs = some n) {s : Symbol} (hs : s ∈ rhs) :
    ∃ k, g.symbolHeight? h s = some k ∧ k ≤ n := by
  induction rhs generalizing n with
  | nil => simp at hs
  | cons t rest ih =>
    simp only [highest?, Option.pure_def, Option.bind_eq_bind, Option.bind_eq_some_iff,
      Option.some.injEq] at hn
    obtain ⟨k, hk, m, hm, rfl⟩ := hn
    rcases List.mem_cons.mp hs with rfl | hs
    · exact ⟨k, hk, by omega⟩
    · obtain ⟨j, hj, hjm⟩ := ih hm hs
      exact ⟨j, hj, by omega⟩

/-- Below a rule every symbol has a height less than that of the rule. -/
theorem symbolHeight?_lt_ruleHeight? {g : Grammar} {h : Heights} {r : Rule} {n : Nat}
    (hn : g.ruleHeight? h r = some n) {s : Symbol} (hs : s ∈ r.rhs) :
    ∃ k, g.symbolHeight? h s = some k ∧ k < n := by
  obtain ⟨m, hm, rfl⟩ := Option.map_eq_some_iff.mp hn
  obtain ⟨k, hk, hkm⟩ := symbolHeight?_le_highest? hm hs
  exact ⟨k, hk, by omega⟩

end Grammar

end ChartParser
