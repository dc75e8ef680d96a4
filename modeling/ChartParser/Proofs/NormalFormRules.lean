import ChartParser.Grammar.NormalForm

/-!
# Rules in normal form

The check looks at one rule at a time and passes a grammar when it passes each
of its rules. What a passed rule looks like is all that the theory of grammars
in normal form needs to know of the check.
-/
namespace ChartParser.Grammar

/-- The right side is one terminal or two non-terminals. -/
def NormalRule (g : Grammar) (r : Rule) : Prop :=
  (∃ a, r.rhs = [a] ∧ g.isNonTerminal a = false) ∨
    ∃ b c, r.rhs = [b, c] ∧ g.isNonTerminal b = true ∧ g.isNonTerminal c = true

theorem violationOf?_eq_none_iff {g : Grammar} {r : Rule} :
    g.violationOf? r = none ↔ g.NormalRule r := by
  unfold violationOf? NormalRule
  split
  · simp_all
  · simp_all
  · rename_i left right hrhs
    rw [Option.map_eq_none_iff, List.find?_eq_none, hrhs]
    constructor
    · intro h
      exact Or.inr ⟨left, right, rfl, by simpa using h left (by simp),
        by simpa using h right (by simp)⟩
    · intro h
      rcases h with ⟨a, ha, _⟩ | ⟨b, c, hbc, hb, hc⟩
      · simp at ha
      · simp only [List.cons.injEq, and_true] at hbc
        obtain ⟨rfl, rfl⟩ := hbc
        simp [hb, hc]
  · rename_i hone htwo
    constructor
    · intro h
      cases h
    · intro h
      rcases h with ⟨a, ha, _⟩ | ⟨b, c, hbc, _⟩
      · exact absurd ha (hone a)
      · exact absurd hbc (htwo b c)

theorem firstViolation?_eq_none_iff {g : Grammar} :
    g.firstViolation? = none ↔ ∀ r ∈ g.rules, g.NormalRule r := by
  simp only [firstViolation?, List.findSome?_eq_none_iff, Option.map_eq_none_iff,
    violationOf?_eq_none_iff]

theorem normalRule_of_firstViolation?_eq_none {g : Grammar} (h : g.firstViolation? = none)
    {r : Rule} (hr : r ∈ g.rules) : g.NormalRule r :=
  firstViolation?_eq_none_iff.mp h r hr

end ChartParser.Grammar
