import ChartParser.Grammar

/-!
# Rewriting

A step replaces one occurrence of the head of a rule by its right-hand side,
anywhere in a row of symbols. The language of a grammar holds the words that
steps lead to from the start symbol and that no step leads on from. At least
one step is made, so the start symbol by itself is no word of the language.
-/
namespace ChartParser.Grammar

inductive Rewrites (g : Grammar) : List Symbol → List Symbol → Prop
  | step {r : Rule} (before after : List Symbol) : r ∈ g.rules →
      Rewrites g (before ++ r.lhs :: after) (before ++ r.rhs ++ after)

/-- One or more steps. -/
def Derives (g : Grammar) : List Symbol → List Symbol → Prop :=
  Relation.TransGen g.Rewrites

/-- The word consists of terminals and derives from the start symbol. -/
def Generates (g : Grammar) (word : List String) : Prop :=
  (∀ token ∈ word, g.isNonTerminal ⟨token⟩ = false) ∧ g.Derives [g.start] (word.map Symbol.mk)

theorem Rewrites.append {g : Grammar} {u v : List Symbol} (h : g.Rewrites u v)
    (before after : List Symbol) : g.Rewrites (before ++ u ++ after) (before ++ v ++ after) := by
  cases h with
  | step b a hr => simpa using Rewrites.step (before ++ b) (a ++ after) hr

end ChartParser.Grammar
