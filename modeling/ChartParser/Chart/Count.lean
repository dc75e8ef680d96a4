import ChartParser.Grammar
import Mathlib.Algebra.GroupWithZero.Nat

/-!
# Counting derivations

The number of derivations of a word from a symbol, by trying every rule and
every cut. It is slow and shares nothing with the table. A rule that occurs
twice counts twice.
-/
namespace ChartParser.Grammar

def derivationCount (g : Grammar) (a : Symbol) (word : List String) : Nat :=
  ((g.rulesFor a).map fun r =>
    match r.rhs with
    | [t] => if word = [t.name] then 1 else 0
    | [b, c] =>
      ((List.range' 1 (word.length - 1)).attach.map fun ⟨k, _⟩ =>
        g.derivationCount b (word.take k) * g.derivationCount c (word.drop k)).sum
    | _ => 0).sum
termination_by word.length
decreasing_by
  all_goals
    rename_i hk
    rw [List.mem_range'_1] at hk
    simp only [List.length_take, List.length_drop]
    omega

end ChartParser.Grammar
