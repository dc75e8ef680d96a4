import ChartParser.Grammar

/-!
# Fresh symbols

A name is made fresh for a vocabulary by priming it as often as needed and no
more. Each prime makes the name longer, so the vocabulary holds ever fewer
names that are long enough to be met again, and the search ends.
-/
namespace ChartParser.Grammar

private theorem countP_lt_of_mem {α : Type} {p q : α → Bool} (hpq : ∀ x, p x = true → q x = true)
    {a : α} : ∀ {l : List α}, a ∈ l → q a = true → p a = false → l.countP p < l.countP q
  | x :: l, ha, hq, hp => by
    have hle : l.countP p ≤ l.countP q := List.countP_mono_left fun y _ => hpq y
    rcases List.mem_cons.mp ha with rfl | ha
    · simp only [List.countP_cons, hq, hp]
      simp
      omega
    · have hlt := countP_lt_of_mem hpq ha hq hp
      have hx : (if p x = true then 1 else 0) ≤ if q x = true then 1 else 0 := by
        by_cases h : p x = true
        · simp [h, hpq x h]
        · simp [h]
      simp only [List.countP_cons]
      omega

/-- The name followed by as few primes as make it none of the used ones. -/
def freshName (used : List String) (name : String) : String :=
  if name ∈ used then freshName used (name.push '\'') else name
termination_by used.countP (name.length ≤ ·.length)
decreasing_by
  rename_i hmem
  refine countP_lt_of_mem (fun x hx => ?_) hmem (by simp) (by simp)
  simp only [String.length_push, decide_eq_true_eq] at hx ⊢
  omega

/-- A symbol named after `base` that the vocabulary does not hold. -/
def freshSymbol (g : Grammar) (base : String) : Symbol :=
  ⟨freshName (g.symbols.map Symbol.name) base⟩

theorem freshName_not_mem (used : List String) (name : String) : freshName used name ∉ used := by
  fun_induction freshName used name with
  | case1 name _ ih => exact ih
  | case2 name h => exact h

end ChartParser.Grammar
