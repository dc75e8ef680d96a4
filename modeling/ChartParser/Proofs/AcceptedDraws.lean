import ChartParser.Generator.Choice
import Mathlib.Data.UInt
import Mathlib.Logic.Function.Iterate
import Mathlib.Tactic.Ring
import Mathlib.Tactic.SplitIfs

/-!
# Draws that are accepted

A choice is what the first accepted value comes to, however many values have to
be drawn for it. The limit on their number cuts nothing off: the generator
reaches every state within one full cycle, since twice as many steps settle one
more bit of the state, and the value of one state is accepted for any number of
alternatives.
-/
namespace ChartParser.RandomSource

/-- Values are drawn until one is accepted, and this one is the choice. -/
inductive Draws (n : ℕ) (hn : 0 < n) : RandomSource → Fin n × RandomSource → Prop
  | accepted {source : RandomSource} : scale n source.next.1 % UInt32.size ≤ zone n →
      Draws n hn source
        (⟨scale n source.next.1 / UInt32.size, scale_lt hn source.next.1⟩, source.next.2)
  | refused {source : RandomSource} {choice : Fin n × RandomSource} :
      zone n < scale n source.next.1 % UInt32.size → Draws n hn source.next.2 choice →
      Draws n hn source choice

variable {n : ℕ} {hn : 0 < n}

theorem Draws.unique {source : RandomSource} {choice choice' : Fin n × RandomSource}
    (h : Draws n hn source choice) (h' : Draws n hn source choice') : choice = choice' := by
  induction h with
  | accepted hle =>
      cases h' with
      | accepted _ => rfl
      | refused hlt _ => exact absurd hle (Nat.not_le.mpr hlt)
  | refused hlt _ ih =>
      cases h' with
      | accepted hle => exact absurd hle (Nat.not_le.mpr hlt)
      | refused _ hrest => exact ih hrest

theorem draws_below_succ {limit : ℕ} {source : RandomSource}
    (h : zone n < scale n source.next.1 % UInt32.size →
      Draws n hn source.next.2 (below n hn limit source.next.2)) :
    Draws n hn source (below n hn (limit + 1) source) := by
  rw [below]
  dsimp only
  split_ifs with haccepted
  · exact .accepted haccepted
  · exact .refused (Nat.not_le.mp haccepted) (h (Nat.not_le.mp haccepted))

/-! ### States of the generator -/

/-- The state after one step. -/
def step (state : UInt64) : UInt64 := state * 6364136223846793005 + 1442695040888963407

section States
open scoped UInt64.CommRing

/-- So many steps keep the lowest `k` bits of a state and turn the next one. -/
theorem exists_iterate_step_two_pow (k : ℕ) : ∃ b d : UInt64, ∀ x,
    step^[2 ^ k] x = (1 + 2 ^ (k + 2) * b) * x + 2 ^ k * (2 * d + 1) := by
  induction k with
  | zero =>
      refine ⟨1591034055961698251, 721347520444481703, fun x => ?_⟩
      rw [pow_zero, Function.iterate_one, step]
      ring
  | succ k ih =>
      obtain ⟨b, d, h⟩ := ih
      refine ⟨b + 2 ^ (k + 1) * b * b, d + 2 ^ k * b * (2 * d + 1), fun x => ?_⟩
      rw [pow_succ, mul_two, Function.iterate_add_apply, h, h]
      ring

theorem exists_eq_two_mul_or (m : UInt64) : ∃ h, m = 2 * h ∨ m = 2 * h + 1 := by
  refine ⟨m / 2, ?_⟩
  have hdiv : (m / 2).toNat = m.toNat / 2 := UInt64.toNat_div m 2
  simp only [← UInt64.toNat_inj, UInt64.toNat_add, UInt64.toNat_mul, hdiv]
  have hlt := m.toNat_lt
  simp
  omega

/-- The bits of a state are reached one after the other, from the lowest on. -/
theorem exists_iterate_step_add (k : ℕ) (x y : UInt64) :
    ∃ count < 2 ^ k, ∃ m, step^[count] x = y + 2 ^ k * m := by
  induction k with
  | zero => exact ⟨0, Nat.one_pos, x - y, by simp⟩
  | succ k ih =>
      obtain ⟨count, hcount, m, hm⟩ := ih
      obtain ⟨half, rfl | rfl⟩ := exists_eq_two_mul_or m
      · refine ⟨count, by omega, half, ?_⟩
        rw [hm]
        ring
      · -- The next bit differs, and it is turned by as many steps as are allowed more.
        obtain ⟨b, d, h⟩ := exists_iterate_step_two_pow k
        refine ⟨2 ^ k + count, by omega, half + d + 1 + 2 * b * step^[count] x, ?_⟩
        rw [Function.iterate_add_apply, h, hm]
        ring

/-- Every state is reached from every other one. -/
theorem exists_iterate_step_eq (x y : UInt64) : ∃ count < UInt64.size, step^[count] x = y := by
  obtain ⟨count, hcount, m, hm⟩ := exists_iterate_step_add 64 x y
  have hzero : (2 : UInt64) ^ 64 = 0 := by decide +kernel
  exact ⟨count, hcount, by rw [hm, hzero, zero_mul, add_zero]⟩

end States

/-! ### The limit -/

theorem next_of_script_nil {source : RandomSource} (h : source.script = []) :
    source.next.1 = ((step source.state) >>> 32).toUInt32 ∧ source.next.2.script = [] ∧
      source.next.2.state = step source.state := by
  rw [next, h]
  exact ⟨rfl, rfl, rfl⟩

theorem next_of_script_cons {source : RandomSource} {value : UInt32} {rest : List UInt32}
    (h : source.script = value :: rest) :
    source.next = (value, { source with script := rest, drawn := source.drawn + 1 }) := by
  rw [next, h]

/-- Once the script has ended, values are drawn up to the state zero at most. -/
theorem draws_below_of_state {count limit : ℕ} {source : RandomSource}
    (hscript : source.script = []) (hcount : count < limit)
    (hstate : step^[count] (step source.state) = 0) :
    Draws n hn source (below n hn limit source) := by
  induction count generalizing limit source with
  | zero =>
      obtain ⟨limit, rfl⟩ := Nat.exists_eq_add_one.mpr hcount
      obtain ⟨hvalue, _, _⟩ := next_of_script_nil hscript
      refine draws_below_succ fun hrefused => absurd hrefused ?_
      rw [Function.iterate_zero_apply] at hstate
      -- The value of the state zero is zero, and no zone ends below that.
      have hzero : source.next.1 = 0 := by
        rw [hvalue, hstate]
        rfl
      rw [hzero, scale]
      simp
  | succ count ih =>
      obtain ⟨limit, rfl⟩ := Nat.exists_eq_add_one.mpr (Nat.zero_lt_of_lt hcount)
      obtain ⟨_, hended, hstep⟩ := next_of_script_nil hscript
      rw [Function.iterate_succ_apply, ← hstep] at hstate
      exact draws_below_succ fun _ => ih hended (Nat.lt_of_succ_lt_succ hcount) hstate

/-- The limit is not met. -/
theorem draws_pick (source : RandomSource) : Draws n hn source (chooser.pick n hn source) := by
  rw [chooser]
  dsimp only
  generalize hscript : source.script = script
  induction script generalizing source with
  | nil =>
      obtain ⟨count, hcount, hstate⟩ := exists_iterate_step_eq (step source.state) 0
      exact draws_below_of_state hscript (Nat.lt_add_left _ hcount) hstate
  | cons value rest ih =>
      rw [List.length_cons, Nat.add_right_comm]
      refine draws_below_succ fun _ => ?_
      rw [next_of_script_cons hscript]
      exact ih _ rfl

/-- A choice is the one that the first accepted value makes. -/
theorem draws_iff {source : RandomSource} {choice : Fin n × RandomSource} :
    Draws n hn source choice ↔ choice = chooser.pick n hn source := by
  constructor
  · intro h
    exact h.unique (draws_pick source)
  · intro h
    rw [h]
    exact draws_pick source

end ChartParser.RandomSource
