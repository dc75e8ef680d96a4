import ChartParser.Chart.Parse
import ChartParser.Proofs.TableCells
import Mathlib.Data.List.Nodup
import Mathlib.Data.List.Pairwise

/-!
# The equation that filling solves

The loop over spans changes the table in place, but the order of the spans
hides this: when a span is reached, every shorter span is already final. So
the filled table satisfies one equation for each span, in which only the
filled table itself and the list of the span before the run occur. Words,
grammars and earlier contents of the cells are arbitrary here.
-/
namespace ChartParser

namespace Span

theorem length_left_lt {s : Span} {k : ℕ} (hk : k ∈ s.cuts) :
    (⟨s.start, k⟩ : Span).length < s.length := by
  have := mem_cuts.mp hk
  simp only [length]
  omega

theorem length_right_lt {s : Span} {k : ℕ} (hk : k ∈ s.cuts) :
    (⟨k, s.stop⟩ : Span).length < s.length := by
  have := mem_cuts.mp hk
  simp only [length]
  omega

end Span

theorem Rule.pair?_eq_some_iff {r : Rule} {b c : Symbol} :
    r.pair? = some (b, c) ↔ r.rhs = [b, c] := by
  unfold Rule.pair?
  split <;> simp_all

theorem Rule.single?_eq_some_iff {r : Rule} {a : Symbol} :
    r.single? = some a ↔ r.rhs = [a] := by
  unfold Rule.single?
  split <;> simp_all

/-- A tree is combined of a left and a right part that a two-symbol rule allows. -/
theorem Grammar.mem_combine {g : Grammar} {left right : List Tree} {t : Tree} :
    t ∈ g.combine left right ↔ ∃ a, ∃ l ∈ left, ∃ r ∈ right,
      ⟨a, [l.label, r.label]⟩ ∈ g.rules ∧ t = .binary a l r := by
  simp only [combine, List.mem_flatMap]
  constructor
  · intro h
    obtain ⟨rule, hrule, ht⟩ := h
    split at ht
    · rename_i b c hpair
      simp only [List.mem_flatMap, List.mem_map, List.mem_filter, beq_iff_eq] at ht
      obtain ⟨l, ⟨hl, rfl⟩, r, ⟨hr, rfl⟩, rfl⟩ := ht
      exact ⟨rule.lhs, l, hl, r, hr, Rule.pair?_eq_some_iff.mp hpair ▸ hrule, rfl⟩
    · simp at ht
  · intro h
    obtain ⟨a, l, hl, r, hr, hrule, rfl⟩ := h
    refine ⟨_, hrule, ?_⟩
    simp only [Rule.pair?, List.mem_flatMap, List.mem_map, List.mem_filter, beq_iff_eq]
    exact ⟨l, ⟨hl, rfl⟩, r, ⟨hr, rfl⟩, rfl⟩

namespace Table

theorem mem_combinations {g : Grammar} {T : Table} {s : Span} {t : Tree} :
    t ∈ T.combinations g s ↔ ∃ k ∈ s.cuts, ∃ a, ∃ l ∈ T.treesAt ⟨s.start, k⟩,
      ∃ r ∈ T.treesAt ⟨k, s.stop⟩, ⟨a, [l.label, r.label]⟩ ∈ g.rules ∧ t = .binary a l r := by
  simp only [combinations, List.mem_flatMap, Grammar.mem_combine]

/-- What a span is combined of depends on the shorter spans only. -/
theorem combinations_congr {g : Grammar} {T U : Table} {s : Span}
    (h : ∀ u : Span, u.length < s.length → T.treesAt u = U.treesAt u) :
    T.combinations g s = U.combinations g s := by
  unfold combinations
  refine List.flatMap_congr fun k hk => ?_
  rw [h _ (Span.length_left_lt hk), h _ (Span.length_right_lt hk)]

theorem combinations_of_length_le_one {g : Grammar} {T : Table} {s : Span} (h : s.length ≤ 1) :
    T.combinations g s = [] := by
  have hcuts : s.cuts = [] := by
    rw [Span.cuts, Nat.sub_eq_zero_of_le h]
    rfl
  rw [combinations, hcuts, List.flatMap_nil]

/-! ### One run over a list of spans -/

theorem fillSpans_cons (g : Grammar) (s : Span) (rest : List Span) (T : Table) :
    (fillSpans g (s :: rest) T).table =
      (fillSpans g rest (T.insertAll s (T.combinations g s)).1).table := rfl

@[simp] theorem size_fillSpans (g : Grammar) (order : List Span) (T : Table) :
    (fillSpans g order T).table.size = T.size := by
  induction order generalizing T with
  | nil => rfl
  | cons s rest ih => rw [fillSpans_cons, ih, size_insertAll]

theorem coherent_fillSpans {T : Table} (hT : T.Coherent) (g : Grammar) (order : List Span) :
    (fillSpans g order T).table.Coherent := by
  induction order generalizing T with
  | nil => exact hT
  | cons s rest ih =>
      rw [fillSpans_cons]
      exact ih (hT.insertAll s _)

theorem treesAt_fillSpans_of_not_mem {g : Grammar} {order : List Span} {T : Table} {u : Span}
    (hu : u ∉ order) : (fillSpans g order T).table.treesAt u = T.treesAt u := by
  induction order generalizing T with
  | nil => rfl
  | cons s rest ih =>
      rw [List.mem_cons, not_or] at hu
      rw [fillSpans_cons, ih hu.2, treesAt_insertAll_of_ne (Ne.symm hu.1)]

/-- In any order in which no span comes after a longer one, each span that comes up once ends
up with its old trees and what the final table combines for it. -/
theorem Coherent.treesAt_fillSpans {g : Grammar} {order : List Span} {T : Table}
    (hT : T.Coherent) (hsorted : order.Pairwise (·.length ≤ ·.length)) (hnodup : order.Nodup)
    (hcovers : ∀ s ∈ order, T.Covers s) {s : Span} (hs : s ∈ order) :
    (fillSpans g order T).table.treesAt s =
      appendNew (T.treesAt s) ((fillSpans g order T).table.combinations g s) := by
  induction order generalizing T with
  | nil => simp at hs
  | cons u rest ih =>
      obtain ⟨hle, hsorted⟩ := List.pairwise_cons.mp hsorted
      obtain ⟨hu, hnodup⟩ := List.nodup_cons.mp hnodup
      have hcovu : T.Covers u := hcovers u List.mem_cons_self
      rcases List.mem_cons.mp hs with rfl | hs
      · -- The shorter spans are behind the run already, so they read the same at its end.
        have hfinal : T.combinations g s = (fillSpans g (s :: rest) T).table.combinations g s := by
          refine combinations_congr fun v hv => (treesAt_fillSpans_of_not_mem ?_).symm
          intro hmem
          rcases List.mem_cons.mp hmem with rfl | hmem
          · exact absurd hv (Nat.lt_irrefl _)
          · exact absurd hv (Nat.not_lt.mpr (hle v hmem))
        rw [← hfinal, fillSpans_cons, treesAt_fillSpans_of_not_mem hu,
          hT.treesAt_insertAll_self hcovu]
      · have hne : u ≠ s := fun h => hu (h ▸ hs)
        rw [fillSpans_cons, ih (hT.insertAll u _) hsorted hnodup
          (fun v hv => covers_insertAll.mpr (hcovers v (List.mem_cons_of_mem u hv))) hs,
          treesAt_insertAll_of_ne hne]

/-! ### The order of the program -/

theorem mem_fillOrder {n : ℕ} {s : Span} :
    s ∈ fillOrder n ↔ 2 ≤ s.length ∧ s.stop ≤ n := by
  simp only [fillOrder, List.mem_flatMap, List.mem_map, List.mem_range, List.mem_range'_1,
    Span.length]
  constructor
  · intro h
    obtain ⟨l, hl, i, hi, rfl⟩ := h
    dsimp only
    omega
  · intro h
    obtain ⟨hl, hn⟩ := h
    refine ⟨s.stop - s.start, by omega, s.start, by omega, ?_⟩
    have hstop : s.start + (s.stop - s.start) = s.stop := by omega
    rw [hstop]

/-- The spans of one length, from left to right. -/
private theorem length_of_mem_row {n l : ℕ} {s : Span}
    (h : s ∈ (List.range (n + 1 - l)).map fun i => (⟨i, i + l⟩ : Span)) : s.length = l := by
  obtain ⟨i, _, rfl⟩ := List.mem_map.mp h
  simp only [Span.length]
  omega

theorem pairwise_fillOrder (n : ℕ) : (fillOrder n).Pairwise (·.length ≤ ·.length) := by
  rw [fillOrder, List.pairwise_flatMap]
  constructor
  · intro l _
    refine List.pairwise_of_forall_mem_list fun s hs u hu => ?_
    exact Nat.le_of_eq ((length_of_mem_row hs).trans (length_of_mem_row hu).symm)
  · refine List.Pairwise.imp ?_ (List.pairwise_lt_range' (s := 2) (n := n - 1))
    intro l m hlm s hs u hu
    rw [length_of_mem_row hs, length_of_mem_row hu]
    exact Nat.le_of_lt hlm

theorem nodup_fillOrder (n : ℕ) : (fillOrder n).Nodup := by
  rw [fillOrder, List.nodup_flatMap]
  constructor
  · intro l _
    refine List.nodup_range.map fun i j hij => ?_
    exact congrArg Span.start hij
  · refine List.Pairwise.imp ?_ (List.pairwise_lt_range' (s := 2) (n := n - 1))
    intro l m hlm s hs hu
    have := length_of_mem_row hs
    have := length_of_mem_row hu
    omega

@[simp] theorem size_fill (g : Grammar) (T : Table) : (T.fill g).table.size = T.size :=
  size_fillSpans g _ T

theorem Coherent.fill {T : Table} (hT : T.Coherent) (g : Grammar) : (T.fill g).table.Coherent :=
  coherent_fillSpans hT g _

/-- What is combined for a span depends on shorter spans, so the equation says what the filled
table holds span by span, from the tokens up. -/
theorem Coherent.treesAt_fill {T : Table} (hT : T.Coherent) (g : Grammar) {s : Span}
    (hs : T.Covers s) : (T.fill g).table.treesAt s =
      appendNew (T.treesAt s) ((T.fill g).table.combinations g s) := by
  by_cases hl : 2 ≤ s.length
  · refine hT.treesAt_fillSpans (pairwise_fillOrder _) (nodup_fillOrder _) ?_
      (mem_fillOrder.mpr ⟨hl, hs.2⟩)
    intro u hu
    obtain ⟨hlen, hstop⟩ := mem_fillOrder.mp hu
    exact ⟨by simp only [Span.length] at hlen; omega, hstop⟩
  · rw [combinations_of_length_le_one (by omega), appendNew]
    exact treesAt_fillSpans_of_not_mem fun h => hl (mem_fillOrder.mp h).1

end Table

end ChartParser
