import ChartParser.Proofs.FillRecurrence
import ChartParser.Proofs.ParseOutcome
import Mathlib.Algebra.BigOperators.Group.List.Basic
import Mathlib.Algebra.GroupWithZero.Nat

/-!
# Filling as a closure

A table is closed under a grammar when the binary rules make nothing of its
trees that it does not hold. Filling closes a table and adds only what every
closed table above it must have. Where the trees come from is not asked: they
may have been put in by hand, at any span, or by filling with other grammars.
The count that filling returns is the number of trees it added, so a closed
table is returned as it is.
-/
namespace ChartParser

/-- How many trees an event reports to be new. -/
def Event.treeCount : Event → ℕ
  | .treesFound _ count => count
  | _ => 0

namespace Table

/-- What a table is like that was made for `n` tokens and then changed by insertions and
filling. -/
inductive Reachable (n : ℕ) : Table → Prop
  | empty : Reachable n (.empty n)
  | insert {T : Table} (s : Span) (t : Tree) : Reachable n T → Reachable n (T.insert s t).1
  | fill {T : Table} (g : Grammar) : Reachable n T → Reachable n (T.fill g).table

/-- A two-symbol rule, applied to trees of two cells that meet, gives a tree of the cell over
both. -/
def Closed (g : Grammar) (T : Table) : Prop :=
  ∀ ⦃a b c : Symbol⦄, ⟨a, [b, c]⟩ ∈ g.rules → ∀ ⦃i k j : ℕ⦄, i < k → k < j → j ≤ T.size →
    ∀ l ∈ T.treesAt ⟨i, k⟩, l.label = b → ∀ r ∈ T.treesAt ⟨k, j⟩, r.label = c →
      .binary a l r ∈ T.treesAt ⟨i, j⟩

/-- The second table is closed, holds the trees of the first, and holds in each cell only what
every closed table above the first holds there. -/
structure LeastClosed (g : Grammar) (T U : Table) : Prop where
  size_eq : U.size = T.size
  contains : ∀ s, T.treesAt s ⊆ U.treesAt s
  closed : Closed g U
  least : ∀ V : Table, V.size = T.size → Closed g V → (∀ s, T.treesAt s ⊆ V.treesAt s) →
    ∀ s, U.treesAt s ⊆ V.treesAt s

/-- The number of trees in all cells. -/
def total (T : Table) : ℕ := (T.spans.map fun s => (T.treesAt s).length).sum

theorem Reachable.coherent {n : ℕ} {T : Table} (hT : Reachable n T) : T.Coherent := by
  induction hT with
  | empty => exact coherent_empty n
  | insert s t _ ih => exact ih.insert s t
  | fill g _ ih => exact ih.fill g

theorem Reachable.size_eq {n : ℕ} {T : Table} (hT : Reachable n T) : T.size = n := by
  induction hT with
  | empty => rfl
  | insert s t _ ih => rw [insert_eq_insertAll, size_insertAll, ih]
  | fill g _ ih => rw [size_fill, ih]

/-! ### The least closed table -/

theorem closed_iff_combinations {g : Grammar} {T : Table} :
    Closed g T ↔ ∀ s, s.stop ≤ T.size → ∀ t ∈ T.combinations g s, t ∈ T.treesAt s := by
  constructor
  · intro h s hs t ht
    obtain ⟨k, hk, a, l, hl, r, hr, hrule, rfl⟩ := mem_combinations.mp ht
    have hcut := Span.mem_cuts.mp hk
    exact h hrule hcut.1 hcut.2 hs l hl rfl r hr rfl
  · intro h a b c hrule i k j hik hkj hj l hl hb r hr hc
    subst hb hc
    have hk : k ∈ (⟨i, j⟩ : Span).cuts := Span.mem_cuts.mpr ⟨hik, hkj⟩
    exact h ⟨i, j⟩ hj _ (mem_combinations.mpr ⟨k, hk, a, l, hl, r, hr, hrule, rfl⟩)

theorem covers_of_mem_combinations {g : Grammar} {T U : Table} {s : Span} {t : Tree}
    (hs : s.stop ≤ T.size) (ht : t ∈ U.combinations g s) : T.Covers s := by
  obtain ⟨k, hk, _⟩ := mem_combinations.mp ht
  have hcut := Span.mem_cuts.mp hk
  exact ⟨by omega, hs⟩

theorem Coherent.closed_fill {T : Table} (hT : T.Coherent) (g : Grammar) :
    Closed g (T.fill g).table := by
  rw [closed_iff_combinations]
  intro s hs t ht
  rw [size_fill] at hs
  rw [hT.treesAt_fill g (covers_of_mem_combinations hs ht), mem_appendNew]
  exact Or.inr ht

theorem Coherent.prefix_fill {T : Table} (hT : T.Coherent) (g : Grammar) (s : Span) :
    T.treesAt s <+: (T.fill g).table.treesAt s := by
  by_cases hs : T.Covers s
  · rw [hT.treesAt_fill g hs]
    exact prefix_appendNew _ _
  · rw [treesAt_of_not_covers hs]
    exact List.nil_prefix

/-- By induction on the length of the span: what is combined for it comes from shorter spans. -/
theorem Coherent.fill_subset {T U : Table} (hT : T.Coherent) {g : Grammar} (hsize : U.size = T.size)
    (hU : Closed g U) (hsub : ∀ s, T.treesAt s ⊆ U.treesAt s) (s : Span) :
    (T.fill g).table.treesAt s ⊆ U.treesAt s := by
  induction hn : s.length using Nat.strongRecOn generalizing s with
  | ind n ih =>
      subst hn
      intro t ht
      by_cases hs : T.Covers s
      · rw [hT.treesAt_fill g hs, mem_appendNew] at ht
        rcases ht with hold | hnew
        · exact hsub s hold
        · obtain ⟨k, hk, a, l, hl, r, hr, hrule, rfl⟩ := mem_combinations.mp hnew
          have hl' : l ∈ U.treesAt ⟨s.start, k⟩ := ih _ (Span.length_left_lt hk) _ rfl hl
          have hr' : r ∈ U.treesAt ⟨k, s.stop⟩ := ih _ (Span.length_right_lt hk) _ rfl hr
          have hcomb := mem_combinations.mpr ⟨k, hk, a, l, hl', r, hr', hrule, rfl⟩
          exact closed_iff_combinations.mp hU s (hsize ▸ hs.2) _ hcomb
      · have hcov : ¬(T.fill g).table.Covers s := by rwa [Covers, size_fill]
        rw [treesAt_of_not_covers hcov] at ht
        exact absurd ht List.not_mem_nil

theorem Coherent.leastClosed_fill {T : Table} (hT : T.Coherent) (g : Grammar) :
    LeastClosed g T (T.fill g).table where
  size_eq := size_fill g T
  contains s := (hT.prefix_fill g s).subset
  closed := hT.closed_fill g
  least _ hsize hV hsub := hT.fill_subset hsize hV hsub

/-! ### The cells of single tokens -/

theorem cell?_fillSpans_of_not_mem {g : Grammar} {order : List Span} {T : Table} {u : Span}
    (hu : u ∉ order) : (fillSpans g order T).table.cell? u = T.cell? u := by
  induction order generalizing T with
  | nil => rfl
  | cons s rest ih =>
      rw [List.mem_cons, not_or] at hu
      rw [fillSpans_cons, ih hu.2, cell?_insertAll_of_ne (Ne.symm hu.1)]

theorem cell?_fill_diagonal (g : Grammar) (T : Table) (i : ℕ) :
    (T.fill g).table.cell? ⟨i, i + 1⟩ = T.cell? ⟨i, i + 1⟩ := by
  apply cell?_fillSpans_of_not_mem
  rw [mem_fillOrder]
  simp only [Span.length]
  omega

/-! ### Counting what was added -/

theorem nodup_spans (T : Table) : T.spans.Nodup := by
  rw [spans, List.nodup_flatMap]
  constructor
  · intro i _
    refine (List.nodup_range' 1).map fun j k hjk => ?_
    exact congrArg Span.stop hjk
  · refine List.Pairwise.imp ?_ (List.pairwise_lt_range (n := T.size))
    intro i j hij s hi hj
    obtain ⟨_, _, rfl⟩ := List.mem_map.mp hi
    obtain ⟨_, _, heq⟩ := List.mem_map.mp hj
    have hstart : j = i := congrArg Span.start heq
    omega

theorem Coherent.total_insertAll {T : Table} (hT : T.Coherent) (s : Span) (ts : List Tree) :
    (T.insertAll s ts).1.total = T.total + (T.insertAll s ts).2 := by
  by_cases hs : T.Covers s
  · have hspans : (T.insertAll s ts).1.spans = T.spans := by
      rw [spans, spans, size_insertAll]
    have hmem : s ∈ T.spans := mem_spans.mpr hs
    have hothers : (T.spans.erase s).map (fun u => ((T.insertAll s ts).1.treesAt u).length) =
        (T.spans.erase s).map fun u => (T.treesAt u).length := by
      refine List.map_congr_left fun u hu => ?_
      have hne : u ≠ s := ((nodup_spans T).mem_erase_iff.mp hu).1
      rw [treesAt_insertAll_of_ne hne.symm]
    have hself := hT.length_treesAt_insertAll s ts
    rw [total, total, hspans, ← List.sum_map_erase _ hmem,
      ← List.sum_map_erase (fun u => (T.treesAt u).length) hmem, hothers, hself]
    omega
  · rw [insertAll_of_not_covers hs, Nat.add_zero]

theorem added_cons (g : Grammar) (s : Span) (rest : List Span) (T : Table) :
    (fillSpans g (s :: rest) T).added = (T.insertAll s (T.combinations g s)).2 +
      (fillSpans g rest (T.insertAll s (T.combinations g s)).1).added := rfl

theorem log_cons (g : Grammar) (s : Span) (rest : List Span) (T : Table) :
    (fillSpans g (s :: rest) T).log =
      (if 0 < (T.insertAll s (T.combinations g s)).2 then
        [.treesFound s (T.insertAll s (T.combinations g s)).2] else []) ++
      (fillSpans g rest (T.insertAll s (T.combinations g s)).1).log := by
  rw [fillSpans]
  dsimp only
  split_ifs
  · rfl
  · rfl

theorem Coherent.total_fillSpans {T : Table} (hT : T.Coherent) (g : Grammar)
    (order : List Span) :
    (fillSpans g order T).table.total = T.total + (fillSpans g order T).added := by
  induction order generalizing T with
  | nil => rfl
  | cons s rest ih =>
      rw [fillSpans_cons, added_cons, ih (hT.insertAll s _), hT.total_insertAll, Nat.add_assoc]

theorem added_fillSpans (g : Grammar) (order : List Span) (T : Table) :
    (fillSpans g order T).added = ((fillSpans g order T).log.map Event.treeCount).sum := by
  induction order generalizing T with
  | nil => rfl
  | cons s rest ih =>
      rw [added_cons, log_cons, ih, List.map_append, List.sum_append]
      congr 1
      split_ifs with hpos
      · rfl
      · exact Nat.eq_zero_of_not_pos hpos

/-- The log tells, for the spans that gained trees, how many these were. -/
theorem Coherent.mem_log_fillSpans {T : Table} (hT : T.Coherent) {g : Grammar}
    {order : List Span} (hnodup : order.Nodup) {s : Span} {count : ℕ} :
    .treesFound s count ∈ (fillSpans g order T).log ↔ 0 < count ∧
      ((fillSpans g order T).table.treesAt s).length = (T.treesAt s).length + count := by
  induction order generalizing T with
  | nil =>
      simp only [fillSpans, List.not_mem_nil, false_iff]
      omega
  | cons u rest ih =>
      have hu : u ∉ rest ∧ rest.Nodup := List.nodup_cons.mp hnodup
      have hrest := ih (hT.insertAll u (T.combinations g u)) hu.2
      rw [log_cons, List.mem_append, hrest, fillSpans_cons]
      by_cases hsu : s = u
      · -- Nothing is added to this span later on, so what it gained it gained here.
        subst hsu
        have hlength := hT.length_treesAt_insertAll s (T.combinations g s)
        rw [treesAt_fillSpans_of_not_mem hu.1, hlength]
        split_ifs with hpos
        · simp only [List.mem_singleton, Event.treesFound.injEq, true_and]
          omega
        · simp only [List.not_mem_nil, false_or]
          omega
      · rw [treesAt_insertAll_of_ne (Ne.symm hsu)]
        split_ifs
        · simp only [List.mem_singleton, Event.treesFound.injEq, hsu, false_and, false_or]
        · simp only [List.not_mem_nil, false_or]

/-! ### Closed tables -/

theorem Coherent.fillSpans_eq_self {T : Table} (hT : T.Coherent) {g : Grammar} (hg : Closed g T)
    {order : List Span} (hcovers : ∀ s ∈ order, T.Covers s) :
    fillSpans g order T = ⟨T, 0, []⟩ := by
  induction order with
  | nil => rfl
  | cons s rest ih =>
      have hs : s.stop ≤ T.size := (hcovers s List.mem_cons_self).2
      have hsame : T.insertAll s (T.combinations g s) = (T, 0) :=
        hT.insertAll_eq_self (closed_iff_combinations.mp hg s hs)
      have hrest := ih fun u hu => hcovers u (List.mem_cons_of_mem s hu)
      simp only [fillSpans, hsame, hrest]
      rfl

theorem covers_of_mem_fillOrder {T : Table} {s : Span} (hs : s ∈ fillOrder T.size) :
    T.Covers s := by
  have hmem := mem_fillOrder.mp hs
  simp only [Span.length] at hmem
  exact ⟨by omega, hmem.2⟩

theorem Coherent.fill_eq_self {T : Table} (hT : T.Coherent) {g : Grammar} (hg : Closed g T) :
    T.fill g = ⟨T, 0, []⟩ :=
  hT.fillSpans_eq_self hg fun _ hs => covers_of_mem_fillOrder hs

/-- Filling is a closure, for grammars of any form and for tables with any trees in them: single
tokens keep their cells, other cells are extended at the end, and the result is the least closed
table above the one that was given. The count is the sum of the counts that are logged, each of
which is the growth of its span, and the growth of the table; the second of two runs adds
nothing. -/
theorem fill_leastClosed {n : ℕ} {T : Table} (hT : Reachable n T) (g : Grammar) :
    (∀ i, (T.fill g).table.cell? ⟨i, i + 1⟩ = T.cell? ⟨i, i + 1⟩) ∧
    (∀ s, T.treesAt s <+: (T.fill g).table.treesAt s) ∧
    LeastClosed g T (T.fill g).table ∧
    (T.fill g).added = ((T.fill g).log.map Event.treeCount).sum ∧
    (∀ s count, .treesFound s count ∈ (T.fill g).log ↔ 0 < count ∧
      ((T.fill g).table.treesAt s).length = (T.treesAt s).length + count) ∧
    (T.fill g).table.total = T.total + (T.fill g).added ∧
    ((T.fill g).table.fill g).added = 0 ∧
    ((T.fill g).table.fill g).table = (T.fill g).table := by
  have hcoh := hT.coherent
  have hagain : (T.fill g).table.fill g = ⟨(T.fill g).table, 0, []⟩ :=
    (hcoh.fill g).fill_eq_self (hcoh.closed_fill g)
  refine ⟨cell?_fill_diagonal g T, hcoh.prefix_fill g, hcoh.leastClosed_fill g,
    added_fillSpans g _ T, ?_, hcoh.total_fillSpans g _, ?_, ?_⟩
  · intro s count
    exact hcoh.mem_log_fillSpans (nodup_fillOrder _)
  · rw [hagain]
  · rw [hagain]

/-- Two bare leaves, of which the second stands over two tokens. No word gives this table. -/
def handmade : Table :=
  (((empty 3).insert ⟨0, 1⟩ (.leaf ⟨"S"⟩)).1.insert ⟨1, 3⟩ (.leaf ⟨"A"⟩)).1

/-- The leaves are put together, once. -/
theorem fill_leastClosed_handmade : Reachable 3 handmade ∧
    .binary ⟨"S"⟩ (.leaf ⟨"S"⟩) (.leaf ⟨"A"⟩) ∈
      (handmade.fill Grammar.operators).table.treesAt ⟨0, 3⟩ ∧
    ((handmade.fill Grammar.operators).table.fill Grammar.operators).added = 0 := by
  have hreach : Reachable 3 handmade := .insert _ _ (.insert _ _ .empty)
  have hS : handmade.treesAt ⟨0, 1⟩ = [.leaf ⟨"S"⟩] := by cbv
  have hA : handmade.treesAt ⟨1, 3⟩ = [.leaf ⟨"A"⟩] := by cbv
  obtain ⟨_, hkept, hleast, _, _, _, hagain, _⟩ := fill_leastClosed hreach Grammar.operators
  have hleft := (hkept ⟨0, 1⟩).subset (hS ▸ List.mem_cons_self)
  have hright := (hkept ⟨1, 3⟩).subset (hA ▸ List.mem_cons_self)
  have hrule : ⟨⟨"S"⟩, [⟨"S"⟩, ⟨"A"⟩]⟩ ∈ Grammar.operators.rules := by decide
  have hsize : (handmade.fill Grammar.operators).table.size = 3 := (hreach.fill _).size_eq
  have hstop : 3 ≤ (handmade.fill Grammar.operators).table.size := Nat.le_of_eq hsize.symm
  have hwhole := hleast.closed hrule (by decide) (by decide) hstop _ hleft rfl _ hright rfl
  exact ⟨hreach, hwhole, hagain⟩

end Table

end ChartParser
