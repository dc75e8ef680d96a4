import ChartParser.Chart.Table
import ChartParser.Proofs.CellCoherence

/-!
# Tables seen as lists of trees

To the outside a coherent table is a function from spans to lists of trees.
Adding trees to one span changes the list of that span, if the table has a
cell for it, and nothing else. In which row and column it stands does not show.
-/
namespace ChartParser.Table

/-- Every cell is coherent, the ones that were never written to included. -/
def Coherent (T : Table) : Prop := ∀ ⦃s : Span⦄ ⦃c : Cell⦄, T.cell? s = some c → c.Coherent

theorem covers_iff_cell? {T : Table} {s : Span} : T.Covers s ↔ ∃ c, T.cell? s = some c := by
  rw [← Option.isSome_iff_exists, ← Option.ne_none_iff_isSome, ne_eq, cell?_eq_none_iff, not_not]

theorem treesAt_of_cell? {T : Table} {s : Span} {c : Cell} (h : T.cell? s = some c) :
    T.treesAt s = c.toList := by
  simp only [treesAt, h]

theorem treesAt_of_not_covers {T : Table} {s : Span} (h : ¬T.Covers s) : T.treesAt s = [] := by
  simp only [treesAt, cell?_eq_none_iff.mpr h]

theorem Coherent.nodup_treesAt {T : Table} (hT : T.Coherent) (s : Span) : (T.treesAt s).Nodup := by
  unfold treesAt
  cases h : T.cell? s with
  | none => exact List.nodup_nil
  | some c => exact (hT h).nodup

theorem cell?_empty {n : ℕ} {s : Span} {c : Cell} (h : (empty n).cell? s = some c) : c = {} := by
  obtain ⟨⟨row, column⟩, _, hplace⟩ := Option.bind_eq_some_iff.mp h
  obtain ⟨cells, hrow, hcolumn⟩ := Option.bind_eq_some_iff.mp hplace
  simp only [empty, Array.getElem?_ofFn, Option.dite_none_right_eq_some, Option.some.injEq] at hrow
  obtain ⟨_, rfl⟩ := hrow
  rw [Array.getElem?_replicate, Option.ite_none_right_eq_some, Option.some.injEq] at hcolumn
  exact hcolumn.2.symm

theorem coherent_empty (n : ℕ) : (empty n).Coherent := by
  intro s c h
  rw [cell?_empty h]
  exact Cell.coherent_empty

@[simp] theorem treesAt_empty (n : ℕ) (s : Span) : (empty n).treesAt s = [] := by
  unfold treesAt
  cases h : (empty n).cell? s with
  | none => rfl
  | some c => rw [cell?_empty h]; rfl

/-- What adding trees to a cell leaves of the table, for a span that has a cell. -/
theorem insertAll_of_cell? {T : Table} {s : Span} {c : Cell} (h : T.cell? s = some c)
    (ts : List Tree) : T.insertAll s ts =
      if (c.insertAll ts).2 = 0 then (T, 0)
      else (T.put s (c.insertAll ts).1, (c.insertAll ts).2) := by
  simp only [insertAll, h]
  rcases c.insertAll ts with ⟨filled, _ | count⟩ <;> rfl

theorem insertAll_of_not_covers {T : Table} {s : Span} (h : ¬T.Covers s) (ts : List Tree) :
    T.insertAll s ts = (T, 0) := by
  simp only [insertAll, cell?_eq_none_iff.mpr h]

@[simp] theorem size_insertAll (T : Table) (s : Span) (ts : List Tree) :
    (T.insertAll s ts).1.size = T.size := by
  by_cases hs : T.Covers s
  · obtain ⟨c, hc⟩ := covers_iff_cell?.mp hs
    rw [insertAll_of_cell? hc]
    split_ifs
    · rfl
    · exact size_put T s _
  · rw [insertAll_of_not_covers hs]

theorem covers_insertAll {T : Table} {s u : Span} {ts : List Tree} :
    (T.insertAll s ts).1.Covers u ↔ T.Covers u := by
  simp only [Covers, size_insertAll]

theorem cell?_insertAll_of_ne {T : Table} {s u : Span} (h : s ≠ u) (ts : List Tree) :
    (T.insertAll s ts).1.cell? u = T.cell? u := by
  by_cases hs : T.Covers s
  · obtain ⟨c, hc⟩ := covers_iff_cell?.mp hs
    rw [insertAll_of_cell? hc]
    split_ifs
    · rfl
    · rw [cell?_put hs, if_neg h]
  · rw [insertAll_of_not_covers hs]

theorem treesAt_insertAll_of_ne {T : Table} {s u : Span} (h : s ≠ u) (ts : List Tree) :
    (T.insertAll s ts).1.treesAt u = T.treesAt u := by
  simp only [treesAt, cell?_insertAll_of_ne h]

/-- Where the cell gained nothing it was not written back, and had all of the trees before. -/
theorem Coherent.cell?_insertAll_self {T : Table} (hT : T.Coherent) {s : Span} (hs : T.Covers s)
    (ts : List Tree) : ∃ c, (T.insertAll s ts).1.cell? s = some c ∧ c.Coherent ∧
      c.toList = appendNew (T.treesAt s) ts := by
  obtain ⟨c, hc⟩ := covers_iff_cell?.mp hs
  obtain ⟨hcoh, hlist, hcount⟩ := (hT hc).insertAll ts
  rw [insertAll_of_cell? hc, treesAt_of_cell? hc]
  split_ifs with hzero
  · rw [hzero, Nat.add_zero] at hcount
    exact ⟨c, hc, hT hc, (prefix_appendNew c.toList ts).eq_of_length hcount.symm⟩
  · exact ⟨_, by rw [cell?_put hs, if_pos rfl], hcoh, hlist⟩

theorem Coherent.treesAt_insertAll_self {T : Table} (hT : T.Coherent) {s : Span}
    (hs : T.Covers s) (ts : List Tree) :
    (T.insertAll s ts).1.treesAt s = appendNew (T.treesAt s) ts := by
  obtain ⟨c, hc, _, hlist⟩ := hT.cell?_insertAll_self hs ts
  rw [treesAt_of_cell? hc, hlist]

theorem Coherent.insertAll {T : Table} (hT : T.Coherent) (s : Span) (ts : List Tree) :
    (T.insertAll s ts).1.Coherent := by
  intro u c hc
  by_cases hsu : s = u
  · subst hsu
    have hs : T.Covers s := covers_insertAll.mp (covers_iff_cell?.mpr ⟨c, hc⟩)
    obtain ⟨d, hd, hcoh, _⟩ := hT.cell?_insertAll_self hs ts
    rw [hc, Option.some.injEq] at hd
    exact hd ▸ hcoh
  · rw [cell?_insertAll_of_ne hsu] at hc
    exact hT hc

/-- The count says by how much the list of the cell grew, and is zero where there is no cell. -/
theorem Coherent.length_treesAt_insertAll {T : Table} (hT : T.Coherent) (s : Span)
    (ts : List Tree) : ((T.insertAll s ts).1.treesAt s).length =
      (T.treesAt s).length + (T.insertAll s ts).2 := by
  by_cases hs : T.Covers s
  · rw [hT.treesAt_insertAll_self hs]
    obtain ⟨c, hc⟩ := covers_iff_cell?.mp hs
    have hcount := ((hT hc).insertAll ts).2.2
    rw [treesAt_of_cell? hc, insertAll_of_cell? hc, hcount]
    split_ifs with hzero
    · rw [hzero]
    · rfl
  · rw [insertAll_of_not_covers hs, Nat.add_zero]

/-- Trees that the cell has already are passed over, and the table is left as it was. -/
theorem Coherent.insertAll_eq_self {T : Table} (hT : T.Coherent) {s : Span} {ts : List Tree}
    (h : ∀ t ∈ ts, t ∈ T.treesAt s) : T.insertAll s ts = (T, 0) := by
  by_cases hs : T.Covers s
  · have hcount := hT.length_treesAt_insertAll s ts
    rw [hT.treesAt_insertAll_self hs, appendNew_eq_self h] at hcount
    have hzero : (T.insertAll s ts).2 = 0 := by omega
    obtain ⟨c, hc⟩ := covers_iff_cell?.mp hs
    rw [insertAll_of_cell? hc] at hzero ⊢
    split_ifs at hzero ⊢ with hcell
    · rfl
    · exact absurd hzero hcell
  · exact insertAll_of_not_covers hs ts

/-- A single tree is inserted like a list of one. -/
theorem insert_eq_insertAll (T : Table) (s : Span) (t : Tree) :
    (T.insert s t).1 = (T.insertAll s [t]).1 := by
  cases hc : T.cell? s with
  | none => simp only [insert, insertAll, hc]
  | some c =>
      by_cases ht : c.contains t = true
      · simp only [insert, insertAll, hc, Cell.insert, Cell.insertAll, ht, if_true]
      · simp only [insert, insertAll, hc, Cell.insert, Cell.insertAll, ht]
        rfl

theorem Coherent.insert {T : Table} (hT : T.Coherent) (s : Span) (t : Tree) :
    (T.insert s t).1.Coherent :=
  insert_eq_insertAll T s t ▸ hT.insertAll s [t]

end ChartParser.Table
