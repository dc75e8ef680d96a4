import ChartParser.Proofs.FillClosure

/-!
# Tables after any insertions and fillings

A table may be written to at any span, also at one that it has no cell for,
and filled with any grammars in between. Which spans have a cell never changes,
no span shares its cell with another, and in each cell the list and the set of
trees stay in step. An insertion that reports no new tree has done nothing.
-/
namespace ChartParser.Table

/-! ### One insertion -/

theorem insert_of_cell? {T : Table} {s : Span} {c : Cell} (h : T.cell? s = some c) (t : Tree) :
    T.insert s t =
      if c.contains t = true then (T, false) else (T.put s (c.push t), true) := by
  simp only [insert, h, Cell.insert]
  split_ifs
  · rfl
  · rfl

theorem insert_of_not_covers {T : Table} {s : Span} (h : ¬T.Covers s) (t : Tree) :
    T.insert s t = (T, false) := by
  simp only [insert, cell?_eq_none_iff.mpr h]

/-- The table is not written to, not even with what it holds. -/
theorem insert_of_snd_eq_false {T : Table} {s : Span} {t : Tree} (h : (T.insert s t).2 = false) :
    (T.insert s t).1 = T := by
  by_cases hs : T.Covers s
  · obtain ⟨c, hc⟩ := covers_iff_cell?.mp hs
    rw [insert_of_cell? hc] at h ⊢
    split_ifs at h ⊢
    · rfl
  · rw [insert_of_not_covers hs]

theorem Coherent.insert_snd_eq_true_iff {T : Table} (hT : T.Coherent) {s : Span} {t : Tree} :
    (T.insert s t).2 = true ↔ ∃ c, T.cell? s = some c ∧ t ∉ c.toList := by
  cases hc : T.cell? s with
  | none =>
      rw [insert_of_not_covers (cell?_eq_none_iff.mp hc)]
      simp
  | some c =>
      rw [insert_of_cell? hc]
      simp only [Option.some.injEq, exists_eq_left', ← (hT hc).contains_iff]
      split_ifs with ht
      · simp [ht]
      · simp [ht]

/-- A new tree comes last in its cell. -/
theorem Coherent.cell?_insert_self {T : Table} (hT : T.Coherent) {s : Span} {c : Cell} {t : Tree}
    (hc : T.cell? s = some c) (ht : t ∉ c.toList) :
    ∃ d, (T.insert s t).1.cell? s = some d ∧ d.toList = c.toList ++ [t] := by
  have hs : T.Covers s := covers_iff_cell?.mpr ⟨c, hc⟩
  have hnew : ¬c.contains t = true := fun h => ht (((hT hc).contains_iff t).mp h)
  refine ⟨c.push t, ?_, Cell.toList_push c t⟩
  rw [insert_of_cell? hc, if_neg hnew]
  exact cell?_put_self hs

theorem cell?_insert_of_ne {T : Table} {s u : Span} (h : u ≠ s) (t : Tree) :
    (T.insert s t).1.cell? u = T.cell? u := by
  rw [insert_eq_insertAll]
  exact cell?_insertAll_of_ne h.symm [t]

/-! ### The order of spans -/

theorem pairwise_spans (T : Table) : T.spans.Pairwise fun s u =>
    s.start < u.start ∨ s.start = u.start ∧ s.stop < u.stop := by
  rw [spans, List.pairwise_flatMap]
  constructor
  · intro i _
    rw [List.pairwise_map]
    refine (List.pairwise_lt_range' (s := i + 1) (n := T.size - i)).imp ?_
    intro j k hjk
    exact Or.inr ⟨rfl, hjk⟩
  · refine (List.pairwise_lt_range (n := T.size)).imp ?_
    intro i j hij s hs u hu
    obtain ⟨_, _, rfl⟩ := List.mem_map.mp hs
    obtain ⟨_, _, rfl⟩ := List.mem_map.mp hu
    exact Or.inl hij

/-! ### Every table that can be reached -/

theorem Reachable.covers_iff {n : ℕ} {T : Table} (hT : Reachable n T) {s : Span} :
    T.Covers s ↔ s.start < s.stop ∧ s.stop ≤ n := by
  rw [Covers, hT.size_eq]

/-- Whatever was done to a table for `n` tokens, it has a cell for each non-empty span inside the
input and for no other, and lists these spans in order. In each cell the set of the trees is that
of the list, which repeats none, so the list decides whether cells are equal. An insertion tells
whether it found the cell without the tree, and then appends the tree to that cell alone; else it
leaves the table as it was. -/
theorem Reachable.representation {n : ℕ} {T : Table} (hT : Reachable n T) :
    (∀ s, (T.cell? s).isSome = true ↔ s.start < s.stop ∧ s.stop ≤ n) ∧
    (∀ s, s ∈ T.spans ↔ s.start < s.stop ∧ s.stop ≤ n) ∧ T.spans.Nodup ∧
    (T.spans.Pairwise fun s u => s.start < u.start ∨ s.start = u.start ∧ s.stop < u.stop) ∧
    (∀ s c, T.cell? s = some c →
      c.toList.Nodup ∧ ∀ t, c.seen.contains t = true ↔ t ∈ c.toList) ∧
    (∀ m U, Reachable m U → ∀ s u c d, T.cell? s = some c → U.cell? u = some d →
      ((c == d) = true ↔ c.toList = d.toList)) ∧
    ∀ s t,
      ((T.insert s t).2 = true ↔ ∃ c, T.cell? s = some c ∧ t ∉ c.toList) ∧
      ((T.insert s t).2 = true → ∃ c d, T.cell? s = some c ∧
        (T.insert s t).1.cell? s = some d ∧ d.toList = c.toList ++ [t] ∧
        ∀ u, u ≠ s → (T.insert s t).1.cell? u = T.cell? u) ∧
      ((T.insert s t).2 = false → (T.insert s t).1 = T) := by
  have hcoh := hT.coherent
  refine ⟨?_, ?_, nodup_spans T, pairwise_spans T, ?_, ?_, ?_⟩
  · intro s
    rw [Option.isSome_iff_exists, ← covers_iff_cell?, hT.covers_iff]
  · intro s
    rw [mem_spans, hT.covers_iff]
  · intro s c hc
    exact ⟨(hcoh hc).nodup, (hcoh hc).contains_iff⟩
  · intro m U hU s u c d hc hd
    exact (hcoh hc).beq_iff (hU.coherent hd)
  · intro s t
    refine ⟨hcoh.insert_snd_eq_true_iff, ?_, insert_of_snd_eq_false⟩
    intro h
    obtain ⟨c, hc, ht⟩ := hcoh.insert_snd_eq_true_iff.mp h
    obtain ⟨d, hd, hlist⟩ := hcoh.cell?_insert_self hc ht
    exact ⟨c, d, hc, hd, hlist, fun u hu => cell?_insert_of_ne hu t⟩

/-- The two leaves, put together. No tree is taken at a span that ends with the greatest number of
64 bits, none at a span that runs backwards, and no leaf a second time at its span. -/
theorem Reachable.representation_handmade :
    let T := (handmade.fill Grammar.operators).table
    Reachable 3 T ∧ T.insert ⟨1, UInt64.size - 1⟩ (.leaf ⟨"a"⟩) = (T, false) ∧
      T.insert ⟨3, 1⟩ (.leaf ⟨"a"⟩) = (T, false) ∧
      T.insert ⟨0, 1⟩ (.leaf ⟨"S"⟩) = (T, false) ∧ (T.insert ⟨0, 1⟩ (.leaf ⟨"A"⟩)).2 = true := by
  intro T
  have hhand : Reachable 3 handmade := .insert _ _ (.insert _ _ .empty)
  have hreach : Reachable 3 T := .fill _ hhand
  obtain ⟨hsome, _, _, _, _, _, hinsert⟩ := hreach.representation
  have hrefused : ∀ s t, (∀ c, T.cell? s = some c → t ∈ c.toList) →
      T.insert s t = (T, false) := by
    intro s t hheld
    obtain ⟨hiff, _, hsame⟩ := hinsert s t
    have hfalse : (T.insert s t).2 = false := by
      rw [Bool.eq_false_iff, ne_eq, hiff]
      rintro ⟨c, hc, ht⟩
      exact ht (hheld c hc)
    exact Prod.ext (hsame hfalse) hfalse
  have houtside : ∀ s, ¬(s.start < s.stop ∧ s.stop ≤ 3) → ∀ c, T.cell? s ≠ some c := by
    intro s hs c hc
    rw [← hsome, hc] at hs
    exact hs rfl
  have hsame : T.treesAt ⟨0, 1⟩ = handmade.treesAt ⟨0, 1⟩ := by
    rw [treesAt, treesAt, cell?_fill_diagonal]
  have hleaf : handmade.treesAt ⟨0, 1⟩ = [.leaf ⟨"S"⟩] := by cbv
  refine ⟨hreach, ?_, ?_, ?_, ?_⟩
  · exact hrefused _ _ fun c hc => absurd hc (houtside _ (by decide) c)
  · exact hrefused _ _ fun c hc => absurd hc (houtside _ (by decide) c)
  · refine hrefused _ _ fun c hc => ?_
    rw [← treesAt_of_cell? hc, hsame, hleaf]
    exact List.mem_cons_self
  · obtain ⟨c, hc⟩ := Option.isSome_iff_exists.mp ((hsome ⟨0, 1⟩).mpr (by decide))
    refine (hinsert _ _).1.mpr ⟨c, hc, ?_⟩
    rw [← treesAt_of_cell? hc, hsame, hleaf]
    decide

end ChartParser.Table
