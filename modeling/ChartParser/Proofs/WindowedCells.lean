import ChartParser.Proofs.ParseOutcome

/-!
# Cells and their part of the word

A cell is decided by the tokens that it covers. In a longer word the loop over
spans meets the same tokens at other positions, at other times and between
other spans. None of that occurs in the equation that filling solves, so the
cells of two words over the same tokens hold the same trees in the same order.
-/
namespace ChartParser

namespace Span

/-- The span of the same length further to the right. -/
def shift (s : Span) (i : ℕ) : Span := ⟨i + s.start, i + s.stop⟩

@[simp] theorem length_shift (s : Span) (i : ℕ) : (s.shift i).length = s.length := by
  simp only [shift, length]
  omega

theorem cuts_shift (s : Span) (i : ℕ) : (s.shift i).cuts = s.cuts.map (i + ·) := by
  rw [cuts, cuts, length_shift, List.map_add_range']
  rfl

theorem getElem_slice {α : Type} {s : Span} {word : List α} {k : ℕ}
    (hk : k < (s.slice word).length) (hword : s.start + k < word.length) :
    (s.slice word)[k] = word[s.start + k] := by
  simp [slice]

end Span

namespace Grammar

/-- By induction on the length of the span: a cut of the span further to the right is a cut of
the span itself, and the parts on both sides of it are shorter. -/
theorem treesAt_wordTable_shift (g : Grammar) {word : List String} {i j : ℕ}
    (hj : j ≤ word.length) {s : Span} (hs : s.start < s.stop) (hstop : s.stop ≤ j - i) :
    (g.wordTable word).treesAt (s.shift i) =
      (g.wordTable (Span.slice ⟨i, j⟩ word)).treesAt s := by
  have hwindow : (Span.slice ⟨i, j⟩ word).length = j - i := Span.length_slice hj
  induction hn : s.length using Nat.strongRecOn generalizing s with
  | ind n ih =>
      subst hn
      by_cases hone : s.length = 1
      · obtain ⟨a, b⟩ := s
        obtain rfl : b = a + 1 := by simp only [Span.length] at hone hs; omega
        dsimp only at hstop
        have ha : a < (Span.slice ⟨i, j⟩ word).length := by omega
        have hia : i + a < word.length := by omega
        rw [treesAt_wordTable_diagonal g ha, Span.getElem_slice ha hia]
        exact treesAt_wordTable_diagonal g hia
      · have htwo : 2 ≤ s.length := by simp only [Span.length] at hone hs ⊢; omega
        have hcombine : (g.wordTable word).combinations g (s.shift i) =
            (g.wordTable (Span.slice ⟨i, j⟩ word)).combinations g s := by
          rw [Table.combinations, Table.combinations, Span.cuts_shift, List.flatMap_map]
          refine List.flatMap_congr fun k hk => ?_
          have hcut := Span.mem_cuts.mp hk
          have hleft := ih _ (Span.length_left_lt hk) (s := ⟨s.start, k⟩) hcut.1
            (Nat.le_trans (Nat.le_of_lt hcut.2) hstop) rfl
          have hright := ih _ (Span.length_right_lt hk) (s := ⟨k, s.stop⟩) hcut.2 hstop rfl
          rw [← hleft, ← hright]
          rfl
        have hstop' : (s.shift i).stop ≤ word.length := by
          simp only [Span.shift]
          omega
        rw [treesAt_wordTable_of_two_le g hstop' (by rwa [Span.length_shift]), hcombine,
          treesAt_wordTable_of_two_le g (by omega) htwo]

end Grammar

/-- Both tables have a cell for the span, and the two cells are the same, with the same trees in
the same order. -/
def Table.SameCell (T : Table) (s : Span) (U : Table) (u : Span) : Prop :=
  ∃ c d, T.cell? s = some c ∧ U.cell? u = some d ∧ (c == d) = true ∧ c.toList = d.toList

theorem Table.Coherent.sameCell {T U : Table} (hT : T.Coherent) (hU : U.Coherent) {s u : Span}
    (hs : T.Covers s) (hu : U.Covers u) (h : T.treesAt s = U.treesAt u) : T.SameCell s U u := by
  obtain ⟨c, hc⟩ := covers_iff_cell?.mp hs
  obtain ⟨d, hd⟩ := covers_iff_cell?.mp hu
  rw [treesAt_of_cell? hc, treesAt_of_cell? hd] at h
  exact ⟨c, d, hc, hd, (Cell.Coherent.beq_iff (hT hc) (hU hd)).mpr h, h⟩

namespace Grammar

/-- A cell inside a window of a word is the cell of the window read as a word by itself, for
grammars of any form; so it is the same in every word that has the same tokens there, whatever
stands before and after them. -/
theorem sameCell_window (g : Grammar) (word : List String) {i j : ℕ} (hj : j ≤ word.length) :
    (∀ a b, a < b → b ≤ j - i →
      ((g.seed word).1.fill g).table.SameCell ⟨i + a, i + b⟩
        ((g.seed (Span.slice ⟨i, j⟩ word)).1.fill g).table ⟨a, b⟩) ∧
    ∀ (word' : List String) (i' j' : ℕ), j' ≤ word'.length →
      Span.slice ⟨i', j'⟩ word' = Span.slice ⟨i, j⟩ word → ∀ a b, a < b → b ≤ j - i →
        ((g.seed word).1.fill g).table.SameCell ⟨i + a, i + b⟩
          ((g.seed word').1.fill g).table ⟨i' + a, i' + b⟩ := by
  have hcovers : ∀ (u : List String) (s : Span), s.start < s.stop → s.stop ≤ u.length →
      (g.wordTable u).Covers s := by
    intro u s hs hstop
    exact ⟨hs, by rwa [size_wordTable]⟩
  have hwindow : (Span.slice ⟨i, j⟩ word).length = j - i := Span.length_slice hj
  constructor
  · intro a b hab hb
    refine (coherent_wordTable g word).sameCell (coherent_wordTable g _) ?_ ?_ ?_
    · exact hcovers word ⟨i + a, i + b⟩ (by dsimp only; omega) (by dsimp only; omega)
    · exact hcovers _ ⟨a, b⟩ hab (by dsimp only; omega)
    · exact treesAt_wordTable_shift g hj (s := ⟨a, b⟩) hab hb
  · intro word' i' j' hj' hsame a b hab hb
    have hwindow' : (Span.slice ⟨i', j'⟩ word').length = j' - i' := Span.length_slice hj'
    rw [hsame] at hwindow'
    refine (coherent_wordTable g word).sameCell (coherent_wordTable g word') ?_ ?_ ?_
    · exact hcovers word ⟨i + a, i + b⟩ (by dsimp only; omega) (by dsimp only; omega)
    · exact hcovers word' ⟨i' + a, i' + b⟩ (by dsimp only; omega) (by dsimp only; omega)
    · have hleft := treesAt_wordTable_shift g hj (s := ⟨a, b⟩) hab hb
      have hright := treesAt_wordTable_shift g (i := i') hj' (s := ⟨a, b⟩) hab
        (by dsimp only; omega)
      rw [hsame] at hright
      exact hleft.trans hright.symm

/-- The operation `a c a` at the end of one word and at the beginning of another. -/
theorem sameCell_window_operators :
    let word := ["a", "b", "a", "c", "a"]
    let word' := ["a", "c", "a", "b", "a"]
    5 ≤ word.length ∧ 3 ≤ word'.length ∧ Span.slice ⟨0, 3⟩ word' = Span.slice ⟨2, 5⟩ word ∧
      ((operators.seed word).1.fill operators).table.SameCell ⟨2, 5⟩
        ((operators.seed word').1.fill operators).table ⟨0, 3⟩ ∧
      joined "C" "c" operand operand ∈
        ((operators.seed word).1.fill operators).table.treesAt ⟨2, 5⟩ := by
  intro word word'
  have hsame := (sameCell_window operators word (i := 2) (j := 5) (by decide)).2 word' 0 3
    (by decide) (by decide) 0 3 (by decide) (by decide)
  have htree : (joined "C" "c" operand operand).ValidFor operators :=
    validFor_joined (by decide) (by decide) validFor_operand validFor_operand rfl rfl
  have hmem := (mem_treesAt_wordTable operators word (s := ⟨2, 5⟩) (by decide) (by decide)).mpr
    ⟨htree, rfl⟩
  exact ⟨by decide, by decide, by decide, hsame, hmem⟩

end Grammar

end ChartParser
