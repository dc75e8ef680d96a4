import ChartParser.Proofs.SeededDiagonal
import Mathlib.Data.List.Basic

/-!
# The parse forest

A cell of the filled table holds the derivation trees of its part of the word,
all of them and nothing else. Soundness and completeness are one equivalence,
proved along the equation that filling solves by induction on the length of the
span: a tree over more than one token says by the number of leaves of its left
child at which cut it was found.
-/
namespace ChartParser

/-- The tokens at the positions of a span. -/
def Span.slice {α : Type} (s : Span) (word : List α) : List α :=
  (word.take s.stop).drop s.start

namespace Span
variable {α : Type}

theorem length_slice {s : Span} {word : List α} (hs : s.stop ≤ word.length) :
    (s.slice word).length = s.length := by
  simp only [slice, length, List.length_drop, List.length_take, Nat.min_eq_left hs]

theorem slice_append {word : List α} {i k j : ℕ} (hik : i ≤ k) (hkj : k ≤ j) :
    slice ⟨i, k⟩ word ++ slice ⟨k, j⟩ word = slice ⟨i, j⟩ word := by
  have htake : word.take k = (word.take j).take k := by
    rw [List.take_take, Nat.min_eq_left hkj]
  simp only [slice]
  rw [htake]
  obtain ⟨m, rfl⟩ := Nat.exists_eq_add_of_le hik
  rw [List.drop_take, Nat.add_sub_cancel_left, ← List.drop_drop, List.take_append_drop]

theorem slice_single {word : List α} {i : ℕ} (hi : i < word.length) :
    slice ⟨i, i + 1⟩ word = [word[i]] := by
  simp only [slice]
  rw [List.take_succ_eq_append_getElem hi, List.drop_left' (by simp; omega)]

theorem slice_whole (word : List α) : slice ⟨0, word.length⟩ word = word := by
  simp only [slice, List.take_length, List.drop_zero]

end Span

namespace Tree

theorem length_leaves_pos (t : Tree) : 0 < t.leaves.length :=
  List.length_pos_of_ne_nil t.leaves_ne_nil

/-- The trees over one token are made by the one-symbol rules for it. -/
theorem validFor_and_leaves_eq_singleton {g : Grammar} {t : Tree} {token : String} :
    t.ValidFor g ∧ t.leaves = [token] ↔
      ∃ a, ⟨a, [⟨token⟩]⟩ ∈ g.rules ∧ t = .unary a (.leaf ⟨token⟩) := by
  constructor
  · intro h
    obtain ⟨ht, hleaves⟩ := h
    cases ht with
    | @unary a b hrule =>
        obtain rfl : b = ⟨token⟩ := by
          cases b
          simpa [leaves] using hleaves
        exact ⟨a, hrule, rfl⟩
    | @binary a l r _ _ _ =>
        have hlen := congrArg List.length hleaves
        have hl := l.length_leaves_pos
        have hr := r.length_leaves_pos
        simp only [leaves, List.length_append, List.length_singleton] at hlen
        omega
  · intro h
    obtain ⟨a, hrule, rfl⟩ := h
    exact ⟨.unary hrule, rfl⟩

/-- A tree over several tokens falls into the trees over the parts at a cut. -/
theorem validFor_and_leaves_eq_slice {g : Grammar} {t : Tree} {word : List String} {s : Span}
    (hstop : s.stop ≤ word.length) (hs : 2 ≤ s.length) :
    t.ValidFor g ∧ t.leaves = s.slice word ↔
      ∃ k ∈ s.cuts, ∃ a l r, (l.ValidFor g ∧ l.leaves = Span.slice ⟨s.start, k⟩ word) ∧
        (r.ValidFor g ∧ r.leaves = Span.slice ⟨k, s.stop⟩ word) ∧
        ⟨a, [l.label, r.label]⟩ ∈ g.rules ∧ t = .binary a l r := by
  have hwhole := Span.length_slice hstop
  simp only [Span.length] at hs hwhole
  constructor
  · intro h
    obtain ⟨ht, hleaves⟩ := h
    cases ht with
    | unary _ =>
        rw [← hleaves] at hwhole
        simp only [leaves, List.length_singleton] at hwhole
        omega
    | @binary a l r hrule hl hr =>
        have hlpos := l.length_leaves_pos
        have hrpos := r.length_leaves_pos
        rw [← hleaves] at hwhole
        simp only [leaves, List.length_append] at hwhole
        have hcut : s.start + l.leaves.length ∈ s.cuts := Span.mem_cuts.mpr (by omega)
        have hsplit : l.leaves ++ r.leaves =
            Span.slice ⟨s.start, s.start + l.leaves.length⟩ word ++
              Span.slice ⟨s.start + l.leaves.length, s.stop⟩ word := by
          rw [Span.slice_append (by omega) (by omega)]
          exact hleaves
        have hlength : l.leaves.length =
            (Span.slice ⟨s.start, s.start + l.leaves.length⟩ word).length := by
          rw [Span.length_slice (by dsimp only; omega)]
          simp only [Span.length]
          omega
        obtain ⟨hleft, hright⟩ := List.append_inj hsplit hlength
        exact ⟨_, hcut, a, l, r, ⟨hl, hleft⟩, ⟨hr, hright⟩, hrule, rfl⟩
  · intro h
    obtain ⟨k, hk, a, l, r, ⟨hl, hleft⟩, ⟨hr, hright⟩, hrule, rfl⟩ := h
    have hcut := Span.mem_cuts.mp hk
    refine ⟨.binary hrule hl hr, ?_⟩
    rw [leaves, hleft, hright, Span.slice_append (by omega) (by omega)]

end Tree

namespace Grammar

/-- The filled table of a word, for a grammar of any form. -/
def wordTable (g : Grammar) (word : List String) : Table :=
  ((g.seed word).1.fill g).table

@[simp] theorem size_wordTable (g : Grammar) (word : List String) :
    (g.wordTable word).size = word.length := by
  rw [wordTable, Table.size_fill, size_seed]

theorem coherent_wordTable (g : Grammar) (word : List String) : (g.wordTable word).Coherent :=
  (coherent_seed g word).fill g

theorem treesAt_wordTable_diagonal (g : Grammar) {word : List String} {i : ℕ}
    (hi : i < word.length) :
    (g.wordTable word).treesAt ⟨i, i + 1⟩ = appendNew [] (g.tokenTrees word[i]) := by
  have hcov : (g.seed word).1.Covers ⟨i, i + 1⟩ :=
    ⟨by simp, by rw [size_seed]; exact hi⟩
  rw [wordTable, (coherent_seed g word).treesAt_fill g hcov,
    Table.combinations_of_length_le_one (by simp [Span.length]), treesAt_seed_diagonal g hi]
  rfl

theorem treesAt_wordTable_of_two_le (g : Grammar) {word : List String} {s : Span}
    (hstop : s.stop ≤ word.length) (hs : 2 ≤ s.length) :
    (g.wordTable word).treesAt s = appendNew [] ((g.wordTable word).combinations g s) := by
  have hcov : (g.seed word).1.Covers s := by
    refine ⟨?_, by rwa [size_seed]⟩
    simp only [Span.length] at hs
    omega
  rw [wordTable, (coherent_seed g word).treesAt_fill g hcov,
    treesAt_seed_of_length_ne_one g word (by omega)]

theorem mem_treesAt_wordTable (g : Grammar) (word : List String) {s : Span}
    (hs : s.start < s.stop) (hstop : s.stop ≤ word.length) {t : Tree} :
    t ∈ (g.wordTable word).treesAt s ↔ t.ValidFor g ∧ t.leaves = s.slice word := by
  induction hn : s.length using Nat.strongRecOn generalizing s t with
  | ind n ih =>
      subst hn
      by_cases hone : s.length = 1
      · obtain ⟨i, j⟩ := s
        obtain rfl : j = i + 1 := by simp only [Span.length] at hone hs; omega
        rw [treesAt_wordTable_diagonal g hstop, mem_appendNew, mem_tokenTrees,
          Span.slice_single hstop, Tree.validFor_and_leaves_eq_singleton]
        simp
      · have htwo : 2 ≤ s.length := by simp only [Span.length] at hone ⊢; omega
        rw [treesAt_wordTable_of_two_le g hstop htwo, mem_appendNew, Table.mem_combinations,
          Tree.validFor_and_leaves_eq_slice hstop htwo]
        simp only [List.not_mem_nil, false_or]
        refine exists_congr fun k => and_congr_right fun hk => exists_congr fun a => ?_
        have hcut := Span.mem_cuts.mp hk
        have hleft : ∀ l, l ∈ (g.wordTable word).treesAt ⟨s.start, k⟩ ↔
            l.ValidFor g ∧ l.leaves = Span.slice ⟨s.start, k⟩ word := fun l =>
          ih _ (Span.length_left_lt hk) (s := ⟨s.start, k⟩) hcut.1 (by dsimp only; omega) rfl
        have hright : ∀ r, r ∈ (g.wordTable word).treesAt ⟨k, s.stop⟩ ↔
            r.ValidFor g ∧ r.leaves = Span.slice ⟨k, s.stop⟩ word := fun r =>
          ih _ (Span.length_right_lt hk) (s := ⟨k, s.stop⟩) hcut.2 hstop rfl
        simp only [hleft, hright, exists_and_left]

/-- Every span of the word has a cell, in which each of its trees stands once. -/
theorem exists_cell?_wordTable (g : Grammar) (word : List String) {i j : ℕ} (hij : i < j)
    (hj : j ≤ word.length) : ∃ c, (g.wordTable word).cell? ⟨i, j⟩ = some c ∧ c.toList.Nodup ∧
      ∀ t, t ∈ c.toList ↔ t.ValidFor g ∧ t.leaves = Span.slice ⟨i, j⟩ word := by
  have hcovers : (g.wordTable word).Covers ⟨i, j⟩ := ⟨hij, by rwa [size_wordTable]⟩
  obtain ⟨c, hc⟩ := Table.covers_iff_cell?.mp hcovers
  refine ⟨c, hc, (coherent_wordTable g word hc).nodup, ?_⟩
  intro t
  rw [← Table.treesAt_of_cell? hc]
  exact mem_treesAt_wordTable g word hij hj

/-- The empty word has no topmost cell, and no tree is without leaves. -/
theorem mem_treesAt_whole {g : Grammar} {word : List String} {t : Tree} :
    t ∈ (g.wordTable word).treesAt ⟨0, word.length⟩ ↔ t.ValidFor g ∧ t.leaves = word := by
  by_cases hempty : word = []
  · have hnone : (g.wordTable word).treesAt ⟨0, word.length⟩ = [] := by
      apply Table.treesAt_of_not_covers
      rw [hempty]
      simp [Table.Covers]
    rw [hnone, hempty]
    simp [t.leaves_ne_nil]
  · have hpos : 0 < word.length := List.length_pos_of_ne_nil hempty
    rw [mem_treesAt_wordTable g word hpos (Nat.le_refl _), Span.slice_whole]

end Grammar

end ChartParser
