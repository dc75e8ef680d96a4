import ChartParser.Derivation
import Mathlib.Data.List.Perm.Subperm
import Mathlib.Data.Nat.Find

/-!
# Least heights of derivations

A symbol with a finite derivation has a lowest one. Under the root of a lowest
derivation of height `n + 1` some symbol has least height `n`, so the least
heights that occur have no gap below them and there are no more of them than
non-terminals. Nothing here is computed; rules are arbitrary.
-/
namespace ChartParser

namespace Derivation

theorem ValidFor.isNonTerminal_of_height_pos {g : Grammar} {d : Derivation} (h : d.ValidFor g)
    (hd : 0 < d.height) : g.isNonTerminal d.root = true := by
  cases h with
  | terminal _ => simp [height] at hd
  | @node r children hr _ _ => exact Grammar.isNonTerminal_iff.mpr ⟨r, hr, rfl⟩

/-- Derivations of the symbols of a row, each no higher than asked, make a row themselves. -/
theorem exists_row {g : Grammar} {n : ℕ} {row : List Symbol}
    (h : ∀ s ∈ row, ∃ d : Derivation, d.ValidFor g ∧ d.root = s ∧ d.height ≤ n) :
    ∃ ds : List Derivation, ds.map root = row ∧ (∀ d ∈ ds, d.ValidFor g) ∧ highest ds ≤ n := by
  induction row with
  | nil => exact ⟨[], rfl, by simp, Nat.zero_le n⟩
  | cons s row ih =>
      obtain ⟨d, hd, hroot, hheight⟩ := h s List.mem_cons_self
      obtain ⟨ds, hroots, hvalid, hhighest⟩ := ih fun u hu => h u (List.mem_cons_of_mem s hu)
      refine ⟨d :: ds, by rw [List.map_cons, hroot, hroots], ?_, ?_⟩
      · exact List.forall_mem_cons.mpr ⟨hd, hvalid⟩
      · rw [highest]
        omega

end Derivation

namespace Grammar

/-- Some derivation from the symbol has this height, and none is lower. -/
structure LeastHeight (g : Grammar) (s : Symbol) (n : ℕ) : Prop where
  exists_derivation : ∃ d : Derivation, d.ValidFor g ∧ d.root = s ∧ d.height = n
  le_height : ∀ d : Derivation, d.ValidFor g → d.root = s → n ≤ d.height

theorem LeastHeight.unique {g : Grammar} {s : Symbol} {m n : ℕ} (hm : g.LeastHeight s m)
    (hn : g.LeastHeight s n) : m = n := by
  obtain ⟨d, hd, hroot, hheight⟩ := hm.exists_derivation
  obtain ⟨e, he, hroot', hheight'⟩ := hn.exists_derivation
  have hle := hm.le_height e he hroot'
  have hge := hn.le_height d hd hroot
  omega

theorem exists_leastHeight {g : Grammar} {d : Derivation} (hd : d.ValidFor g) :
    ∃ n, g.LeastHeight d.root n := by
  classical
  have hex : ∃ n, ∃ e : Derivation, e.ValidFor g ∧ e.root = d.root ∧ e.height = n :=
    ⟨d.height, d, hd, rfl, rfl⟩
  refine ⟨Nat.find hex, Nat.find_spec hex, ?_⟩
  intro e he hroot
  exact Nat.find_le ⟨e, he, hroot, rfl⟩

/-- Were all symbols below the root lower still, the derivation would not be a lowest one. -/
theorem LeastHeight.exists_below {g : Grammar} {s : Symbol} {n : ℕ}
    (h : g.LeastHeight s (n + 2)) : ∃ u, g.LeastHeight u (n + 1) := by
  obtain ⟨d, hd, rfl, hheight⟩ := h.exists_derivation
  cases hd with
  | terminal _ => simp [Derivation.height] at hheight
  | @node r children hr hroots hvalid =>
      by_contra hnone
      have hlower : ∀ u ∈ r.rhs, ∃ e : Derivation, e.ValidFor g ∧ e.root = u ∧ e.height ≤ n := by
        intro u hu
        rw [← hroots, List.mem_map] at hu
        obtain ⟨child, hchild, rfl⟩ := hu
        obtain ⟨m, hm⟩ := exists_leastHeight (hvalid child hchild)
        have hle := hm.le_height child (hvalid child hchild) rfl
        have hhighest := Derivation.height_le_highest hchild
        have hne : m ≠ n + 1 := fun heq => hnone ⟨child.root, heq ▸ hm⟩
        obtain ⟨e, he, hroot, heq⟩ := hm.exists_derivation
        rw [Derivation.height] at hheight
        exact ⟨e, he, hroot, by omega⟩
      obtain ⟨ds, hroots', hvalid', hhighest⟩ := Derivation.exists_row hlower
      have hle := h.le_height (.node r.lhs ds) (.node hr hroots' hvalid') rfl
      rw [Derivation.height] at hle
      omega

/-- A symbol of every least height from one up to that of the given symbol. -/
theorem LeastHeight.exists_chain {g : Grammar} {s : Symbol} {n : ℕ} (h : g.LeastHeight s n) :
    ∃ chain : List Symbol, chain.length = n ∧ chain.Nodup ∧
      ∀ u ∈ chain, g.isNonTerminal u = true ∧ ∃ m ≤ n, g.LeastHeight u m := by
  induction n generalizing s with
  | zero => exact ⟨[], rfl, List.nodup_nil, by simp⟩
  | succ n ih =>
      have hbelow : ∃ chain : List Symbol, chain.length = n ∧ chain.Nodup ∧
          ∀ u ∈ chain, g.isNonTerminal u = true ∧ ∃ m ≤ n, g.LeastHeight u m := by
        cases n with
        | zero => exact ⟨[], rfl, List.nodup_nil, by simp⟩
        | succ n =>
            obtain ⟨u, hu⟩ := h.exists_below
            exact ih hu
      obtain ⟨chain, hlength, hnodup, hchain⟩ := hbelow
      refine ⟨s :: chain, by rw [List.length_cons, hlength], ?_, ?_⟩
      · rw [List.nodup_cons]
        refine ⟨?_, hnodup⟩
        intro hs
        obtain ⟨_, m, hm, hleast⟩ := hchain s hs
        have := hleast.unique h
        omega
      · intro u hu
        rcases List.mem_cons.mp hu with rfl | hu
        · obtain ⟨d, hd, hroot, hheight⟩ := h.exists_derivation
          refine ⟨?_, n + 1, Nat.le_refl _, h⟩
          rw [← hroot]
          exact hd.isNonTerminal_of_height_pos (by omega)
        · obtain ⟨hnt, m, hm, hleast⟩ := hchain u hu
          exact ⟨hnt, m, by omega, hleast⟩

/-- Any list that has all non-terminals is at least as long. -/
theorem LeastHeight.le_length {g : Grammar} {s : Symbol} {n : ℕ} (h : g.LeastHeight s n)
    {heads : List Symbol} (hheads : ∀ u, g.isNonTerminal u = true → u ∈ heads) :
    n ≤ heads.length := by
  obtain ⟨chain, hlength, hnodup, hchain⟩ := h.exists_chain
  rw [← hlength]
  apply List.Subperm.length_le
  apply List.subperm_of_subset hnodup
  intro u hu
  exact hheads u (hchain u hu).1

theorem LeastHeight.le_length_rules {g : Grammar} {s : Symbol} {n : ℕ} (h : g.LeastHeight s n) :
    n ≤ g.rules.length := by
  have hlength : (g.rules.map Rule.lhs).length = g.rules.length := List.length_map _
  rw [← hlength]
  apply h.le_length
  intro u hu
  exact List.mem_map.mpr (isNonTerminal_iff.mp hu)

end Grammar

end ChartParser
