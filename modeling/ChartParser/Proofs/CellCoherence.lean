import ChartParser.Chart.Cell
import ChartParser.Proofs.AppendNew

/-!
# Coherent cells

A cell keeps its trees twice, as a list and as a set. The two are in step when
the list has no repetition and the set holds exactly its members. Insertion
keeps them so, and a coherent cell is then nothing more than its list: trees
are appended in order, those that are there already being passed over.
-/
namespace ChartParser

namespace Cell

theorem hasLabel_iff {c : Cell} {a : Symbol} :
    c.hasLabel a = true ↔ ∃ t ∈ c.toList, t.label = a := by
  simp only [hasLabel, toList, Array.any_eq_true', Array.mem_toList_iff, beq_iff_eq]

structure Coherent (c : Cell) : Prop where
  nodup : c.toList.Nodup
  contains_iff : ∀ t, c.contains t = true ↔ t ∈ c.toList

theorem coherent_empty : Coherent {} :=
  ⟨by simp [toList], fun t => by simp [toList, contains]⟩

theorem Coherent.push {c : Cell} (hc : c.Coherent) {t : Tree} (ht : t ∉ c.toList) :
    (c.push t).Coherent := by
  constructor
  · rw [toList_push]
    exact List.concat_eq_append ▸ hc.nodup.concat ht
  · intro u
    rw [contains_push, Bool.or_eq_true, beq_iff_eq, hc.contains_iff, toList_push,
      List.mem_append, List.mem_singleton, or_comm, eq_comm]

/-- The sets of coherent cells agree when their lists do. -/
theorem Coherent.beq_iff {c d : Cell} (hc : c.Coherent) (hd : d.Coherent) :
    (c == d) = true ↔ c.toList = d.toList := by
  have hunfold : (c == d) =
      (c.trees == d.trees && c.seen.all d.seen.contains && d.seen.all c.seen.contains) := rfl
  rw [hunfold, Bool.and_eq_true, Bool.and_eq_true, beq_iff_eq, and_assoc]
  constructor
  · intro h
    exact congrArg Array.toList h.1
  · intro h
    have hsame : ∀ t, t ∈ c.seen ↔ t ∈ d.seen := by
      intro t
      have hcd := hc.contains_iff t
      rw [h] at hcd
      exact hcd.trans (hd.contains_iff t).symm
    refine ⟨Array.toList_inj.mp h, ?_, ?_⟩
    · exact Std.HashSet.all_eq_true_iff_forall_mem.mpr fun t ht => (hsame t).mp ht
    · exact Std.HashSet.all_eq_true_iff_forall_mem.mpr fun t ht => (hsame t).mpr ht

/-- One insertion after the other does to the list what the name says, keeps the set in step,
and counts by how much the list grew. -/
theorem Coherent.insertAll {c : Cell} (hc : c.Coherent) (ts : List Tree) :
    (c.insertAll ts).1.Coherent ∧
      (c.insertAll ts).1.toList = appendNew c.toList ts ∧
      (appendNew c.toList ts).length = c.toList.length + (c.insertAll ts).2 := by
  induction ts generalizing c with
  | nil => exact ⟨hc, rfl, rfl⟩
  | cons t ts ih =>
      unfold Cell.insertAll appendNew
      by_cases ht : t ∈ c.toList
      · rw [if_pos ((hc.contains_iff t).mpr ht), if_pos ht]
        exact ih hc
      · rw [if_neg (fun h => ht ((hc.contains_iff t).mp h)), if_neg ht]
        obtain ⟨hcoh, hlist, hcount⟩ := ih (hc.push ht)
        rw [toList_push] at hlist hcount
        refine ⟨hcoh, hlist, ?_⟩
        rw [hcount, List.length_append, List.length_singleton]
        dsimp only
        omega

end Cell

end ChartParser
