import Mathlib.Data.List.Induction
import Mathlib.Data.List.Nodup
import Mathlib.Tactic.SplitIfs

/-!
# Appending what is new

Elements are appended to a list one after the other, those that are there
already being passed over. Begun with the empty list this lists a row of
elements in the order of their first appearance.
-/
namespace ChartParser
variable {α : Type} [DecidableEq α]

/-- The new elements one after the other, each left out if it is met again. -/
def appendNew (old : List α) : List α → List α
  | [] => old
  | a :: new => if a ∈ old then appendNew old new else appendNew (old ++ [a]) new

theorem mem_appendNew {old new : List α} {a : α} :
    a ∈ appendNew old new ↔ a ∈ old ∨ a ∈ new := by
  induction new generalizing old with
  | nil => simp [appendNew]
  | cons b new ih =>
      unfold appendNew
      split_ifs with hb
      · rw [ih, List.mem_cons]
        constructor
        · intro h
          rcases h with h | h
          · exact Or.inl h
          · exact Or.inr (Or.inr h)
        · intro h
          rcases h with h | rfl | h
          · exact Or.inl h
          · exact Or.inl hb
          · exact Or.inr h
      · rw [ih, List.mem_append, List.mem_singleton, List.mem_cons, or_assoc]

theorem prefix_appendNew (old new : List α) : old <+: appendNew old new := by
  induction new generalizing old with
  | nil => exact List.prefix_rfl
  | cons b new ih =>
      unfold appendNew
      split_ifs with hb
      · exact ih old
      · exact (List.prefix_append old [b]).trans (ih _)

theorem appendNew_eq_self {old new : List α} (h : ∀ a ∈ new, a ∈ old) :
    appendNew old new = old := by
  induction new with
  | nil => rfl
  | cons b new ih =>
      have hb : b ∈ old := h b List.mem_cons_self
      have htail : ∀ a ∈ new, a ∈ old := fun a ha => h a (List.mem_cons_of_mem b ha)
      rw [appendNew, if_pos hb, ih htail]

theorem appendNew_append (old new more : List α) :
    appendNew old (new ++ more) = appendNew (appendNew old new) more := by
  induction new generalizing old with
  | nil => rfl
  | cons b new ih =>
      rw [List.cons_append, appendNew, appendNew]
      split_ifs
      · exact ih old
      · exact ih (old ++ [b])

theorem appendNew_singleton (old : List α) (a : α) :
    appendNew old [a] = if a ∈ old then old else old ++ [a] := by
  rw [appendNew, appendNew, appendNew]

/-- What an old list keeps out is left out of the new elements, and nothing else changes. -/
theorem appendNew_eq_append_filter (old new : List α) :
    appendNew old new = old ++ (appendNew [] new).filter (· ∉ old) := by
  induction new using List.reverseRecOn with
  | nil => simp [appendNew]
  | append_singleton new a ih =>
      rw [appendNew_append, appendNew_append, appendNew_singleton, appendNew_singleton]
      by_cases hnew : a ∈ new
      · rw [if_pos (mem_appendNew.mpr (Or.inr hnew)), if_pos (mem_appendNew.mpr (Or.inr hnew)), ih]
      · by_cases hold : a ∈ old <;> simp [mem_appendNew, hnew, hold, ih]

theorem appendNew_sublist (row : List α) : (appendNew [] row).Sublist row := by
  induction row using List.reverseRecOn with
  | nil => exact List.Sublist.refl _
  | append_singleton row a ih =>
      rw [appendNew_append, appendNew_singleton]
      split_ifs
      · exact ih.trans (List.sublist_append_left row [a])
      · exact ih.append_right [a]

/-- Rows that are increasing but for repetitions, one after the other and themselves in an
increasing order but for repetitions, make a row that is increasing but for repetitions. -/
theorem pairwise_appendNew_flatMap {β : Type} [DecidableEq β] {R : α → α → Prop} {f : β → List α}
    {row : List β} (hrow : (appendNew [] row).Pairwise fun b c => ∀ x ∈ f b, ∀ y ∈ f c, R x y)
    (hf : ∀ b ∈ row, (appendNew [] (f b)).Pairwise R) :
    (appendNew [] (row.flatMap f)).Pairwise R := by
  induction row using List.reverseRecOn with
  | nil => exact List.Pairwise.nil
  | append_singleton row c ih =>
      have hstart := ih (hrow.sublist ?_) fun b hb => hf b (List.mem_append_left [c] hb)
      · rw [List.flatMap_append, List.flatMap_singleton, appendNew_append]
        by_cases hc : c ∈ row
        · rw [appendNew_eq_self]
          · exact hstart
          · intro x hx
            exact mem_appendNew.mpr (Or.inr (List.mem_flatMap.mpr ⟨c, hc, hx⟩))
        · rw [appendNew_eq_append_filter, List.pairwise_append]
          have hlast := hf c (List.mem_append_right row (List.mem_singleton_self c))
          refine ⟨hstart, hlast.filter _, ?_⟩
          intro x hx y hy
          obtain ⟨b, hb, hxb⟩ : ∃ b ∈ row, x ∈ f b := by
            simpa [mem_appendNew] using hx
          have hyc : y ∈ f c := by
            simpa [mem_appendNew] using List.mem_of_mem_filter hy
          have hnot : c ∉ appendNew [] row := by
            simpa [mem_appendNew] using hc
          rw [appendNew_append, appendNew_singleton, if_neg hnot, List.pairwise_append] at hrow
          exact hrow.2.2 b (mem_appendNew.mpr (Or.inr hb)) c (List.mem_singleton_self c) x hxb y hyc
      · rw [appendNew_append]
        exact (prefix_appendNew _ _).sublist

theorem eraseDups_eq_appendNew (row : List α) : row.eraseDups = appendNew [] row := by
  induction row using List.reverseRecOn with
  | nil => rfl
  | append_singleton row a ih =>
      have hmem : a ∈ appendNew [] row ↔ a ∈ row := by
        rw [mem_appendNew]
        simp
      rw [List.eraseDups_append, ih, appendNew_append, appendNew_singleton]
      by_cases ha : a ∈ row
      · rw [if_pos (hmem.mpr ha)]
        simp [List.removeAll, ha]
      · rw [if_neg fun h => ha (hmem.mp h)]
        simp [List.removeAll, ha, List.eraseDups_cons]

/-! ### First appearances -/

/-- The list has each element of the row once, and the one that appears earlier in the row
before the one that appears later. -/
structure FirstAppearances (row listed : List α) : Prop where
  nodup : listed.Nodup
  mem_iff : ∀ a, a ∈ listed ↔ a ∈ row
  ordered : listed.Pairwise fun a b => row.idxOf a < row.idxOf b

theorem FirstAppearances.unique {row listed listed' : List α} (h : FirstAppearances row listed)
    (h' : FirstAppearances row listed') : listed = listed' := by
  have hmem : ∀ a, a ∈ listed ↔ a ∈ listed' := fun a => (h.mem_iff a).trans (h'.mem_iff a).symm
  have hperm : listed.Perm listed' := (List.perm_ext_iff_of_nodup h.nodup h'.nodup).mpr hmem
  refine List.Perm.eq_of_pairwise (fun a b _ _ hab hba => ?_) h.ordered h'.ordered hperm
  omega

theorem firstAppearances_appendNew (row : List α) : FirstAppearances row (appendNew [] row) := by
  induction row using List.reverseRecOn with
  | nil => exact ⟨List.nodup_nil, fun _ => Iff.rfl, List.Pairwise.nil⟩
  | append_singleton row a ih =>
      have hkeep : (appendNew [] row).Pairwise fun b c =>
          (row ++ [a]).idxOf b < (row ++ [a]).idxOf c := by
        refine ih.ordered.imp_of_mem fun {b c} hb hc hlt => ?_
        rwa [List.idxOf_append_of_mem ((ih.mem_iff b).mp hb),
          List.idxOf_append_of_mem ((ih.mem_iff c).mp hc)]
      rw [appendNew_append, appendNew_singleton]
      split_ifs with ha
      · refine ⟨ih.nodup, fun b => ?_, hkeep⟩
        rw [List.mem_append, List.mem_singleton, ih.mem_iff]
        constructor
        · exact Or.inl
        · intro h
          rcases h with h | rfl
          · exact h
          · exact (ih.mem_iff b).mp ha
      · refine ⟨List.concat_eq_append ▸ ih.nodup.concat ha, fun b => ?_, ?_⟩
        · rw [List.mem_append, List.mem_append, ih.mem_iff]
        · rw [List.pairwise_append]
          refine ⟨hkeep, List.pairwise_singleton _ _, fun b hb c hc => ?_⟩
          rw [List.mem_singleton] at hc
          subst hc
          have hb' : b ∈ row := (ih.mem_iff b).mp hb
          have hc' : c ∉ row := fun h => ha ((ih.mem_iff c).mpr h)
          have hlt : row.idxOf b < row.length := List.idxOf_lt_length_iff.mpr hb'
          rw [List.idxOf_append_of_mem hb', List.idxOf_append_of_notMem hc']
          omega

end ChartParser
