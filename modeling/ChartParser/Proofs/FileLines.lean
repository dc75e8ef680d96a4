import ChartParser.Text.Lines
import Mathlib.Data.List.Basic

/-!
# Cutting a text into lines

The lines of a text are found from the front: a piece without a feed that is
followed by one is the first line, and what comes after the feed is cut in the
same way. No line has a feed in it, and a text is written in one list of lines
only.
-/
namespace ChartParser.Text
variable {α : Type}

theorem eq_false_of_mem_splitOnP {p : α → Bool} {units piece : List α}
    (h : piece ∈ units.splitOnP p) : ∀ a ∈ piece, p a = false := by
  induction units generalizing piece with
  | nil =>
      rw [List.splitOnP_nil, List.mem_singleton] at h
      simp [h]
  | cons b rest ih =>
      rw [List.splitOnP_cons_eq_if_modifyHead] at h
      split_ifs at h with hb
      · rcases List.mem_cons.mp h with rfl | h
        · simp
        · exact ih h
      · -- The first piece is longer by a unit that is no separator; the others are as before.
        obtain ⟨first, others, hsplit⟩ := List.exists_cons_of_ne_nil (List.splitOnP_ne_nil p rest)
        rw [hsplit] at h ih
        rw [List.modifyHead_cons] at h
        rcases List.mem_cons.mp h with rfl | h
        · exact List.forall_mem_cons.mpr ⟨by simpa using hb, ih List.mem_cons_self⟩
        · exact ih (List.mem_cons_of_mem first h)

variable [DecidableEq α]

theorem not_mem_of_mem_splitOn {sep : α} {units piece : List α}
    (h : piece ∈ units.splitOn sep) : sep ∉ piece := by
  rw [List.splitOn_eq_splitOnP] at h
  intro hsep
  have hfalse := eq_false_of_mem_splitOnP h sep hsep
  simp at hfalse

variable {feed ret : α}

theorem lines_append_feed {piece : List α} (hpiece : feed ∉ piece) (rest : List α) :
    lines feed ret (piece ++ feed :: rest) = dropReturn ret piece :: lines feed ret rest := by
  have hrest : rest.splitOn feed ≠ [] := List.splitOn_ne_nil feed rest
  simp only [lines]
  rw [List.splitOn_append_cons_self_of_not_mem hpiece, List.dropLast_cons_of_ne_nil hrest,
    List.getLast?_cons_of_ne_nil hrest, List.map_cons, List.cons_append]

/-- Pieces that end with a feed each are the lines, but for their returns. -/
theorem lines_flatMap_feed {pieces : List (List α)} (h : ∀ piece ∈ pieces, feed ∉ piece) :
    lines feed ret (pieces.flatMap (· ++ [feed])) = pieces.map (dropReturn ret) := by
  induction pieces with
  | nil => rfl
  | cons piece pieces ih =>
      have hpiece : feed ∉ piece := h piece List.mem_cons_self
      have hpieces := ih fun p hp => h p (List.mem_cons_of_mem piece hp)
      rw [List.flatMap_cons, List.append_assoc, List.singleton_append,
        lines_append_feed hpiece, hpieces, List.map_cons]

theorem dropReturn_subset (line : List α) : dropReturn ret line ⊆ line := by
  rw [dropReturn]
  split_ifs
  · exact (List.dropLast_sublist line).subset
  · exact List.Subset.refl line

theorem not_mem_of_mem_lines {units line : List α} (h : line ∈ lines feed ret units) :
    feed ∉ line := by
  simp only [lines, List.mem_append, List.mem_map, List.mem_filter, Option.mem_toList] at h
  rcases h with ⟨piece, hpiece, rfl⟩ | ⟨hlast, _⟩
  · have hfeed := not_mem_of_mem_splitOn ((List.dropLast_sublist _).subset hpiece)
    exact fun hmem => hfeed (dropReturn_subset piece hmem)
  · exact not_mem_of_mem_splitOn (List.mem_of_getLast? hlast)

theorem lines_of_not_mem {line : List α} (hline : feed ∉ line) (hne : line ≠ []) :
    lines feed ret line = [line] := by
  simp [lines, List.splitOn_eq_singleton hline, hne]

/-- The text is written in these lines. A feed ends every line but a last one that is not empty,
and a return in front of the feed belongs to the end of the line. -/
inductive HasLines (feed ret : α) : List α → List (List α) → Prop
  | nil : HasLines feed ret [] []
  | unended {line : List α} : feed ∉ line → line ≠ [] → HasLines feed ret line [line]
  | fed {line rest : List α} {lines : List (List α)} : feed ∉ line → line.getLast? ≠ some ret →
      HasLines feed ret rest lines → HasLines feed ret (line ++ feed :: rest) (line :: lines)
  | returned {line rest : List α} {lines : List (List α)} : feed ∉ line →
      HasLines feed ret rest lines → HasLines feed ret (line ++ ret :: feed :: rest) (line :: lines)

theorem HasLines.eq_lines (hret : feed ≠ ret) {text : List α} {pieces : List (List α)}
    (h : HasLines feed ret text pieces) : pieces = lines feed ret text := by
  induction h with
  | nil => rfl
  | unended hline hne => rw [lines_of_not_mem hline hne]
  | fed hline hlast _ ih => rw [lines_append_feed hline, dropReturn, if_neg hlast, ih]
  | @returned line rest _ hline _ ih =>
      have hfront : feed ∉ line ++ [ret] := by simp [hline, hret]
      have hdrop : dropReturn ret (line ++ [ret]) = line := by simp [dropReturn]
      rw [List.append_cons line, lines_append_feed hfront, hdrop, ih]

theorem exists_hasLines (feed ret : α) (text : List α) :
    ∃ pieces, HasLines feed ret text pieces := by
  induction text with
  | nil => exact ⟨[], .nil⟩
  | cons a text ih =>
      obtain ⟨pieces, h⟩ := ih
      by_cases ha : a = feed
      · rw [ha]
        exact ⟨[] :: pieces, .fed List.not_mem_nil nofun h⟩
      · -- The unit begins the first line, unless it is a return that ends an empty one.
        have hcons : ∀ {line : List α}, feed ∉ line → feed ∉ a :: line := fun hline =>
          List.not_mem_cons_of_ne_of_not_mem (Ne.symm ha) hline
        cases h with
        | nil => exact ⟨[[a]], .unended (hcons List.not_mem_nil) (List.cons_ne_nil _ _)⟩
        | unended hline _ => exact ⟨_, .unended (hcons hline) (List.cons_ne_nil _ _)⟩
        | returned hline hrest => exact ⟨_, .returned (hcons hline) hrest⟩
        | @fed line rest _ hline hlast hrest =>
            by_cases hempty : line = [] ∧ a = ret
            · obtain ⟨rfl, rfl⟩ := hempty
              exact ⟨_, .returned List.not_mem_nil hrest⟩
            · refine ⟨_, .fed (hcons hline) ?_ hrest⟩
              cases line with
              | nil => simpa using hempty
              | cons b line => rwa [List.getLast?_cons_cons]

theorem hasLines_iff (hret : feed ≠ ret) {text : List α} {pieces : List (List α)} :
    HasLines feed ret text pieces ↔ pieces = lines feed ret text := by
  constructor
  · exact HasLines.eq_lines hret
  · intro h
    obtain ⟨pieces', h'⟩ := exists_hasLines feed ret text
    rwa [h, ← h'.eq_lines hret]

end ChartParser.Text
