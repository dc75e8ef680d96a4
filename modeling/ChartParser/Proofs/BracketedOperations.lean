import ChartParser.Proofs.DerivationCounts
import Mathlib.Combinatorics.Enumerative.Catalan.Basic

/-!
# The bracketings of an operation

Operands joined by operators can be bracketed in as many ways as there are
binary trees with the operators for their nodes, whichever operators these are.
The last operator to be applied may be any of them, with an operation on either
side, and so the parses of an operation are counted by the recurrence of the
Catalan numbers. A cut just behind an operator gives nothing, since what is then
on the right begins with an operand.
-/
namespace ChartParser.Grammar

/-- Operands with the given operators between them. -/
def operation (marks : List String) : List String :=
  "a" :: marks.flatMap fun mark => [mark, "a"]

@[simp] theorem length_operation (marks : List String) :
    (operation marks).length = 2 * marks.length + 1 := by
  simp [operation, Nat.mul_comm]

theorem operation_append (left right : List String) (mark : String) :
    operation (left ++ mark :: right) = operation left ++ mark :: operation right := by
  simp [operation]

/-- An operation comes apart at each of its operators. -/
theorem operation_eq_append {marks : List String} {i : ℕ} (hi : i < marks.length) :
    operation marks =
      operation (marks.take i) ++ marks[i] :: operation (marks.drop (i + 1)) := by
  conv_lhs => rw [← List.take_append_drop i marks, List.drop_eq_getElem_cons hi]
  exact operation_append _ _ _

theorem take_operation {marks : List String} {i : ℕ} (hi : i < marks.length) :
    (operation marks).take (2 * i + 1) = operation (marks.take i) := by
  rw [operation_eq_append hi]
  apply List.take_left'
  rw [length_operation, List.length_take, Nat.min_eq_left (Nat.le_of_lt hi)]

theorem drop_operation {marks : List String} {i : ℕ} (hi : i < marks.length) :
    (operation marks).drop (2 * i + 1) = marks[i] :: operation (marks.drop (i + 1)) := by
  rw [operation_eq_append hi]
  apply List.drop_left'
  rw [length_operation, List.length_take, Nat.min_eq_left (Nat.le_of_lt hi)]

/-- A sum of terms of which every second is zero. -/
theorem sum_range'_of_even {f : ℕ → ℕ} {n : ℕ} (hf : ∀ i < n, f (2 * i + 2) = 0) :
    ((List.range' 1 (2 * n)).map f).sum = ∑ i ∈ Finset.range n, f (2 * i + 1) := by
  induction n with
  | zero => rfl
  | succ n ih =>
      have hstart := ih fun i hi => hf i (Nat.lt_succ_of_lt hi)
      have hlast : f (2 * n + 2) = 0 := hf n (Nat.lt_succ_self n)
      rw [Nat.mul_succ, List.range'_1_concat, List.range'_1_concat, List.map_append,
        List.map_append, List.sum_append, List.sum_append, hstart, Finset.sum_range_succ]
      have hodd : 1 + 2 * n = 2 * n + 1 := Nat.add_comm 1 (2 * n)
      have heven : 1 + (2 * n + 1) = 2 * n + 2 := by omega
      simp only [List.map_singleton, List.sum_singleton, hodd, heven, hlast, Nat.add_zero]

theorem catalan_pos (n : ℕ) : 0 < catalan n := by
  have hpos := Nat.centralBinom_pos n
  rw [← succ_mul_catalan_eq_centralBinom] at hpos
  exact Nat.pos_of_mul_pos_left hpos

/-! ### Symbols of one token -/

section SingleToken
variable {g : Grammar} (hnodup : g.rules.Nodup) {b : Symbol} {token : String}
  (hb : g.rulesFor b = [⟨b, [⟨token⟩]⟩])
include hnodup hb

theorem length_derivationTrees_of_single (word : List String) :
    (g.derivationTrees b word).length = if word = [token] then 1 else 0 := by
  rw [length_derivationTrees hnodup, hb, List.map_singleton, List.sum_singleton,
    length_ruleTrees_single]

/-- With a symbol of one token on the left only the cut behind the first token counts. -/
theorem length_ruleTrees_of_single (a c : Symbol) (first : String) (word : List String) :
    (g.ruleTrees (first :: word) ⟨a, [b, c]⟩).length =
      if first = token ∧ word ≠ [] then (g.derivationTrees c word).length else 0 := by
  rw [length_ruleTrees_pair, List.length_cons, Nat.add_sub_cancel]
  cases word with
  | nil => simp
  | cons second rest =>
      -- Any later cut leaves at least two tokens on the left.
      have hlater : ∀ k ∈ List.range' 2 rest.length,
          (g.derivationTrees b ((first :: second :: rest).take k)).length *
            (g.derivationTrees c ((first :: second :: rest).drop k)).length = 0 := by
        intro k hk
        obtain ⟨m, rfl⟩ := Nat.exists_eq_add_of_le (List.mem_range'_1.mp hk).1
        rw [length_derivationTrees_of_single hnodup hb, Nat.add_comm 2 m, if_neg (by simp),
          Nat.zero_mul]
      rw [List.length_cons, List.range'_succ, List.map_cons, List.sum_cons,
        List.map_congr_left hlater, length_derivationTrees_of_single hnodup hb]
      simp

end SingleToken

/-! ### The operations -/

section Operators
variable {g : Grammar} (hrules : g.rules = operators.rules)
include hrules

theorem rulesFor_of_rules (s : Symbol) : g.rulesFor s = operators.rulesFor s := by
  rw [rulesFor, rulesFor, hrules]

theorem nodup_of_rules : g.rules.Nodup := by
  rw [hrules]
  decide

/-- What follows an operand is an operator and its right operand. -/
theorem length_derivationTrees_tail (first : String) (word : List String) :
    (g.derivationTrees ⟨"A"⟩ (first :: word)).length =
      if (first = "b" ∨ first = "c") ∧ word ≠ [] then (g.derivationTrees ⟨"S"⟩ word).length
      else 0 := by
  have hnodup := nodup_of_rules hrules
  have hA : g.rulesFor ⟨"A"⟩ =
      [⟨⟨"A"⟩, [⟨"B"⟩, ⟨"S"⟩]⟩, ⟨⟨"A"⟩, [⟨"C"⟩, ⟨"S"⟩]⟩] := rulesFor_of_rules hrules _
  have hB : g.rulesFor ⟨"B"⟩ = [⟨⟨"B"⟩, [⟨"b"⟩]⟩] := rulesFor_of_rules hrules _
  have hC : g.rulesFor ⟨"C"⟩ = [⟨⟨"C"⟩, [⟨"c"⟩]⟩] := rulesFor_of_rules hrules _
  rw [length_derivationTrees hnodup, hA]
  simp only [List.map_cons, List.map_nil, List.sum_cons, List.sum_nil,
    length_ruleTrees_of_single hnodup hB, length_ruleTrees_of_single hnodup hC]
  by_cases hb : first = "b"
  · simp [hb]
  · simp [hb]

/-- The last operator to be applied may be any of them. -/
theorem length_derivationTrees_operation_eq_sum {marks : List String}
    (hmarks : ∀ mark ∈ marks, mark = "b" ∨ mark = "c") (hne : marks ≠ []) :
    (g.derivationTrees ⟨"S"⟩ (operation marks)).length =
      ∑ i ∈ Finset.range marks.length, (g.derivationTrees ⟨"S"⟩ (operation (marks.take i))).length *
        (g.derivationTrees ⟨"S"⟩ (operation (marks.drop (i + 1)))).length := by
  have hS : g.rulesFor ⟨"S"⟩ = [⟨⟨"S"⟩, [⟨"S"⟩, ⟨"A"⟩]⟩, ⟨⟨"S"⟩, [⟨"a"⟩]⟩] :=
    rulesFor_of_rules hrules _
  have hlong : operation marks ≠ ["a"] := by
    intro heq
    have hlength := congrArg List.length heq
    rw [length_operation, List.length_singleton] at hlength
    exact hne (List.length_eq_zero_iff.mp (by omega))
  -- Behind an operator an operand follows, and no part with the operator in front.
  have heven : ∀ i < marks.length,
      (g.derivationTrees ⟨"S"⟩ ((operation marks).take (2 * i + 2))).length *
        (g.derivationTrees ⟨"A"⟩ ((operation marks).drop (2 * i + 2))).length = 0 := by
    intro i hi
    have hdrop : (operation marks).drop (2 * i + 2) = operation (marks.drop (i + 1)) := by
      have htail := congrArg List.tail (drop_operation hi)
      rwa [List.tail_drop, List.tail_cons] at htail
    have hnone : (g.derivationTrees ⟨"A"⟩ (operation (marks.drop (i + 1)))).length = 0 := by
      rw [operation, length_derivationTrees_tail hrules, if_neg (by simp)]
    rw [hdrop, hnone, Nat.mul_zero]
  rw [length_derivationTrees (nodup_of_rules hrules), hS]
  simp only [List.map_cons, List.map_nil, List.sum_cons, List.sum_nil, Nat.add_zero,
    length_ruleTrees_pair, length_ruleTrees_single]
  rw [if_neg hlong, Nat.add_zero, length_operation, Nat.add_sub_cancel, sum_range'_of_even heven]
  apply Finset.sum_congr rfl
  intro i hi
  have hlt := Finset.mem_range.mp hi
  rw [take_operation hlt, drop_operation hlt, length_derivationTrees_tail hrules,
    if_pos ⟨hmarks _ (List.getElem_mem hlt), List.cons_ne_nil _ _⟩]

theorem length_derivationTrees_operation {marks : List String}
    (hmarks : ∀ mark ∈ marks, mark = "b" ∨ mark = "c") :
    (g.derivationTrees ⟨"S"⟩ (operation marks)).length = catalan marks.length := by
  induction hn : marks.length using Nat.strongRecOn generalizing marks with
  | ind n ih =>
      subst hn
      by_cases hne : marks = []
      · rw [hne, length_derivationTrees (nodup_of_rules hrules), rulesFor_of_rules hrules]
        cbv
      · obtain ⟨n, hn⟩ := Nat.exists_eq_succ_of_ne_zero (mt List.length_eq_zero_iff.mp hne)
        rw [length_derivationTrees_operation_eq_sum hrules hmarks hne, hn, catalan_succ',
          Finset.Nat.sum_antidiagonal_eq_sum_range_succ (fun x y => catalan x * catalan y)]
        apply Finset.sum_congr rfl
        intro i hi
        have hlt := Finset.mem_range.mp hi
        have hleft : (g.derivationTrees ⟨"S"⟩ (operation (marks.take i))).length = catalan i := by
          apply ih i (by omega)
          · intro mark hmem
            exact hmarks mark (List.mem_of_mem_take hmem)
          · rw [List.length_take, hn]
            omega
        have hright : (g.derivationTrees ⟨"S"⟩ (operation (marks.drop (i + 1)))).length =
            catalan (n - i) := by
          apply ih (n - i) (by omega)
          · intro mark hmem
            exact hmarks mark (List.mem_of_mem_drop hmem)
          · rw [List.length_drop, hn]
            omega
        rw [hleft, hright]

theorem firstViolation?_of_rules : g.firstViolation? = none := by
  obtain ⟨name, symbols, start, rules⟩ := g
  obtain rfl : rules = operators.rules := hrules
  rfl

/-- The parses of an operation are its bracketings, and none of them comes twice. -/
theorem parse_operation_catalan (hstart : g.start = ⟨"S"⟩) {marks : List String}
    (hmarks : ∀ mark ∈ marks, mark = "b" ∨ mark = "c") :
    ∃ o, g.parse (operation marks) = .ok o ∧ o.accepted = true ∧
      o.trees.length = catalan marks.length ∧ o.trees.Nodup ∧
      ∀ t ∈ o.trees, t.label = ⟨"S"⟩ ∧ t.leaves = operation marks := by
  obtain ⟨o, ho, _, hacc, htrees⟩ := parse_eq_ok (firstViolation?_of_rules hrules) (operation marks)
  rw [parses_wordTable, hstart] at htrees
  have hlength := length_derivationTrees_operation hrules hmarks
  rw [← htrees] at hlength
  refine ⟨o, ho, ?_, hlength, ?_, ?_⟩
  · have hpos : 0 < o.trees.length := hlength ▸ catalan_pos _
    obtain ⟨t, ht⟩ := List.exists_mem_of_length_pos hpos
    rw [hacc, Table.accepts_iff_exists, parses_wordTable, hstart, ← htrees]
    exact ⟨t, ht⟩
  · rw [htrees]
    exact nodup_derivationTrees g _ _
  · intro t ht
    rw [htrees, mem_derivationTrees] at ht
    exact ⟨ht.2, ht.1.2⟩

end Operators

/-- Three operators, not all the same, give five bracketings. -/
theorem parse_operation_catalan_three :
    let g := { operators with name := "g3" }
    g.rules = operators.rules ∧ g.start = ⟨"S"⟩ ∧
      (∀ mark ∈ ["b", "c", "b"], mark = "b" ∨ mark = "c") ∧
      ∃ o, g.parse ["a", "b", "a", "c", "a", "b", "a"] = .ok o ∧ o.accepted = true ∧
        o.trees.length = 5 ∧ o.trees.Nodup := by
  intro g
  have hmarks : ∀ mark ∈ ["b", "c", "b"], mark = "b" ∨ mark = "c" := by decide
  obtain ⟨o, ho, hacc, hlength, hnodup, _⟩ := parse_operation_catalan (g := g) rfl rfl hmarks
  exact ⟨rfl, rfl, hmarks, o, ho, hacc, hlength.trans catalan_three, hnodup⟩

end ChartParser.Grammar
