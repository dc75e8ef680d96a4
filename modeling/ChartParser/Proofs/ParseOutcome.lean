import ChartParser.Proofs.ParseForest

/-!
# The outcome of a parse

A grammar in normal form is never refused, and the trees that come with the
verdict are the derivation trees of the whole word from the start symbol. The
empty word needs no exception.
-/
namespace ChartParser

namespace Table

theorem mem_parses {g : Grammar} {T : Table} {t : Tree} :
    t ∈ T.parses g ↔ t ∈ T.treesAt ⟨0, T.size⟩ ∧ t.label = g.start := by
  unfold parses treesAt top?
  cases T.cell? ⟨0, T.size⟩ with
  | none => simp
  | some c => simp only [Cell.labeled, List.mem_filter, beq_iff_eq]

theorem Coherent.nodup_parses {T : Table} (hT : T.Coherent) (g : Grammar) :
    (T.parses g).Nodup := by
  unfold parses top?
  cases h : T.cell? ⟨0, T.size⟩ with
  | none => exact List.nodup_nil
  | some c => exact (hT h).nodup.filter _

theorem accepts_iff_exists {g : Grammar} {T : Table} :
    T.accepts g = true ↔ ∃ t, t ∈ T.parses g := by
  simp only [mem_parses, accepts, treesAt, top?]
  cases T.cell? ⟨0, T.size⟩ with
  | none => simp
  | some c => exact Cell.hasLabel_iff

end Table

namespace Grammar

theorem chart_eq_ok {g : Grammar} (h : g.firstViolation? = none) (word : List String) :
    ∃ log, g.chart word = .ok (g.wordTable word, log) := by
  simp only [chart, h]
  exact ⟨_, rfl⟩

/-- The trees need not be asked for twice: without acceptance there are none. -/
theorem parse_eq_ok {g : Grammar} (h : g.firstViolation? = none) (word : List String) :
    ∃ o, g.parse word = .ok o ∧ o.table = g.wordTable word ∧
      o.accepted = (g.wordTable word).accepts g ∧ o.trees = (g.wordTable word).parses g := by
  obtain ⟨log, hchart⟩ := chart_eq_ok h word
  refine ⟨_, by rw [parse, hchart]; rfl, rfl, rfl, ?_⟩
  dsimp only
  split_ifs with hacc
  · rfl
  · symm
    rw [List.eq_nil_iff_forall_not_mem]
    intro t ht
    exact hacc (Table.accepts_iff_exists.mpr ⟨t, ht⟩)

theorem mem_parses_wordTable {g : Grammar} {word : List String} {t : Tree} :
    t ∈ (g.wordTable word).parses g ↔ t.ValidFor g ∧ t.label = g.start ∧ t.leaves = word := by
  rw [Table.mem_parses, size_wordTable, mem_treesAt_whole, and_assoc, and_comm (b := _ = g.start)]

/-- A word is accepted when it has a derivation tree from the start symbol. -/
theorem parse_accepted_iff_exists_tree {g : Grammar} (h : g.firstViolation? = none)
    (word : List String) : ∃ o, g.parse word = .ok o ∧
      (o.accepted = true ↔ ∃ t : Tree, t.ValidFor g ∧ t.label = g.start ∧ t.leaves = word) := by
  obtain ⟨o, ho, _, hacc, _⟩ := parse_eq_ok h word
  refine ⟨o, ho, ?_⟩
  rw [hacc, Table.accepts_iff_exists]
  simp only [mem_parses_wordTable]

/-- The forest of a word is exact in every cell, for grammars of any form, and so is the list of
parses of the whole word for a grammar in normal form. -/
theorem parse_forest_exact (g : Grammar) (word : List String) :
    (∀ i j, i < j → j ≤ word.length →
      ∃ c, ((g.seed word).1.fill g).table.cell? ⟨i, j⟩ = some c ∧ c.toList.Nodup ∧
        ∀ t, t ∈ c.toList ↔ t.ValidFor g ∧ t.leaves = Span.slice ⟨i, j⟩ word) ∧
    (g.firstViolation? = none → ∃ o, g.parse word = .ok o ∧ o.trees.Nodup ∧
      (∀ t, t ∈ o.trees ↔ t.ValidFor g ∧ t.label = g.start ∧ t.leaves = word) ∧
      (o.accepted = true ↔ o.trees ≠ [])) := by
  constructor
  · intro i j hij hj
    exact exists_cell?_wordTable g word hij hj
  · intro h
    obtain ⟨o, ho, _, hacc, htrees⟩ := parse_eq_ok h word
    refine ⟨o, ho, ?_, ?_, ?_⟩
    · rw [htrees]
      exact (coherent_wordTable g word).nodup_parses g
    · intro t
      rw [htrees]
      exact mem_parses_wordTable
    · rw [hacc, htrees, Table.accepts_iff_exists]
      constructor
      · intro hex
        obtain ⟨t, ht⟩ := hex
        exact List.ne_nil_of_mem ht
      · exact List.exists_mem_of_ne_nil _

/-- Operands `a` joined by the operators `b` and `c`, which bind neither tighter nor to one
side: every way to bracket a row of operands is a derivation. -/
def operators : Grammar where
  name := "operators"
  symbols := [⟨"S"⟩, ⟨"A"⟩, ⟨"a"⟩, ⟨"B"⟩, ⟨"C"⟩, ⟨"b"⟩, ⟨"c"⟩]
  start := ⟨"S"⟩
  rules := [⟨⟨"S"⟩, [⟨"S"⟩, ⟨"A"⟩]⟩, ⟨⟨"S"⟩, [⟨"a"⟩]⟩, ⟨⟨"A"⟩, [⟨"B"⟩, ⟨"S"⟩]⟩,
    ⟨⟨"A"⟩, [⟨"C"⟩, ⟨"S"⟩]⟩, ⟨⟨"B"⟩, [⟨"b"⟩]⟩, ⟨⟨"C"⟩, [⟨"c"⟩]⟩]

def operand : Tree := .unary ⟨"S"⟩ (.leaf ⟨"a"⟩)

def joined (kind token : String) (l r : Tree) : Tree :=
  .binary ⟨"S"⟩ l (.binary ⟨"A"⟩ (.unary ⟨kind⟩ (.leaf ⟨token⟩)) r)

theorem validFor_operand : operand.ValidFor operators :=
  .unary (by decide)

theorem validFor_joined {kind token : String} (hkind : ⟨⟨"A"⟩, [⟨kind⟩, ⟨"S"⟩]⟩ ∈ operators.rules)
    (htoken : ⟨⟨kind⟩, [⟨token⟩]⟩ ∈ operators.rules) {l r : Tree} (hl : l.ValidFor operators)
    (hr : r.ValidFor operators) (hlabel : l.label = ⟨"S"⟩) (hlabel' : r.label = ⟨"S"⟩) :
    (joined kind token l r).ValidFor operators := by
  refine .binary ?_ hl (.binary ?_ (.unary htoken) hr)
  · rw [hlabel, Tree.label]
    decide
  · rw [hlabel', Tree.label]
    exact hkind

/-- Of `a b a c a` both bracketings are found at the top, and the right operand of one of them
in its own cell. -/
theorem parse_forest_exact_operators :
    let word := ["a", "b", "a", "c", "a"]
    let first := joined "B" "b" operand operand
    let second := joined "C" "c" operand operand
    2 < 5 ∧ 5 ≤ word.length ∧ operators.firstViolation? = none ∧
      (∃ c, ((operators.seed word).1.fill operators).table.cell? ⟨2, 5⟩ = some c ∧
        second ∈ c.toList) ∧
      ∃ o, operators.parse word = .ok o ∧ o.accepted = true ∧
        joined "C" "c" first operand ∈ o.trees ∧ joined "B" "b" operand second ∈ o.trees := by
  intro word first second
  have hnormal : operators.firstViolation? = none := by decide
  have hfirst : first.ValidFor operators :=
    validFor_joined (by decide) (by decide) validFor_operand validFor_operand rfl rfl
  have hsecond : second.ValidFor operators :=
    validFor_joined (by decide) (by decide) validFor_operand validFor_operand rfl rfl
  obtain ⟨c, hc, _, hcell⟩ := (parse_forest_exact operators word).1 2 5 (by decide) (by decide)
  obtain ⟨o, ho, _, htrees, hacc⟩ := (parse_forest_exact operators word).2 hnormal
  have hleft : joined "C" "c" first operand ∈ o.trees := (htrees _).mpr
    ⟨validFor_joined (by decide) (by decide) hfirst validFor_operand rfl rfl, rfl, rfl⟩
  have hright : joined "B" "b" operand second ∈ o.trees := (htrees _).mpr
    ⟨validFor_joined (by decide) (by decide) validFor_operand hsecond rfl rfl, rfl, rfl⟩
  exact ⟨by decide, by decide, hnormal, ⟨c, hc, (hcell _).mpr ⟨hsecond, rfl⟩⟩,
    ⟨o, ho, hacc.mpr (List.ne_nil_of_mem hleft), hleft, hright⟩⟩

end Grammar

end ChartParser
