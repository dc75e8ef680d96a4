import ChartParser.Proofs.FillClosure
import ChartParser.Proofs.SessionOutput
import ChartParser.Proofs.WindowedCells

/-!
# Tokens that no terminal matches

Seeding a table warns of tokens that no one-symbol rule has on its right. The
vocabulary is not consulted. In a loaded grammar in normal form this comes to
the same, since there a terminal occurs in one-symbol rules only and all that
occurs in rules is in the vocabulary. A token that is warned of empties each
cell above it, so that a word with a warning is never accepted.
-/
namespace ChartParser

theorem Table.level_of_mem_log_fillSpans {g : Grammar} {order : List Span} {T : Table} {e : Event}
    (he : e ∈ (fillSpans g order T).log) : e.level = .trace := by
  induction order generalizing T with
  | nil => simp [fillSpans] at he
  | cons s rest ih =>
      rw [log_cons, List.mem_append] at he
      rcases he with he | he
      · split_ifs at he
        · rw [List.mem_singleton.mp he]
          rfl
        · cases he
      · exact ih he

theorem Tree.ValidFor.exists_rule_of_mem_leaves {g : Grammar} {t : Tree} (ht : t.ValidFor g)
    {token : String} (htoken : token ∈ t.leaves) : ∃ a, ⟨a, [⟨token⟩]⟩ ∈ g.rules := by
  induction ht with
  | @unary a b hrule =>
      obtain rfl : token = b.name := by simpa [leaves] using htoken
      exact ⟨a, hrule⟩
  | binary _ _ _ ihl ihr =>
      rw [leaves, List.mem_append] at htoken
      rcases htoken with htoken | htoken
      · exact ihl htoken
      · exact ihr htoken

namespace Grammar
variable {g : Grammar}

/-- The tokens outside the terminal vocabulary with their positions, from left to right. -/
def unknownTokens (g : Grammar) (word : List String) : List (String × ℕ) :=
  word.zipIdx.filter fun x => (⟨x.1⟩ : Symbol) ∉ g.terminals

theorem tokenTrees_eq_nil_iff {token : String} :
    g.tokenTrees token = [] ↔ ¬∃ a, ⟨a, [⟨token⟩]⟩ ∈ g.rules := by
  rw [List.eq_nil_iff_forall_not_mem]
  simp only [mem_tokenTrees]
  constructor
  · intro h hrule
    obtain ⟨a, ha⟩ := hrule
    exact h _ ⟨a, ha, rfl⟩
  · intro h t ht
    obtain ⟨a, ha, _⟩ := ht
    exact h ⟨a, ha⟩

/-- In normal form a symbol that heads no rule stands alone wherever it stands. -/
theorem mem_terminals_iff_exists_rule (hg : g.firstViolation? = none)
    (hsymbols : ∀ s, s ∈ g.symbols ↔ ∃ r ∈ g.rules, s = r.lhs ∨ s ∈ r.rhs) {s : Symbol} :
    s ∈ g.terminals ↔ ∃ a, ⟨a, [s]⟩ ∈ g.rules := by
  rw [terminals, List.mem_filter, Bool.not_eq_true', hsymbols]
  constructor
  · intro h
    obtain ⟨⟨r, hr, hs⟩, hterminal⟩ := h
    have hrhs : s ∈ r.rhs := by
      rcases hs with rfl | hs
      · rw [isNonTerminal_iff.mpr ⟨r, hr, rfl⟩] at hterminal
        cases hterminal
      · exact hs
    rcases normalRule_of_firstViolation?_eq_none hg hr with ⟨a, ha, _⟩ | ⟨b, c, hbc, hb, hc⟩
    · rw [ha, List.mem_singleton] at hrhs
      exact ⟨r.lhs, by rwa [hrhs, ← ha]⟩
    · -- Both symbols head rules, so the terminal is neither of them.
      rw [hbc, List.mem_cons, List.mem_singleton] at hrhs
      rcases hrhs with rfl | rfl
      · rw [hb] at hterminal
        cases hterminal
      · rw [hc] at hterminal
        cases hterminal
  · intro h
    obtain ⟨a, hrule⟩ := h
    refine ⟨⟨_, hrule, Or.inr List.mem_cons_self⟩, ?_⟩
    rcases normalRule_of_firstViolation?_eq_none hg hrule with ⟨b, hb, hterminal⟩ | ⟨b, c, hbc, _⟩
    · rwa [List.singleton_inj.mp hb]
    · simp at hbc

/-! ### What is logged -/

theorem log_seedFrom (g : Grammar) (i : ℕ) (tokens : List String) (T : Table) :
    (g.seedFrom i tokens T).2 =
      ((tokens.zipIdx i).filter fun x => (g.tokenTrees x.1).isEmpty).map fun x =>
        .tokenUnmatched x.1 x.2 g.name := by
  induction tokens generalizing i T with
  | nil => rfl
  | cons token tokens ih =>
      have hrest := ih (i + 1) (T.insertAll ⟨i, i + 1⟩ (g.tokenTrees token)).1
      rw [seedFrom, List.zipIdx_cons, List.filter_cons]
      dsimp only
      split_ifs
      · rw [hrest, List.map_cons]
      · exact hrest

/-- Filling and building report on lower levels, so the warnings are those of the diagonal. -/
theorem exists_chart_eq_ok (hg : g.firstViolation? = none)
    (hterminal : ∀ token, (⟨token⟩ : Symbol) ∈ g.terminals ↔ ∃ a, ⟨a, [⟨token⟩]⟩ ∈ g.rules)
    (word : List String) : ∃ log, g.chart word = .ok (g.wordTable word, log) ∧
      log.filter (·.level = .warn) =
        (g.unknownTokens word).map fun x => .tokenUnmatched x.1 x.2 g.name := by
  have hunmatched : ∀ x : String × ℕ,
      (g.tokenTrees x.1).isEmpty = decide ((⟨x.1⟩ : Symbol) ∉ g.terminals) := by
    intro x
    rw [Bool.eq_iff_iff, List.isEmpty_iff, tokenTrees_eq_nil_iff, decide_eq_true_eq, hterminal]
  have hseed : (g.seed word).2 =
      (g.unknownTokens word).map fun x => .tokenUnmatched x.1 x.2 g.name := by
    rw [seed, log_seedFrom, unknownTokens]
    simp only [hunmatched]
  have hfill : ((g.seed word).1.fill g).log.filter (·.level = .warn) = [] := by
    rw [List.filter_eq_nil_iff]
    intro e he
    rw [Table.level_of_mem_log_fillSpans he]
    decide
  refine ⟨_, by simp only [chart, hg]; rfl, ?_⟩
  rw [List.filter_append, List.filter_append, hfill, hseed, List.filter_map]
  simp [Event.level, Function.comp_def]

/-! ### What stays empty -/

theorem treesAt_wordTable_of_unmatched {word : List String} {i : ℕ} (hi : i < word.length)
    (hnone : ¬∃ a, ⟨a, [⟨word[i]⟩]⟩ ∈ g.rules) {s : Span} (hstart : s.start ≤ i)
    (hstop : i < s.stop) : (g.wordTable word).treesAt s = [] := by
  by_cases hs : s.stop ≤ word.length
  · rw [List.eq_nil_iff_forall_not_mem]
    intro t ht
    rw [mem_treesAt_wordTable g word (by omega) hs] at ht
    have hlength : i - s.start < (s.slice word).length := by
      rw [Span.length_slice hs, Span.length]
      omega
    have htoken : word[i] ∈ s.slice word := by
      have hget := Span.getElem_slice hlength (by omega)
      simp only [Nat.add_sub_cancel' hstart] at hget
      rw [← hget]
      exact List.getElem_mem hlength
    rw [← ht.2] at htoken
    exact hnone (ht.1.exists_rule_of_mem_leaves htoken)
  · apply Table.treesAt_of_not_covers
    intro hcovers
    exact hs (size_wordTable g word ▸ hcovers.2)

theorem mem_unknownTokens {word : List String} {x : String × ℕ} :
    x ∈ g.unknownTokens word ↔ word[x.2]? = some x.1 ∧ (⟨x.1⟩ : Symbol) ∉ g.terminals := by
  rw [unknownTokens, List.mem_filter, List.mem_zipIdx_iff_getElem?, decide_eq_true_eq]

/-- The whole word is a span over every position. -/
theorem accepts_wordTable_of_unmatched {word : List String} {i : ℕ} (hi : i < word.length)
    (hnone : ¬∃ a, ⟨a, [⟨word[i]⟩]⟩ ∈ g.rules) : (g.wordTable word).accepts g = false := by
  rw [← Bool.not_eq_true, Table.accepts_iff_exists]
  intro h
  obtain ⟨t, ht⟩ := h
  rw [Table.mem_parses, size_wordTable,
    treesAt_wordTable_of_unmatched hi hnone (Nat.zero_le i) hi] at ht
  exact absurd ht.1 List.not_mem_nil

/-- Of a grammar that was loaded and is in normal form, building a table warns of the tokens
outside the terminal vocabulary, once at each position, from left to right, and of nothing else.
The cells over such a position are empty. A word with a warning is rejected, so a word that is
accepted has none. -/
theorem chart_warnings {path text : String} {g : Grammar}
    (h : GrammarFile.ofText path text = .ok g) (hg : g.inNormalForm = true)
    (word : List String) :
    ∃ o, g.parse word = .ok o ∧ g.chart word = .ok (o.table, o.log) ∧
      o.log.filter (·.level = .warn) =
        (g.unknownTokens word).map (fun x => .tokenUnmatched x.1 x.2 g.name) ∧
      (∀ x ∈ g.unknownTokens word, ∀ s c, s.start ≤ x.2 → x.2 < s.stop →
        o.table.cell? s = some c → c.isEmpty = true) ∧
      ((∃ e ∈ o.log, e.level = .warn) → o.accepted = false) ∧
      (o.accepted = true → ∀ e ∈ o.log, e.level ≠ .warn) := by
  have hnormal : g.firstViolation? = none := Option.isNone_iff_eq_none.mp hg
  have hterminal : ∀ token, (⟨token⟩ : Symbol) ∈ g.terminals ↔ ∃ a, ⟨a, [⟨token⟩]⟩ ∈ g.rules :=
    fun _ => mem_terminals_iff_exists_rule hnormal fun _ => GrammarFile.mem_symbols_of_ofText h
  have hunmatched : ∀ x ∈ g.unknownTokens word, ∃ hi : x.2 < word.length,
      ¬∃ a, ⟨a, [⟨word[x.2]⟩]⟩ ∈ g.rules := by
    intro x hx
    obtain ⟨htoken, hunknown⟩ := mem_unknownTokens.mp hx
    obtain ⟨hi, hget⟩ := List.getElem?_eq_some_iff.mp htoken
    exact ⟨hi, by rwa [hget, ← hterminal]⟩
  obtain ⟨log, hchart, hwarnings⟩ := exists_chart_eq_ok hnormal hterminal word
  have hrejected : (∃ e ∈ log, e.level = .warn) → (g.wordTable word).accepts g = false := by
    intro hwarned
    obtain ⟨e, he, hlevel⟩ := hwarned
    have hmem : e ∈ log.filter (·.level = .warn) :=
      List.mem_filter.mpr ⟨he, decide_eq_true hlevel⟩
    rw [hwarnings] at hmem
    obtain ⟨x, hx, _⟩ := List.mem_map.mp hmem
    obtain ⟨hi, hnone⟩ := hunmatched x hx
    exact accepts_wordTable_of_unmatched hi hnone
  refine ⟨_, by rw [parse, hchart]; rfl, hchart, hwarnings, ?_, hrejected, ?_⟩
  · intro x hx s c hstart hstop hc
    obtain ⟨hi, hnone⟩ := hunmatched x hx
    have hempty := treesAt_wordTable_of_unmatched hi hnone hstart hstop
    rw [Table.treesAt_of_cell? hc, Cell.toList, Array.toList_eq_nil_iff] at hempty
    exact Array.isEmpty_iff.mpr hempty
  · intro haccepted e he hlevel
    exact Bool.false_ne_true ((hrejected ⟨e, he, hlevel⟩).symm.trans haccepted)

/-- The name of a non-terminal is as unknown as a name that occurs nowhere. -/
theorem chart_warnings_operators :
    let word := ["a", "S", "a", "x", "a"]
    GrammarFile.ofText "operators.bnf" (GrammarFile.print operators) = .ok operators ∧
    operators.inNormalForm = true ∧ operators.unknownTokens word = [("S", 1), ("x", 3)] ∧
    ∃ o, operators.parse word = .ok o ∧
      o.log.filter (·.level = .warn) =
        [.tokenUnmatched "S" 1 "operators", .tokenUnmatched "x" 3 "operators"] ∧
      (∀ c, o.table.cell? ⟨2, 5⟩ = some c → c.isEmpty = true) ∧ o.accepted = false := by
  intro word
  have hnormal : operators.inNormalForm = true := by decide
  have hunknown : operators.unknownTokens word = [("S", 1), ("x", 3)] := by decide
  obtain ⟨o, hparse, _, hwarnings, hempty, hrejected, _⟩ :=
    chart_warnings Session.ofText_print_operators hnormal word
  rw [hunknown] at hwarnings hempty
  have hx : ("x", 3) ∈ [("S", 1), ("x", 3)] := by decide
  have hwarned : .tokenUnmatched "x" 3 "operators" ∈ o.log := by
    have hmem : .tokenUnmatched "x" 3 "operators" ∈ o.log.filter (·.level = .warn) := by
      rw [hwarnings]
      exact List.mem_map_of_mem hx
    exact List.mem_of_mem_filter hmem
  exact ⟨Session.ofText_print_operators, hnormal, hunknown, o, hparse, hwarnings,
    fun c => hempty _ hx ⟨2, 5⟩ c (by decide) (by decide), hrejected ⟨_, hwarned, rfl⟩⟩

end Grammar

end ChartParser
