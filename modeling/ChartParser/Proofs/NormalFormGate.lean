import ChartParser.Chart.Parse
import ChartParser.Proofs.LexedTokens
import ChartParser.Proofs.NormalFormRules
import Mathlib.Data.List.Basic

/-!
# The gate before parsing

A grammar is parsed only if it passes the check for the normal form. What the
check reports is settled by the rules alone: the first rule of neither shape,
and of that rule one definite fault. Words, start symbols and vocabularies have
no say in it, so building a table and parsing are refused for the same grammars
and with the same report.
-/
namespace ChartParser.Grammar

/-- What is wrong with a rule of neither shape. Of two symbols the leftmost one that heads no
rule is blamed. -/
inductive Misshapen (g : Grammar) (r : Rule) : Violation → Prop
  | emptyRightSide : r.rhs = [] → Misshapen g r .emptyRightSide
  | tooLong : 2 < r.rhs.length → Misshapen g r (.tooLong r.rhs.length)
  | nonTerminalInUnaryRule {a : Symbol} : r.rhs = [a] → g.isNonTerminal a = true →
      Misshapen g r (.nonTerminalInUnaryRule a)
  | terminalInBinaryRule {before after : List Symbol} {a : Symbol} : r.rhs.length = 2 →
      r.rhs = before ++ a :: after → (∀ b ∈ before, g.isNonTerminal b = true) →
      g.isNonTerminal a = false → Misshapen g r (.terminalInBinaryRule a)

variable {g : Grammar} {r : Rule} {v : Violation}

theorem violationOf?_of_length_two (h : r.rhs.length = 2) :
    g.violationOf? r = (r.rhs.find? (!g.isNonTerminal ·)).map .terminalInBinaryRule := by
  obtain ⟨b, c, hrhs⟩ := List.length_eq_two.mp h
  rw [violationOf?, hrhs]

theorem misshapen_of_violationOf? (h : g.violationOf? r = some v) : g.Misshapen r v := by
  unfold violationOf? at h
  split at h
  · rename_i hrhs
    cases h
    exact .emptyRightSide hrhs
  · rename_i a hrhs
    split at h
    · rename_i ha
      cases h
      exact .nonTerminalInUnaryRule hrhs ha
    · cases h
  · rename_i b c hrhs
    obtain ⟨a, hfind, rfl⟩ := Option.map_eq_some_iff.mp h
    obtain ⟨ha, before, after, hsplit, hbefore⟩ := List.find?_eq_some_iff_append.mp hfind
    have hlength : r.rhs.length = 2 := by rw [hrhs]; rfl
    simp only [Bool.not_eq_true', Bool.not_not] at ha hbefore
    exact .terminalInBinaryRule hlength (hrhs.trans hsplit) hbefore ha
  · rename_i hnone hone htwo
    cases h
    have hlength : 2 < r.rhs.length := by
      match hrhs : r.rhs with
      | [] => exact absurd hrhs hnone
      | [a] => exact absurd hrhs (hone a)
      | [b, c] => exact absurd hrhs (htwo b c)
      | _ :: _ :: _ :: _ => simp
    exact .tooLong hlength

theorem Misshapen.violationOf?_eq_some (h : g.Misshapen r v) : g.violationOf? r = some v := by
  cases h with
  | emptyRightSide hrhs => rw [violationOf?, hrhs]
  | tooLong hlength =>
      match hrhs : r.rhs with
      | [] | [_] | [_, _] =>
          rw [hrhs] at hlength
          simp at hlength
      | _ :: _ :: _ :: _ => rw [violationOf?, hrhs]
  | nonTerminalInUnaryRule hrhs ha =>
      rw [violationOf?, hrhs]
      exact if_pos ha
  | @terminalInBinaryRule before after a hlength hrhs hbefore ha =>
      have hfind : r.rhs.find? (!g.isNonTerminal ·) = some a := by
        rw [List.find?_eq_some_iff_append]
        exact ⟨by rw [ha]; rfl, before, after, hrhs, by simpa using hbefore⟩
      rw [violationOf?_of_length_two hlength, hfind, Option.map_some]

theorem violationOf?_eq_some_iff : g.violationOf? r = some v ↔ g.Misshapen r v :=
  ⟨misshapen_of_violationOf?, Misshapen.violationOf?_eq_some⟩

theorem Misshapen.not_normalRule (h : g.Misshapen r v) : ¬g.NormalRule r := by
  rw [← violationOf?_eq_none_iff, h.violationOf?_eq_some]
  exact Option.some_ne_none v

theorem firstViolation?_eq_some_iff {e : NotNormalForm} :
    g.firstViolation? = some e ↔ ∃ before after, g.rules = before ++ e.rule :: after ∧
      (∀ q ∈ before, g.NormalRule q) ∧ g.Misshapen e.rule e.violation := by
  simp only [firstViolation?, List.findSome?_eq_some_iff, Option.map_eq_some_iff,
    Option.map_eq_none_iff, violationOf?_eq_none_iff, violationOf?_eq_some_iff]
  constructor
  · intro h
    obtain ⟨before, q, after, hrules, ⟨v, hv, rfl⟩, hbefore⟩ := h
    exact ⟨before, after, hrules, hbefore, hv⟩
  · intro h
    obtain ⟨before, after, hrules, hbefore, hv⟩ := h
    exact ⟨before, e.rule, after, hrules, ⟨e.violation, hv, rfl⟩, hbefore⟩

theorem chart_eq_error_iff {word : List String} {e : NotNormalForm} :
    g.chart word = .error e ↔ g.firstViolation? = some e := by
  unfold chart
  cases g.firstViolation? with
  | none => simp
  | some violation => simp

/-- Parsing adds no refusals to those of the table. -/
theorem parse_eq_error_iff {word : List String} {e : NotNormalForm} :
    g.parse word = .error e ↔ g.firstViolation? = some e := by
  rw [parse, GrammarFile.map_eq_error_iff, chart_eq_error_iff]

/-- The check passes exactly the grammars in which each rule goes to one symbol that heads no
rule or to two symbols that head one. Of any other grammar it reports the first rule of another
form, with what is wrong with it. Tables are built and words parsed, the empty one included, unless
something is reported, and the report is then the answer. Only the rules count in this: the name,
the vocabulary and the start symbol may be any others. -/
theorem firstViolation?_exact (g : Grammar) :
    (∀ a, g.isNonTerminal a = true ↔ ∃ q ∈ g.rules, q.lhs = a) ∧
    (g.inNormalForm = true ↔ g.firstViolation? = none) ∧
    (g.firstViolation? = none ↔ ∀ r ∈ g.rules, g.NormalRule r) ∧
    (∀ e, g.firstViolation? = some e ↔ ∃ before after, g.rules = before ++ e.rule :: after ∧
      (∀ q ∈ before, g.NormalRule q) ∧ ¬g.NormalRule e.rule ∧
        g.Misshapen e.rule e.violation) ∧
    ∀ name symbols start word e,
      (Grammar.chart ⟨name, symbols, start, g.rules⟩ word = .error e ↔
        g.firstViolation? = some e) ∧
      (Grammar.parse ⟨name, symbols, start, g.rules⟩ word = .error e ↔
        g.firstViolation? = some e) := by
  refine ⟨fun _ => isNonTerminal_iff, Option.isNone_iff_eq_none, firstViolation?_eq_none_iff,
    ?_, ?_⟩
  · intro e
    rw [firstViolation?_eq_some_iff]
    constructor
    · intro h
      obtain ⟨before, after, hrules, hbefore, hv⟩ := h
      exact ⟨before, after, hrules, hbefore, hv.not_normalRule, hv⟩
    · intro h
      obtain ⟨before, after, hrules, hbefore, _, hv⟩ := h
      exact ⟨before, after, hrules, hbefore, hv⟩
  · intro name symbols start word e
    exact ⟨chart_eq_error_iff, parse_eq_error_iff⟩

end ChartParser.Grammar
