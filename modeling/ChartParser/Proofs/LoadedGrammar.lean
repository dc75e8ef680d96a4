import ChartParser.Proofs.AppendNew
import ChartParser.Proofs.LoadReport
import Mathlib.Data.List.Basic

/-!
# Grammars that were loaded

A grammar keeps of its file the names and their order, but not which of them
were quoted. Nothing is lost by that: each line of rules gives at least one
rule, so the names that lines define are the heads of rules, and the check of
the whole file lets pass only bare names that are such heads and quoted names
that are not.
-/
namespace ChartParser

theorem Symbol.name_injective : Function.Injective Symbol.name := fun _ _ => congrArg Symbol.mk

theorem Symbol.name_mem_map {symbols : List Symbol} {s : Symbol} :
    s.name ∈ symbols.map Symbol.name ↔ s ∈ symbols :=
  List.mem_map_of_injective Symbol.name_injective

/-- The names in a rule, in the order of writing. -/
def Rule.names (r : Rule) : List String := r.lhs.name :: r.rhs.map Symbol.name

theorem Rule.name_mem_names {r : Rule} {s : Symbol} :
    s.name ∈ r.names ↔ s = r.lhs ∨ s ∈ r.rhs := by
  rw [Rule.names, List.mem_cons, Symbol.name_mem_map, Symbol.name_injective.eq_iff]

namespace GrammarFile

/-- The lines of a text, which cannot fail to be read. -/
def textLines (text : String) : List Line :=
  (Text.lines '\n' '\r' text.toList).map .ok

theorem ofRuleLines_eq_ok_iff {path : String} {lines : List RuleLine} {g : Grammar} :
    ofRuleLines path lines = .ok g ↔ misuses path lines = [] ∧
      ∃ first rest, lines = first :: rest ∧ assemble path first.head lines = g := by
  cases hmisuses : misuses path lines with
  | cons e es =>
      have hne : misuses path lines ≠ [] := by simp [hmisuses]
      rw [ofRuleLines_of_misuses_ne_nil hne]
      simp
  | nil =>
      cases lines with
      | nil => simp [ofRuleLines, misuses]
      | cons first rest =>
          rw [ofRuleLines_cons hmisuses]
          simp

/-- A file loads when its lines have no faults, its items are used well and it has a rule. -/
theorem ofLines_eq_ok_iff {path : String} {lines : List Line} {g : Grammar} :
    ofLines path lines = .ok g ↔ lineFaults path lines = [] ∧ misusedItems lines = [] ∧
      ∃ first rest, ruleLines lines = first :: rest ∧
        assemble path first.head (ruleLines lines) = g := by
  have hmisuses : misuses path (ruleLines lines) = [] ↔ misusedItems lines = [] := by
    rw [misuses_ruleLines, List.map_eq_nil_iff]
  rw [ofLines_eq]
  split_ifs with h
  · rw [ofRuleLines_eq_ok_iff, hmisuses]
    simp [h]
  · simp [h]

/-! ### Heads and items -/

theorem alternatives_ne_nil {lines : List Line} {l : RuleLine} (h : l ∈ ruleLines lines) :
    l.alternatives ≠ [] := by
  obtain ⟨number, text, _, htext⟩ := mem_ruleLines h
  exact (RuleLine.ofText_eq_ok_some_iff.mp htext).2.1

theorem mem_rules_of_head {l : RuleLine} {r : Rule} (h : r ∈ l.rules) : r.lhs = ⟨l.head⟩ := by
  obtain ⟨items, _, rfl⟩ := List.mem_map.mp h
  rfl

@[simp] theorem rules_assemble (path start : String) (lines : List RuleLine) :
    (assemble path start lines).rules = lines.flatMap RuleLine.rules := rfl

/-- A name heads a rule when it is the head of a line. -/
theorem isNonTerminal_assemble {path start : String} {lines : List RuleLine}
    (hne : ∀ l ∈ lines, l.alternatives ≠ []) {name : String} :
    (assemble path start lines).isNonTerminal ⟨name⟩ = true ↔ ∃ l ∈ lines, l.head = name := by
  rw [Grammar.isNonTerminal_iff]
  constructor
  · intro h
    obtain ⟨r, hr, hname⟩ := h
    obtain ⟨l, hl, hrl⟩ := List.mem_flatMap.mp hr
    rw [mem_rules_of_head hrl] at hname
    exact ⟨l, hl, Symbol.mk.inj hname⟩
  · intro h
    obtain ⟨l, hl, rfl⟩ := h
    obtain ⟨items, hitems⟩ := List.exists_mem_of_ne_nil _ (hne l hl)
    have hr : ⟨⟨l.head⟩, items.map fun i => ⟨i.name⟩⟩ ∈ l.rules := List.mem_map_of_mem hitems
    exact ⟨_, List.mem_flatMap.mpr ⟨l, hl, hr⟩, rfl⟩

theorem mem_occurrences {lines : List Line} {i : Item} :
    (∃ number, (i, number) ∈ occurrences lines) ↔
      ∃ l ∈ ruleLines lines, ∃ items ∈ l.alternatives, i ∈ items := by
  simp only [occurrences_eq, List.mem_flatMap, List.mem_map, Prod.mk.injEq, List.mem_flatten]
  constructor
  · intro h
    obtain ⟨_, l, hl, i', ⟨items, hitems, hi⟩, rfl, _⟩ := h
    exact ⟨l, hl, items, hitems, hi⟩
  · intro h
    obtain ⟨l, hl, items, hitems, hi⟩ := h
    exact ⟨l.number, l, hl, i, ⟨items, hitems, hi⟩, rfl, rfl⟩

theorem misusedItems_eq_nil_iff {lines : List Line} : misusedItems lines = [] ↔
    ∀ l ∈ ruleLines lines, ∀ items ∈ l.alternatives, ∀ i ∈ items,
      ¬i.Misused (ruleLines lines) := by
  simp only [misusedItems, List.filter_eq_nil_iff, decide_eq_true_eq]
  constructor
  · intro h l hl items hitems i hi
    obtain ⟨number, hocc⟩ := mem_occurrences.mpr ⟨l, hl, items, hitems, hi⟩
    exact h (i, number) hocc
  · intro h x hx
    obtain ⟨l, hl, items, hitems, hi⟩ := mem_occurrences.mp ⟨x.2, hx⟩
    exact h l hl items hitems x.1 hi

/-- Whether an item was quoted can be told from its name. -/
theorem isNonTerminal_of_not_misused {path start : String} {lines : List RuleLine}
    (hne : ∀ l ∈ lines, l.alternatives ≠ []) {i : Item} (hi : ¬i.Misused lines) :
    (assemble path start lines).isNonTerminal ⟨i.name⟩ = true ↔ i = .bare i.name := by
  rw [isNonTerminal_assemble hne]
  cases i with
  | bare name =>
      simp only [Item.Misused, ne_eq, not_forall, not_not] at hi
      obtain ⟨l, hl, hname⟩ := hi
      simp only [Item.name, iff_true]
      exact ⟨l, hl, hname⟩
  | quoted name =>
      simp only [Item.name, reduceCtorEq, iff_false]
      exact hi

/-! ### The vocabulary -/

/-- A head that is listed already may be repeated before each alternative. -/
theorem appendNew_heads {old : List String} {head : String} (hhead : head ∈ old)
    (alternatives : List (List Item)) :
    appendNew old (alternatives.flatMap fun items => head :: items.map Item.name) =
      appendNew old (alternatives.flatten.map Item.name) := by
  induction alternatives generalizing old with
  | nil => rfl
  | cons items rest ih =>
      have hmem : head ∈ appendNew old (items.map Item.name) := mem_appendNew.mpr (Or.inl hhead)
      rw [List.flatMap_cons, List.cons_append, appendNew, if_pos hhead, appendNew_append, ih hmem,
        List.flatten_cons, List.map_append, appendNew_append]

theorem appendNew_names {l : RuleLine} (hne : l.alternatives ≠ []) (old : List String) :
    appendNew old l.names = appendNew old (l.rules.flatMap Rule.names) := by
  obtain ⟨items, rest, hcons⟩ := List.exists_cons_of_ne_nil hne
  have hrules : l.rules.flatMap Rule.names =
      l.alternatives.flatMap fun items => l.head :: items.map Item.name := by
    simp only [RuleLine.rules, List.flatMap_map, Rule.names, List.map_map]
    rfl
  have hself : l.head ∈ appendNew old [l.head] := mem_appendNew.mpr (Or.inr List.mem_cons_self)
  have hlines : l.names = [l.head] ++ l.alternatives.flatten.map Item.name := rfl
  rw [hrules, hcons, List.flatMap_cons, List.cons_append, ← List.singleton_append, appendNew_append,
    appendNew_append, appendNew_heads (mem_appendNew.mpr (Or.inl hself)), hlines, appendNew_append,
    hcons, List.flatten_cons, List.map_append, appendNew_append]

/-- In the rules the names appear for the first time in the same order as in the lines. -/
theorem appendNew_flatMap_names {lines : List RuleLine}
    (hne : ∀ l ∈ lines, l.alternatives ≠ []) (old : List String) :
    appendNew old (lines.flatMap RuleLine.names) =
      appendNew old ((lines.flatMap RuleLine.rules).flatMap Rule.names) := by
  induction lines generalizing old with
  | nil => rfl
  | cons l lines ih =>
      have hl : l.alternatives ≠ [] := hne l List.mem_cons_self
      have hrest := ih fun l' hl' => hne l' (List.mem_cons_of_mem l hl')
      rw [List.flatMap_cons, List.flatMap_cons, List.flatMap_append, appendNew_append,
        appendNew_append, appendNew_names hl, hrest]

theorem map_name_symbols_assemble (path start : String) (lines : List RuleLine) :
    (assemble path start lines).symbols.map Symbol.name =
      appendNew [] (lines.flatMap RuleLine.names) := by
  rw [assemble, List.map_map, eraseDups_eq_appendNew]
  exact List.map_id _

theorem mem_symbols_assemble {path start : String} {lines : List RuleLine} {s : Symbol} :
    s ∈ (assemble path start lines).symbols ↔ s.name ∈ lines.flatMap RuleLine.names := by
  rw [← Symbol.name_mem_map, map_name_symbols_assemble, mem_appendNew]
  simp

theorem mem_symbols_iff_exists_rule {path start : String} {lines : List RuleLine}
    (hne : ∀ l ∈ lines, l.alternatives ≠ []) {s : Symbol} :
    s ∈ (assemble path start lines).symbols ↔
      ∃ r ∈ (assemble path start lines).rules, s = r.lhs ∨ s ∈ r.rhs := by
  have hnames : s.name ∈ lines.flatMap RuleLine.names ↔
      s.name ∈ (lines.flatMap RuleLine.rules).flatMap Rule.names := by
    have hmem : s.name ∈ appendNew [] (lines.flatMap RuleLine.names) ↔
        s.name ∈ appendNew [] ((lines.flatMap RuleLine.rules).flatMap Rule.names) := by
      rw [appendNew_flatMap_names hne]
    simpa only [mem_appendNew, List.not_mem_nil, false_or] using hmem
  rw [mem_symbols_assemble, hnames, List.mem_flatMap]
  simp only [Rule.name_mem_names]
  rfl

/-! ### What loading gives -/

/-- The items of a text, in the order of writing. -/
def writtenItems (text : String) : List Item :=
  (occurrences (textLines text)).map Prod.fst

theorem mem_writtenItems {text : String} {i : Item} : i ∈ writtenItems text ↔
    ∃ l ∈ ruleLines (textLines text), ∃ items ∈ l.alternatives, i ∈ items := by
  rw [← mem_occurrences, writtenItems]
  simp

/-- The grammar of a text is assembled of its rule lines, of which there is one at least. -/
theorem ofText_eq_ok {path text : String} {g : Grammar} (h : ofText path text = .ok g) :
    misusedItems (textLines text) = [] ∧ ∃ first rest,
      ruleLines (textLines text) = first :: rest ∧
        assemble path first.head (ruleLines (textLines text)) = g :=
  (ofLines_eq_ok_iff.mp h).2

theorem ofText_of_ruleLines {path text : String} {first : RuleLine} {rest : List RuleLine}
    {g : Grammar} (hfaults : lineFaults path (textLines text) = [])
    (hmisused : misusedItems (textLines text) = [])
    (hlines : ruleLines (textLines text) = first :: rest)
    (hassemble : assemble path first.head (first :: rest) = g) : ofText path text = .ok g := by
  rw [← hlines] at hassemble
  exact ofLines_eq_ok_iff.mpr ⟨hfaults, hmisused, first, rest, hlines, hassemble⟩

theorem head?_rules_assemble {path : String} {first : RuleLine} {rest : List RuleLine}
    (hne : first.alternatives ≠ []) :
    (assemble path first.head (first :: rest)).rules.head?.map Rule.lhs = some ⟨first.head⟩ := by
  obtain ⟨items, others, hcons⟩ := List.exists_cons_of_ne_nil hne
  simp [assemble, RuleLine.rules, hcons]

theorem name_of_ofText {path text : String} {g : Grammar} (h : ofText path text = .ok g) :
    g.name = Path.stem path := by
  obtain ⟨_, first, rest, _, rfl⟩ := ofText_eq_ok h
  rfl

theorem rules_of_ofText {path text : String} {g : Grammar} (h : ofText path text = .ok g) :
    g.rules = (ruleLines (textLines text)).flatMap RuleLine.rules := by
  obtain ⟨_, first, rest, _, rfl⟩ := ofText_eq_ok h
  rw [rules_assemble]

theorem start_of_ofText {path text : String} {g : Grammar} (h : ofText path text = .ok g) :
    g.rules.head?.map Rule.lhs = some g.start := by
  obtain ⟨_, first, rest, hlines, rfl⟩ := ofText_eq_ok h
  have hne : first.alternatives ≠ [] :=
    alternatives_ne_nil (by rw [hlines]; exact List.mem_cons_self)
  rw [hlines]
  exact head?_rules_assemble hne

theorem names_of_ofText {path text : String} {g : Grammar} (h : ofText path text = .ok g) :
    g.symbols.map Symbol.name = appendNew [] (g.rules.flatMap Rule.names) := by
  rw [rules_of_ofText h, ← appendNew_flatMap_names fun _ => alternatives_ne_nil]
  obtain ⟨_, first, rest, _, rfl⟩ := ofText_eq_ok h
  exact map_name_symbols_assemble _ _ _

theorem mem_symbols_of_ofLines {path : String} {lines : List Line} {g : Grammar}
    (h : ofLines path lines = .ok g) {s : Symbol} :
    s ∈ g.symbols ↔ ∃ r ∈ g.rules, s = r.lhs ∨ s ∈ r.rhs := by
  obtain ⟨_, _, first, rest, _, rfl⟩ := ofLines_eq_ok_iff.mp h
  exact mem_symbols_iff_exists_rule fun _ => alternatives_ne_nil

theorem mem_symbols_of_ofText {path text : String} {g : Grammar} (h : ofText path text = .ok g)
    {s : Symbol} : s ∈ g.symbols ↔ ∃ r ∈ g.rules, s = r.lhs ∨ s ∈ r.rhs :=
  mem_symbols_of_ofLines h

theorem isNonTerminal_of_mem_writtenItems {path text : String} {g : Grammar}
    (h : ofText path text = .ok g) {i : Item} (hi : i ∈ writtenItems text) :
    g.isNonTerminal ⟨i.name⟩ = true ↔ i = .bare i.name := by
  obtain ⟨hmisused, first, rest, _, rfl⟩ := ofText_eq_ok h
  obtain ⟨l, hl, items, hitems, hmem⟩ := mem_writtenItems.mp hi
  exact isNonTerminal_of_not_misused (fun _ => alternatives_ne_nil)
    (misusedItems_eq_nil_iff.mp hmisused l hl items hitems i hmem)

theorem isNonTerminal_of_bare {path text : String} {g : Grammar} (h : ofText path text = .ok g)
    {name : String} (hname : .bare name ∈ writtenItems text) : g.isNonTerminal ⟨name⟩ = true :=
  (isNonTerminal_of_mem_writtenItems h hname).mpr rfl

theorem isNonTerminal_of_quoted {path text : String} {g : Grammar} (h : ofText path text = .ok g)
    {name : String} (hname : .quoted name ∈ writtenItems text) :
    g.isNonTerminal ⟨name⟩ = false := by
  have hbare := isNonTerminal_of_mem_writtenItems h hname
  exact Bool.eq_false_iff.mpr fun htrue => Item.noConfusion (hbare.mp htrue)

theorem exists_mem_rhs_iff {path text : String} {g : Grammar} (h : ofText path text = .ok g)
    {s : Symbol} : (∃ r ∈ g.rules, s ∈ r.rhs) ↔ ∃ i ∈ writtenItems text, s = ⟨i.name⟩ := by
  simp only [rules_of_ofText h, mem_writtenItems, List.mem_flatMap, RuleLine.rules, List.mem_map]
  constructor
  · intro hs
    obtain ⟨_, ⟨l, hl, items, hitems, rfl⟩, hs⟩ := hs
    obtain ⟨i, hi, rfl⟩ := List.mem_map.mp hs
    exact ⟨i, ⟨l, hl, items, hitems, hi⟩, rfl⟩
  · intro hs
    obtain ⟨i, ⟨l, hl, items, hitems, hi⟩, rfl⟩ := hs
    exact ⟨_, ⟨l, hl, items, hitems, rfl⟩, List.mem_map_of_mem hi⟩

/-- A symbol that heads no rule stands in one, and a bare name there would head one. -/
theorem quoted_of_terminal {path text : String} {g : Grammar} (h : ofText path text = .ok g)
    {s : Symbol} (hs : s ∈ g.symbols) (hterminal : g.isNonTerminal s = false) :
    .quoted s.name ∈ writtenItems text := by
  obtain ⟨r, hr, hsr⟩ := (mem_symbols_of_ofText h).mp hs
  rcases hsr with rfl | hsr
  · have hhead := Grammar.isNonTerminal_iff.mpr ⟨r, hr, rfl⟩
    rw [hterminal] at hhead
    cases hhead
  · obtain ⟨i, hi, rfl⟩ := (exists_mem_rhs_iff h).mp ⟨r, hr, hsr⟩
    cases i with
    | bare name =>
        have hhead := isNonTerminal_of_bare h hi
        rw [show g.isNonTerminal ⟨name⟩ = false from hterminal] at hhead
        cases hhead
    | quoted name => exact hi

theorem mem_terminals_iff {path text : String} {g : Grammar} (h : ofText path text = .ok g)
    {s : Symbol} : s ∈ g.terminals ↔ .quoted s.name ∈ writtenItems text := by
  rw [Grammar.terminals, List.mem_filter, Bool.not_eq_true']
  constructor
  · intro hs
    exact quoted_of_terminal h hs.1 hs.2
  · intro hs
    obtain ⟨r, hr, hsr⟩ := (exists_mem_rhs_iff h).mpr ⟨_, hs, rfl⟩
    exact ⟨(mem_symbols_of_ofText h).mpr ⟨r, hr, Or.inr hsr⟩, isNonTerminal_of_quoted h hs⟩

/-- A loaded grammar starts with the head of its first rule, lists the names of its rules by
their first appearance in the text, has the alternatives of the lines for its rules, and tells by
them which names were bare and which were quoted. -/
theorem ofText_loaded {path text : String} {g : Grammar} (h : ofText path text = .ok g) :
    g.rules.head?.map Rule.lhs = some g.start ∧
    FirstAppearances ((ruleLines (textLines text)).flatMap RuleLine.names)
      (g.symbols.map Symbol.name) ∧
    (∀ s, s ∈ g.symbols ↔ ∃ r ∈ g.rules, s = r.lhs ∨ s ∈ r.rhs) ∧
    g.rules = (ruleLines (textLines text)).flatMap RuleLine.rules ∧
    (∀ l ∈ ruleLines (textLines text), l.alternatives ≠ []) ∧
    (∀ name, .bare name ∈ writtenItems text → g.isNonTerminal ⟨name⟩ = true) ∧
    (∀ name, .quoted name ∈ writtenItems text → g.isNonTerminal ⟨name⟩ = false) ∧
    g.terminals.Nodup ∧ ∀ s, s ∈ g.terminals ↔ .quoted s.name ∈ writtenItems text := by
  have hfirst := firstAppearances_appendNew ((ruleLines (textLines text)).flatMap RuleLine.names)
  have hnames : g.symbols.map Symbol.name =
      appendNew [] ((ruleLines (textLines text)).flatMap RuleLine.names) := by
    rw [appendNew_flatMap_names fun _ => alternatives_ne_nil, ← rules_of_ofText h]
    exact names_of_ofText h
  have hnodup : g.symbols.Nodup := (hnames ▸ hfirst.nodup).of_map _
  exact ⟨start_of_ofText h, hnames ▸ hfirst, fun _ => mem_symbols_of_ofText h, rules_of_ofText h,
    fun _ => alternatives_ne_nil, fun _ => isNonTerminal_of_bare h,
    fun _ => isNonTerminal_of_quoted h, hnodup.filter _, fun _ => mem_terminals_iff h⟩

/-- Assignments in sequence: a name defined on two lines, an empty alternative, and the mark of a
definition as a terminal. -/
def assignmentText : String :=
  "; assignments\nS = V \"=\" S |\n\nS = \"0\"\r\nV = \"x\""

def assignments : Grammar where
  name := "assign"
  symbols := [⟨"S"⟩, ⟨"V"⟩, ⟨"="⟩, ⟨"0"⟩, ⟨"x"⟩]
  start := ⟨"S"⟩
  rules := [⟨⟨"S"⟩, [⟨"V"⟩, ⟨"="⟩, ⟨"S"⟩]⟩, ⟨⟨"S"⟩, []⟩, ⟨⟨"S"⟩, [⟨"0"⟩]⟩, ⟨⟨"V"⟩, [⟨"x"⟩]⟩]

/-- The rule lines of the assignments. -/
def assignmentLines : List RuleLine :=
  [⟨"S", [[.bare "V", .quoted "=", .bare "S"], []], 2⟩, ⟨"S", [[.quoted "0"]], 4⟩,
    ⟨"V", [[.quoted "x"]], 5⟩]

theorem ruleLines_assignmentText :
    ruleLines (textLines assignmentText) = assignmentLines := by with_unfolding_all rfl

theorem ofText_assignmentText : ofText "assign.bnf" assignmentText = .ok assignments := by
  have hfaults : lineFaults "assign.bnf" (textLines assignmentText) = [] := by
    with_unfolding_all rfl
  have hmisused : misusedItems (textLines assignmentText) = [] := by with_unfolding_all rfl
  have hassemble : assemble "assign.bnf" "S" assignmentLines = assignments := by decide +kernel
  exact ofText_of_ruleLines hfaults hmisused ruleLines_assignmentText hassemble

theorem ofText_loaded_assignments : ofText "assign.bnf" assignmentText = .ok assignments ∧
    .bare "V" ∈ writtenItems assignmentText ∧ assignments.isNonTerminal ⟨"V"⟩ = true ∧
    .quoted "=" ∈ writtenItems assignmentText ∧ assignments.isNonTerminal ⟨"="⟩ = false := by
  have hwritten : writtenItems assignmentText =
      [.bare "V", .quoted "=", .bare "S", .quoted "0", .quoted "x"] := by
    with_unfolding_all rfl
  have hV : .bare "V" ∈ writtenItems assignmentText := by
    rw [hwritten]
    simp
  have heq : .quoted "=" ∈ writtenItems assignmentText := by
    rw [hwritten]
    simp
  obtain ⟨_, _, _, _, _, hbare, hquoted, _⟩ := ofText_loaded ofText_assignmentText
  exact ⟨ofText_assignmentText, hV, hbare "V" hV, heq, hquoted "=" heq⟩

end GrammarFile

end ChartParser
