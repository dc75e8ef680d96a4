import ChartParser.Proofs.TextEdits

/-!
# One grammar text after another

A text that follows another on a new line is read as it would be by itself,
but for the numbers of its lines. What is asked of the whole file is not local
to a line: a bare name that was defined stays so, but a quoted one may now meet
a definition in the other text. If none does, the two vocabularies are merged
and the rules stand one after the other.
-/
namespace ChartParser.GrammarFile

/-- The number of lines of a text that is continued on a new line. -/
def lineCount (text : String) : ℕ := (text.toList.splitOn '\n').length

theorem toList_joined (first second : String) :
    (first ++ "\n" ++ second).toList = first.toList ++ '\n' :: second.toList := by
  rw [String.toList_append, String.toList_append, List.append_assoc]
  rfl

/-! ### The lines of both texts -/

theorem numberedTokens_joined (first second : String) :
    numberedTokens (first ++ "\n" ++ second) = numberedTokens first ++
      (numberedTokens second).map (Prod.map id (· + lineCount first)) := by
  have hshift : ((second.toList.splitOn '\n').map Token.lex).zipIdx (1 + lineCount first) =
      (((second.toList.splitOn '\n').map Token.lex).zipIdx 1).map
        (Prod.map id (· + lineCount first)) := by
    rw [List.map_snd_add_zipIdx_eq_zipIdx, Nat.add_comm]
  rw [numberedTokens_eq, numberedTokens_eq, numberedTokens_eq, toList_joined,
    List.splitOn_append_cons_self, List.map_append, List.zipIdx_append, List.filter_append,
    List.length_map, ← lineCount, hshift, List.filter_map]
  rfl

theorem lineFaults_joined (path first second : String) :
    lineFaults path (textLines (first ++ "\n" ++ second)) =
      lineFaults path (textLines first) ++
        (lineFaults path (textLines second)).map (Located.renumber (· + lineCount first)) := by
  rw [lineFaults_textLines, lineFaults_textLines, lineFaults_textLines, numberedTokens_joined,
    List.filterMap_append, filterMap_fault?_renumber]

theorem ruleLines_joined (first second : String) :
    ruleLines (textLines (first ++ "\n" ++ second)) = ruleLines (textLines first) ++
      (ruleLines (textLines second)).map (RuleLine.renumber (· + lineCount first)) := by
  rw [ruleLines_textLines, ruleLines_textLines, ruleLines_textLines, numberedTokens_joined,
    List.filterMap_append, filterMap_ruleLine?_renumber]

theorem mem_writtenItems_joined {first second : String} {i : Item} :
    i ∈ writtenItems (first ++ "\n" ++ second) ↔
      i ∈ writtenItems first ∨ i ∈ writtenItems second := by
  simp only [mem_writtenItems, ruleLines_joined, List.mem_append, or_and_right, exists_or,
    List.mem_map, exists_exists_and_eq_and]
  rfl

theorem exists_head_joined {first second name : String} :
    (∃ l ∈ ruleLines (textLines (first ++ "\n" ++ second)), l.head = name) ↔
      (∃ l ∈ ruleLines (textLines first), l.head = name) ∨
        ∃ l ∈ ruleLines (textLines second), l.head = name := by
  simp only [ruleLines_joined, List.mem_append, or_and_right, exists_or, List.mem_map,
    exists_exists_and_eq_and]
  rfl

/-! ### What the second text may spoil -/

/-- Whether an item is misused in the whole of a text is a question of its name alone. -/
theorem misusedItems_eq_nil_iff_written {text : String} : misusedItems (textLines text) = [] ↔
    ∀ i ∈ writtenItems text, ¬i.Misused (ruleLines (textLines text)) := by
  rw [misusedItems_eq_nil_iff]
  constructor
  · intro h i hi
    obtain ⟨l, hl, items, hitems, hmem⟩ := mem_writtenItems.mp hi
    exact h l hl items hitems i hmem
  · intro h l hl items hitems i hmem
    exact h i (mem_writtenItems.mpr ⟨l, hl, items, hitems, hmem⟩)

theorem exists_head_iff_isNonTerminal {path text : String} {g : Grammar}
    (h : ofText path text = .ok g) {name : String} :
    (∃ l ∈ ruleLines (textLines text), l.head = name) ↔ g.isNonTerminal ⟨name⟩ = true := by
  obtain ⟨_, first, rest, _, rfl⟩ := ofText_eq_ok h
  exact (isNonTerminal_assemble fun _ => alternatives_ne_nil).symm

/-- One grammar has for a terminal what the other defines. -/
def Clash (g h : Grammar) (s : Symbol) : Prop :=
  (s ∈ g.terminals ∧ h.isNonTerminal s = true) ∨ (s ∈ h.terminals ∧ g.isNonTerminal s = true)

theorem forall_not_clash_iff {g h : Grammar} : (∀ s, ¬Clash g h s) ↔
    (∀ s ∈ g.terminals, h.isNonTerminal s = false) ∧
      ∀ s ∈ h.terminals, g.isNonTerminal s = false := by
  simp only [Clash, not_or, not_and, Bool.not_eq_true, forall_and]

section Joined
variable {path first second : String} {g h : Grammar} (hg : ofText path first = .ok g)
  (hh : ofText path second = .ok h)
include hg hh

/-- Bare names stay defined, and a quoted name was not defined in its own text. -/
theorem misused_joined_iff {i : Item} (hi : i ∈ writtenItems (first ++ "\n" ++ second)) :
    i.Misused (ruleLines (textLines (first ++ "\n" ++ second))) ↔
      ∃ name, i = .quoted name ∧ Clash g h ⟨name⟩ := by
  have hhead : ∀ name, (∃ l ∈ ruleLines (textLines (first ++ "\n" ++ second)), l.head = name) ↔
      g.isNonTerminal ⟨name⟩ = true ∨ h.isNonTerminal ⟨name⟩ = true := by
    intro name
    rw [exists_head_joined, exists_head_iff_isNonTerminal hg, exists_head_iff_isNonTerminal hh]
  have hwritten := mem_writtenItems_joined.mp hi
  cases i with
  | bare name =>
      simp only [reduceCtorEq, false_and, exists_false, iff_false]
      intro hmisused
      obtain ⟨l, hl, hname⟩ := (hhead name).mpr
        (hwritten.imp (isNonTerminal_of_bare hg) (isNonTerminal_of_bare hh))
      exact hmisused l hl hname
  | quoted name =>
      simp only [Item.Misused, hhead, Item.quoted.injEq, exists_eq_left', Clash]
      rcases hwritten with hfirst | hsecond
      · have hterminal : ⟨name⟩ ∈ g.terminals := (mem_terminals_iff hg).mpr hfirst
        simp [hterminal, isNonTerminal_of_quoted hg hfirst]
      · have hterminal : ⟨name⟩ ∈ h.terminals := (mem_terminals_iff hh).mpr hsecond
        simp [hterminal, isNonTerminal_of_quoted hh hsecond]

theorem misusedItems_joined_eq_nil_iff :
    misusedItems (textLines (first ++ "\n" ++ second)) = [] ↔ ∀ s, ¬Clash g h s := by
  rw [misusedItems_eq_nil_iff_written]
  constructor
  · intro hnone s hclash
    have hi : .quoted s.name ∈ writtenItems (first ++ "\n" ++ second) := by
      rw [mem_writtenItems_joined, ← mem_terminals_iff hg, ← mem_terminals_iff hh]
      exact hclash.imp And.left And.left
    exact hnone _ hi ((misused_joined_iff hg hh hi).mpr ⟨s.name, rfl, hclash⟩)
  · intro hclear i hi hmisused
    obtain ⟨name, _, hclash⟩ := (misused_joined_iff hg hh hi).mp hmisused
    exact hclear ⟨name⟩ hclash

/-! ### The grammar of both texts -/

theorem lineFaults_joined_eq_nil : lineFaults path (textLines (first ++ "\n" ++ second)) = [] := by
  have hfirst : lineFaults path (textLines first) = [] := (ofLines_eq_ok_iff.mp hg).1
  have hsecond : lineFaults path (textLines second) = [] := (ofLines_eq_ok_iff.mp hh).1
  rw [lineFaults_joined, hfirst, hsecond]
  rfl

theorem exists_ofText_joined_iff :
    (∃ k, ofText path (first ++ "\n" ++ second) = .ok k) ↔ ∀ s, ¬Clash g h s := by
  rw [← misusedItems_joined_eq_nil_iff hg hh]
  constructor
  · intro hload
    obtain ⟨k, hk⟩ := hload
    exact (ofText_eq_ok hk).1
  · intro hnone
    obtain ⟨_, rule, rest, hlines, _⟩ := ofText_eq_ok hg
    have hrules : ruleLines (textLines (first ++ "\n" ++ second)) ≠ [] := by
      rw [ruleLines_joined, hlines]
      exact List.cons_ne_nil _ _
    obtain ⟨_, hreport⟩ := ofLines_report path (textLines (first ++ "\n" ++ second))
    exact ((hreport (lineFaults_joined_eq_nil hg hh)).2 hnone).2 hrules

/-- Where there is a clash, each error is about one. -/
theorem clash_of_joined {errors : List LoadError}
    (herrors : ofText path (first ++ "\n" ++ second) = .error errors) :
    errors ≠ [] ∧ ∀ e ∈ errors, ∃ name, e.cause = .ambiguousSymbol name ∧ Clash g h ⟨name⟩ := by
  have hsome : misusedItems (textLines (first ++ "\n" ++ second)) ≠ [] := by
    intro hnone
    rw [misusedItems_joined_eq_nil_iff hg hh, ← exists_ofText_joined_iff hg hh] at hnone
    obtain ⟨k, hk⟩ := hnone
    rw [hk] at herrors
    cases herrors
  obtain ⟨_, hreport⟩ := ofLines_report path (textLines (first ++ "\n" ++ second))
  have hmisused := (hreport (lineFaults_joined_eq_nil hg hh)).1 hsome
  obtain rfl := Except.error.inj (herrors.symm.trans hmisused)
  constructor
  · rwa [ne_eq, List.map_eq_nil_iff]
  · intro e he
    obtain ⟨x, hx, rfl⟩ := List.mem_map.mp he
    obtain ⟨hoccurs, hmisuse⟩ := List.mem_filter.mp hx
    have hi : x.1 ∈ writtenItems (first ++ "\n" ++ second) := List.mem_map_of_mem hoccurs
    obtain ⟨name, hname, hclash⟩ := (misused_joined_iff hg hh hi).mp (of_decide_eq_true hmisuse)
    exact ⟨name, congrArg Item.misuse hname, hclash⟩

variable {k : Grammar} (hk : ofText path (first ++ "\n" ++ second) = .ok k)
include hk

theorem rules_joined : k.rules = g.rules ++ h.rules := by
  rw [rules_of_ofText hk, rules_of_ofText hg, rules_of_ofText hh, ruleLines_joined,
    List.flatMap_append, List.flatMap_map]
  rfl

theorem start_joined : k.start = g.start := by
  have hstart := start_of_ofText hk
  have hfirst := start_of_ofText hg
  rw [rules_joined hg hh hk, List.head?_append] at hstart
  obtain ⟨r, hr, hlhs⟩ := Option.map_eq_some_iff.mp hfirst
  rw [hr, Option.some_or, Option.map_some, hlhs] at hstart
  exact (Option.some.inj hstart).symm

theorem symbols_joined : k.symbols = g.symbols ++ h.symbols.filter (· ∉ g.symbols) := by
  apply List.map_injective_iff.mpr Symbol.name_injective
  rw [names_of_ofText hk, rules_joined hg hh hk, List.flatMap_append, appendNew_append,
    ← names_of_ofText hg, appendNew_eq_append_filter, ← names_of_ofText hh, List.filter_map,
    List.map_append]
  simp only [Function.comp_def, Symbol.name_mem_map]

end Joined

/-- Two texts that load also load one after the other, unless a terminal of one of their grammars
is a non-terminal of the other. The start symbol is then that of the first, the rules of the
second follow those of the first, and so do the symbols that are new. Otherwise each error is
about such a terminal. -/
theorem ofText_joined {path first second : String} {g h : Grammar}
    (hg : ofText path first = .ok g) (hh : ofText path second = .ok h) :
    ((∃ k, ofText path (first ++ "\n" ++ second) = .ok k) ↔
      (∀ s ∈ g.terminals, h.isNonTerminal s = false) ∧
        ∀ s ∈ h.terminals, g.isNonTerminal s = false) ∧
    (∀ k, ofText path (first ++ "\n" ++ second) = .ok k →
      k.name = g.name ∧ k.start = g.start ∧ k.rules = g.rules ++ h.rules ∧
        k.symbols = g.symbols ++ h.symbols.filter (· ∉ g.symbols)) ∧
    ∀ errors, ofText path (first ++ "\n" ++ second) = .error errors →
      errors ≠ [] ∧ ∀ e ∈ errors, ∃ name, e.cause = .ambiguousSymbol name ∧ Clash g h ⟨name⟩ := by
  refine ⟨?_, ?_, fun _ => clash_of_joined hg hh⟩
  · rw [← forall_not_clash_iff]
    exact exists_ofText_joined_iff hg hh
  · intro k hk
    have hname : k.name = g.name := (name_of_ofText hk).trans (name_of_ofText hg).symm
    exact ⟨hname, start_joined hg hh hk, rules_joined hg hh hk, symbols_joined hg hh hk⟩

/-- A definition of what the assignments have for a terminal. -/
def redefinitionText : String := "x = \"y\""

def redefinition : Grammar where
  name := "assign"
  symbols := [⟨"x"⟩, ⟨"y"⟩]
  start := ⟨"x"⟩
  rules := [⟨⟨"x"⟩, [⟨"y"⟩]⟩]

theorem ofText_redefinitionText : ofText "assign.bnf" redefinitionText = .ok redefinition := by
  have hfaults : lineFaults "assign.bnf" (textLines redefinitionText) = [] := by with_unfolding_all rfl
  have hmisused : misusedItems (textLines redefinitionText) = [] := by with_unfolding_all rfl
  have hlines : ruleLines (textLines redefinitionText) = [⟨"x", [[.quoted "y"]], 1⟩] := by with_unfolding_all rfl
  have hassemble : assemble "assign.bnf" "x" [⟨"x", [[.quoted "y"]], 1⟩] = redefinition := by
    decide +kernel
  exact ofText_of_ruleLines hfaults hmisused hlines hassemble

/-- The assignments may be written twice, but `x` may not be defined after them. -/
theorem ofText_joined_assignments :
    ofText "assign.bnf" assignmentText = .ok assignments ∧
    ofText "assign.bnf" redefinitionText = .ok redefinition ∧
    (∃ k, ofText "assign.bnf" (assignmentText ++ "\n" ++ assignmentText) = .ok k ∧
      k.rules = assignments.rules ++ assignments.rules ∧ k.symbols = assignments.symbols) ∧
    ¬∃ k, ofText "assign.bnf" (assignmentText ++ "\n" ++ redefinitionText) = .ok k := by
  refine ⟨ofText_assignmentText, ofText_redefinitionText, ?_, ?_⟩
  · obtain ⟨hload, hcontent, _⟩ := ofText_joined ofText_assignmentText ofText_assignmentText
    obtain ⟨k, hk⟩ := hload.mpr (by decide)
    obtain ⟨_, _, hrules, hsymbols⟩ := hcontent k hk
    exact ⟨k, hk, hrules, hsymbols.trans (by decide)⟩
  · rw [(ofText_joined ofText_assignmentText ofText_redefinitionText).1]
    decide

end ChartParser.GrammarFile
