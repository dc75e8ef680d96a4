import ChartParser.GrammarFile.Print
import ChartParser.Proofs.LoadedGrammar

/-!
# Printing a grammar and loading it back

A grammar can be printed when the heads of its rules can stand without quotes
and its other symbols between quotes on a single line. What is printed then
has one line for each rule, and the line reads as that rule and nothing else.
Every loaded grammar can be printed, and since a load is determined by its
rules, printing and loading again gives the same grammar.
-/
namespace ChartParser

/-- A text that can stand for a symbol between quotes. -/
structure GrammarFile.QuotableText (text : String) : Prop where
  no_quote : '"' ∉ text.toList
  no_feed : '\n' ∉ text.toList

structure Grammar.Printable (g : Grammar) : Prop where
  rules_ne_nil : g.rules ≠ []
  bare : ∀ r ∈ g.rules, GrammarFile.BareName r.lhs.name
  quotable : ∀ r ∈ g.rules, ∀ s ∈ r.rhs, g.isNonTerminal s = false →
    GrammarFile.QuotableText s.name

instance (text : String) : Decidable (GrammarFile.QuotableText text) :=
  decidable_of_iff ('"' ∉ text.toList ∧ '\n' ∉ text.toList)
    ⟨fun h => ⟨h.1, h.2⟩, fun h => ⟨h.no_quote, h.no_feed⟩⟩

instance (g : Grammar) : Decidable g.Printable :=
  decidable_of_iff (g.rules ≠ [] ∧ (∀ r ∈ g.rules, GrammarFile.BareName r.lhs.name) ∧
      ∀ r ∈ g.rules, ∀ s ∈ r.rhs, g.isNonTerminal s = false → GrammarFile.QuotableText s.name)
    ⟨fun h => ⟨h.1, h.2.1, h.2.2⟩, fun h => ⟨h.rules_ne_nil, h.bare, h.quotable⟩⟩

variable {g : Grammar} {s : Symbol} {r : Rule}

theorem Grammar.Printable.bareName (hg : g.Printable) (hs : g.isNonTerminal s = true) :
    GrammarFile.BareName s.name := by
  obtain ⟨r, hr, rfl⟩ := Grammar.isNonTerminal_iff.mp hs
  exact hg.bare r hr

namespace GrammarFile

/-! ### Printed lines -/

/-- The right side of a rule as it is printed, each item after a blank. -/
def rhsText (g : Grammar) (rhs : List Symbol) : List Char :=
  rhs.flatMap fun s => ' ' :: (printItem g s).toList

/-- The line of a rule without the feed at its end. -/
def lineText (g : Grammar) (r : Rule) : List Char :=
  r.lhs.name.toList ++ ' ' :: '=' :: rhsText g r.rhs

theorem toList_print (g : Grammar) :
    (print g).toList = (g.rules.map (lineText g)).flatMap (· ++ ['\n']) := by
  have hrule : ∀ r, (printRule g r).toList = lineText g r ++ ['\n'] := by
    intro r
    simp [printRule, lineText, rhsText, String.toList_join, List.flatMap_map]
  simp only [print, String.toList_join, List.flatMap_map, hrule]

theorem toList_printItem_of_isNonTerminal (hs : g.isNonTerminal s = true) :
    (printItem g s).toList = s.name.toList := by
  rw [printItem, if_pos hs]

theorem toList_printItem_of_terminal (hs : g.isNonTerminal s = false) :
    (printItem g s).toList = '"' :: (s.name.toList ++ ['"']) := by
  simp [printItem, hs]

theorem feed_not_mem_printItem (hg : g.Printable) (hr : r ∈ g.rules) (hs : s ∈ r.rhs) :
    '\n' ∉ (printItem g s).toList := by
  cases hhead : g.isNonTerminal s with
  | true =>
      rw [toList_printItem_of_isNonTerminal hhead]
      exact (hg.bareName hhead).not_mem_of_isBlank rfl
  | false =>
      rw [toList_printItem_of_terminal hhead]
      simpa using (hg.quotable r hr s hs hhead).no_feed

theorem feed_not_mem_lineText (hg : g.Printable) (hr : r ∈ g.rules) : '\n' ∉ lineText g r := by
  have hhead : '\n' ∉ r.lhs.name.toList := (hg.bare r hr).not_mem_of_isBlank rfl
  have hrhs : '\n' ∉ rhsText g r.rhs := by
    intro h
    obtain ⟨s, hs, h⟩ := List.mem_flatMap.mp h
    exact feed_not_mem_printItem hg hr hs (by simpa using h)
  simpa [lineText, hhead] using hrhs

/-- No return would be taken for part of the end of a printed line. -/
theorem getLast?_lineText (hg : g.Printable) (r : Rule) :
    (lineText g r).getLast? ≠ some '\r' := by
  rcases List.eq_nil_or_concat r.rhs with hnil | ⟨init, s, hconcat⟩
  · simp [lineText, rhsText, hnil]
  · have hrhs : rhsText g r.rhs = rhsText g init ++ ' ' :: (printItem g s).toList := by
      simp [rhsText, hconcat]
    have hlast : (lineText g r).getLast? = (' ' :: (printItem g s).toList).getLast? := by
      rw [lineText, hrhs]
      simp [List.getLast?_cons]
    rw [hlast]
    cases hhead : g.isNonTerminal s with
    | true =>
        intro hreturn
        rw [toList_printItem_of_isNonTerminal hhead] at hreturn
        have hmem := List.mem_of_getLast? hreturn
        exact (hg.bareName hhead).not_mem_of_isBlank rfl (by simpa using hmem)
    | false =>
        rw [toList_printItem_of_terminal hhead]
        simp [List.getLast?_cons]

theorem textLines_print (hg : g.Printable) :
    textLines (print g) = g.rules.map fun r => .ok (lineText g r) := by
  have hfeed : ∀ line ∈ g.rules.map (lineText g), '\n' ∉ line := by
    intro line hline
    obtain ⟨r, hr, rfl⟩ := List.mem_map.mp hline
    exact feed_not_mem_lineText hg hr
  have hreturn : ∀ r, Text.dropReturn '\r' (lineText g r) = lineText g r := by
    intro r
    rw [Text.dropReturn, if_neg (getLast?_lineText hg r)]
  rw [textLines, toList_print, Text.lines_flatMap_feed hfeed, List.map_map, List.map_map]
  exact List.map_congr_left fun r _ => congrArg _ (hreturn r)

/-! ### Printed lines read back -/

/-- The item that a symbol is printed as. -/
def writtenItem (g : Grammar) (s : Symbol) : Item :=
  if g.isNonTerminal s then .bare s.name else .quoted s.name

/-- The rule line that a rule is printed as. -/
def writtenLine (g : Grammar) (r : Rule) (number : ℕ) : RuleLine :=
  { head := r.lhs.name, alternatives := [r.rhs.map (writtenItem g)], number }

@[simp] theorem name_writtenItem (g : Grammar) (s : Symbol) : (writtenItem g s).name = s.name := by
  rw [writtenItem]
  split_ifs
  · rfl
  · rfl

theorem lex_printItem (hbare : g.isNonTerminal s = true → BareName s.name)
    (hquoted : g.isNonTerminal s = false → QuotableText s.name) {rest : List Char}
    (hrest : ∀ c ∈ rest.head?, Token.endsName c = true) :
    Token.lex ((printItem g s).toList ++ rest) =
      (Token.lex rest).map ((writtenItem g s).toToken :: ·) := by
  cases hhead : g.isNonTerminal s with
  | true =>
      rw [toList_printItem_of_isNonTerminal hhead, Token.lex_name (hbare hhead) hrest,
        writtenItem, if_pos hhead, Item.toToken]
  | false =>
      rw [toList_printItem_of_terminal hhead, List.cons_append, List.append_assoc,
        List.singleton_append, Token.lex_quoted (hquoted hhead).no_quote, writtenItem, hhead,
        if_neg Bool.false_ne_true, Item.toToken]

theorem lex_rhsText (hg : g.Printable) {rhs : List Symbol}
    (hquoted : ∀ s ∈ rhs, g.isNonTerminal s = false → QuotableText s.name) :
    Token.lex (rhsText g rhs) = .ok (rhs.map fun s => (writtenItem g s).toToken) := by
  induction rhs with
  | nil => rw [rhsText, List.flatMap_nil, Token.lex, List.map_nil]
  | cons s rhs ih =>
      have hrest : ∀ c ∈ (rhsText g rhs).head?, Token.endsName c = true := by
        cases rhs with
        | nil => simp [rhsText]
        | cons t rhs =>
            intro c hc
            have hblank : ' ' = c := by simpa [rhsText] using hc
            rw [← hblank]
            rfl
      have hcons : rhsText g (s :: rhs) = ' ' :: ((printItem g s).toList ++ rhsText g rhs) := rfl
      rw [hcons, Token.lex_blank rfl,
        lex_printItem hg.bareName (hquoted s List.mem_cons_self) hrest,
        ih fun t ht => hquoted t (List.mem_cons_of_mem s ht)]
      rfl

theorem lex_lineText (hg : g.Printable) (hr : r ∈ g.rules) (number : ℕ) :
    Token.lex (lineText g r) = .ok (writtenLine g r number).tokens := by
  have hend : ∀ c ∈ (' ' :: '=' :: rhsText g r.rhs).head?, Token.endsName c = true := by
    intro c hc
    cases hc
    rfl
  rw [lineText, Token.lex_name (hg.bare r hr) hend, Token.lex_blank rfl, Token.lex_equals,
    lex_rhsText hg (hg.quotable r hr)]
  simp [Except.map, RuleLine.tokens, writtenLine]

theorem ofText_lineText (hg : g.Printable) (hr : r ∈ g.rules) (number : ℕ) :
    RuleLine.ofText number (lineText g r) = .ok (some (writtenLine g r number)) :=
  RuleLine.ofText_eq_ok_some_iff.mpr ⟨lex_lineText hg hr number, List.cons_ne_nil _ _, rfl⟩

theorem lineFaults_print (hg : g.Printable) (path : String) :
    lineFaults path (textLines (print g)) = [] := by
  rw [lineFaults, List.filterMap_eq_nil_iff]
  intro x hx
  obtain ⟨line, number⟩ := x
  have hline : line ∈ textLines (print g) := mem_of_mem_zipIdx hx
  rw [textLines_print hg] at hline
  obtain ⟨r, hr, rfl⟩ := List.mem_map.mp hline
  rw [lineFault?, ofText_lineText hg hr]

theorem ruleLines_print (hg : g.Printable) : ruleLines (textLines (print g)) =
    (g.rules.zipIdx 1).map fun x => writtenLine g x.1 x.2 := by
  rw [ruleLines, textLines_print hg, List.zipIdx_map, List.filterMap_map,
    ← List.filterMap_eq_map]
  refine List.filterMap_congr fun x hx => ?_
  exact ruleLine?_eq_some_iff.mpr ⟨_, rfl, ofText_lineText hg (mem_of_mem_zipIdx hx) x.2⟩

theorem mem_ruleLines_print (hg : g.Printable) {l : RuleLine} :
    l ∈ ruleLines (textLines (print g)) → ∃ r ∈ g.rules, ∃ number, l = writtenLine g r number := by
  rw [ruleLines_print hg]
  intro hl
  obtain ⟨x, hx, rfl⟩ := List.mem_map.mp hl
  exact ⟨x.1, mem_of_mem_zipIdx hx, x.2, rfl⟩

theorem flatMap_ruleLines_print (hg : g.Printable) {β : Type} {f : RuleLine → List β}
    {f' : Rule → List β} (hf : ∀ r number, f (writtenLine g r number) = f' r) :
    (ruleLines (textLines (print g))).flatMap f = g.rules.flatMap f' := by
  rw [ruleLines_print hg, List.flatMap_map]
  simp only [hf]
  rw [← List.flatMap_map Prod.fst f', List.zipIdx_map_fst]

theorem rules_writtenLine (g : Grammar) (r : Rule) (number : ℕ) :
    (writtenLine g r number).rules = [r] := by
  have hitems : (fun i : Item => Symbol.mk i.name) ∘ writtenItem g = id := by
    funext s
    exact congrArg Symbol.mk (name_writtenItem g s)
  rw [RuleLine.rules, writtenLine, List.map_singleton, List.map_map, hitems, List.map_id]

theorem flatMap_rules_print (hg : g.Printable) :
    (ruleLines (textLines (print g))).flatMap RuleLine.rules = g.rules := by
  rw [flatMap_ruleLines_print hg (rules_writtenLine g), List.flatMap_singleton']

/-- Printed lines define the names that the grammar has rules for. -/
theorem exists_head_print_iff (hg : g.Printable) :
    (∃ l ∈ ruleLines (textLines (print g)), l.head = s.name) ↔ g.isNonTerminal s = true := by
  have hrules : (assemble "" "" (ruleLines (textLines (print g)))).rules = g.rules := by
    rw [rules_assemble, flatMap_rules_print hg]
  rw [← isNonTerminal_assemble fun _ => alternatives_ne_nil, Grammar.isNonTerminal, hrules]
  rfl

theorem misusedItems_print (hg : g.Printable) : misusedItems (textLines (print g)) = [] := by
  rw [misusedItems_eq_nil_iff]
  intro l hl items hitems i hi
  obtain ⟨r, hr, number, rfl⟩ := mem_ruleLines_print hg hl
  rw [List.mem_singleton.mp hitems] at hi
  obtain ⟨s, hs, rfl⟩ := List.mem_map.mp hi
  have hdefined := exists_head_print_iff (s := s) hg
  rw [writtenItem]
  split_ifs with hhead
  · obtain ⟨l, hl, hname⟩ := hdefined.mpr hhead
    exact fun hundefined => hundefined l hl hname
  · exact fun hquoted => hhead (hdefined.mp hquoted)

theorem exists_ofText_print (hg : g.Printable) (path : String) :
    ∃ g', ofText path (print g) = .ok g' ∧ g'.rules = g.rules := by
  have hrules := flatMap_rules_print hg
  have hne : ruleLines (textLines (print g)) ≠ [] := by
    intro hnil
    rw [hnil] at hrules
    exact hg.rules_ne_nil hrules.symm
  obtain ⟨first, rest, hcons⟩ := List.exists_cons_of_ne_nil hne
  have hload : ofText path (print g) =
      .ok (assemble path first.head (ruleLines (textLines (print g)))) :=
    ofLines_eq_ok_iff.mpr
      ⟨lineFaults_print hg path, misusedItems_print hg, first, rest, hcons, rfl⟩
  exact ⟨_, hload, by rw [rules_assemble, hrules]⟩

/-! ### Loaded grammars -/

theorem feed_not_mem_of_mem_textLines {text : String} {line : List Char}
    (h : .ok line ∈ textLines text) : '\n' ∉ line := by
  obtain ⟨_, hmem, heq⟩ := List.mem_map.mp h
  cases heq
  exact Text.not_mem_of_mem_lines hmem

theorem quotableText_of_quoted {text name : String} (h : .quoted name ∈ writtenItems text) :
    QuotableText name := by
  obtain ⟨l, hl, items, hitems, hi⟩ := mem_writtenItems.mp h
  obtain ⟨number, line, hmem, hline⟩ := mem_ruleLines hl
  have hquoted := RuleLine.wellFormed_item hline hitems hi
  exact ⟨hquoted.1, fun hname => feed_not_mem_of_mem_textLines hmem (hquoted.2 hname)⟩

theorem printable_of_ofText {path text : String} (h : ofText path text = .ok g) :
    g.Printable where
  rules_ne_nil := by
    intro hnil
    have hstart := start_of_ofText h
    rw [hnil] at hstart
    cases hstart
  bare := by
    intro r hr
    rw [rules_of_ofText h] at hr
    obtain ⟨l, hl, hr⟩ := List.mem_flatMap.mp hr
    obtain ⟨number, line, _, hline⟩ := mem_ruleLines hl
    rw [mem_rules_of_head hr]
    exact RuleLine.bareName_head hline
  quotable := by
    intro r hr s hs hterminal
    have hsymbol := (mem_symbols_of_ofText h).mpr ⟨r, hr, Or.inr hs⟩
    exact quotableText_of_quoted (quoted_of_terminal h hsymbol hterminal)

/-- Two loads under one path agree if they give the same rules. -/
theorem eq_of_ofText_of_rules_eq {path text text' : String} {g' : Grammar}
    (h : ofText path text = .ok g) (h' : ofText path text' = .ok g')
    (hrules : g'.rules = g.rules) : g' = g := by
  have hname : g'.name = g.name := (name_of_ofText h').trans (name_of_ofText h).symm
  have hstart : g'.start = g.start := by
    have hstart' := start_of_ofText h'
    rw [hrules, start_of_ofText h] at hstart'
    exact (Option.some.inj hstart').symm
  have hnames : g'.symbols.map Symbol.name = g.symbols.map Symbol.name := by
    rw [names_of_ofText h', names_of_ofText h, hrules]
  have hsymbols : g'.symbols = g.symbols :=
    List.map_injective_iff.mpr Symbol.name_injective hnames
  cases g
  cases g'
  rw [Grammar.mk.injEq]
  exact ⟨hname, hsymbols, hstart, hrules⟩

/-- Under any path, a printed grammar loads with its rules in their order, the head of the first
for its start and its vocabulary by first appearance; and whatever loads can be printed and then
loads as itself. -/
theorem ofText_print (path : String) :
    (∀ g : Grammar, g.Printable → ∃ g', ofText path (print g) = .ok g' ∧ g'.rules = g.rules ∧
      g'.name = Path.stem path ∧ g.rules.head?.map Rule.lhs = some g'.start ∧
      FirstAppearances (g.rules.flatMap Rule.names) (g'.symbols.map Symbol.name)) ∧
    ∀ (text : String) (g : Grammar), ofText path text = .ok g → g.Printable ∧
      (∀ s ∈ g.symbols, (g.isNonTerminal s = true → BareName s.name) ∧
        (g.isNonTerminal s = false → QuotableText s.name)) ∧
      ofText path (print g) = .ok g := by
  constructor
  · intro g hg
    obtain ⟨g', hload, hrules⟩ := exists_ofText_print hg path
    refine ⟨g', hload, hrules, name_of_ofText hload, ?_, ?_⟩
    · rw [← hrules]
      exact start_of_ofText hload
    · rw [names_of_ofText hload, hrules]
      exact firstAppearances_appendNew _
  · intro text g h
    have hg := printable_of_ofText h
    obtain ⟨g', hload, hrules⟩ := exists_ofText_print hg path
    rw [eq_of_ofText_of_rules_eq h hload hrules] at hload
    have hsymbols : ∀ s ∈ g.symbols, (g.isNonTerminal s = true → BareName s.name) ∧
        (g.isNonTerminal s = false → QuotableText s.name) := by
      intro s hs
      constructor
      · exact hg.bareName
      · intro hterminal
        exact quotableText_of_quoted (quoted_of_terminal h hs hterminal)
    exact ⟨hg, hsymbols, hload⟩

/-- Marks and a return within terminals, a terminal without a name and an empty right side. -/
def marks : Grammar where
  name := "marks"
  symbols := [⟨"S"⟩, ⟨"= |;\r"⟩, ⟨""⟩]
  start := ⟨"S"⟩
  rules := [⟨⟨"S"⟩, [⟨"= |;\r"⟩, ⟨"S"⟩]⟩, ⟨⟨"S"⟩, [⟨""⟩]⟩, ⟨⟨"S"⟩, []⟩]

theorem ofText_print_marks : marks.Printable ∧
    print marks = "S = \"= |;\r\" S\nS = \"\"\nS =\n" ∧
    (∃ g', ofText "marks.bnf" (print marks) = .ok g' ∧ g'.rules = marks.rules) ∧
    ofText "assign.bnf" assignmentText = .ok assignments ∧
    ofText "assign.bnf" (print assignments) = .ok assignments := by
  have hmarks : marks.Printable := by decide +kernel
  have hprint : print marks = "S = \"= |;\r\" S\nS = \"\"\nS =\n" := by decide +kernel
  obtain ⟨g', hload, hrules, _⟩ := (ofText_print "marks.bnf").1 marks hmarks
  have hagain := (ofText_print "assign.bnf").2 assignmentText assignments ofText_assignmentText
  exact ⟨hmarks, hprint, ⟨g', hload, hrules⟩, ofText_assignmentText, hagain.2.2⟩

end GrammarFile

end ChartParser
