import ChartParser.GrammarFile.Load
import ChartParser.Proofs.FileLines
import ChartParser.Proofs.RuleLineTokens
import ChartParser.Proofs.TextBytes

/-!
# What is reported of a file

A line is judged by itself, from its text and its number, and what is passed
over as blank or as a comment would have been found to hold no token. So the
report on a file is read off its numbered lines: the faults of single lines if
there are any, else the items that are used against the definitions of the
whole file, else the want of a rule.
-/
namespace ChartParser.GrammarFile

/-! ### Lines that are passed over -/

theorem lex_dropWhile_isBlank (text : List Char) :
    Token.lex (text.dropWhile Text.isBlank) = Token.lex text := by
  induction text with
  | nil => rfl
  | cons c rest ih =>
      by_cases hc : Text.isBlank c = true
      · rw [List.dropWhile_cons_of_pos hc, ih, Token.lex_blank hc]
      · rw [List.dropWhile_cons_of_neg hc]

theorem lex_of_mayHoldRule_eq_false {text : List Char} (h : mayHoldRule text = false) :
    Token.lex text = .ok [] := by
  rw [← lex_dropWhile_isBlank]
  unfold mayHoldRule at h
  split at h
  · next hnil => rw [hnil, Token.lex]
  · next c rest hcons =>
    have hc : c = ';' := by simpa using h
    rw [hcons, hc, Token.lex]
    rfl

/-- Passing over a line gives the same answer as reading it. -/
theorem readLine_ok (path : String) (number : ℕ) (text : List Char) :
    readLine path number (.ok text) =
      (RuleLine.ofText number text).mapError (⟨⟨path, number⟩, ·⟩) := by
  rw [readLine]
  split_ifs with h
  · rfl
  · have hlex := lex_of_mayHoldRule_eq_false (Bool.eq_false_iff.mpr h)
    rw [RuleLine.ofText_eq_ok_none_iff.mpr hlex]
    rfl

/-! ### Numbered lines -/

theorem mem_of_mem_zipIdx {α : Type} {l : List α} {k : ℕ} {x : α × ℕ} (h : x ∈ l.zipIdx k) :
    x.1 ∈ l := by
  rw [← List.zipIdx_map_fst k l]
  exact List.mem_map_of_mem h

/-- What is wrong with a line by itself. A line that could not be read is reported without its
number. -/
def lineFault? (path : String) : Line × ℕ → Option LoadError
  | (.error cause, _) => some ⟨⟨path, 0⟩, .unreadable cause⟩
  | (.ok text, number) =>
    match RuleLine.ofText number text with
    | .error fault => some ⟨⟨path, number⟩, fault⟩
    | .ok _ => none

def ruleLine? : Line × ℕ → Option RuleLine
  | (.error _, _) => none
  | (.ok text, number) =>
    match RuleLine.ofText number text with
    | .error _ => none
    | .ok result => result

/-- The faults of the failing lines, in the order of the file. -/
def lineFaults (path : String) (lines : List Line) : List LoadError :=
  (lines.zipIdx 1).filterMap (lineFault? path)

/-- The rule lines of a file, in its order. -/
def ruleLines (lines : List Line) : List RuleLine :=
  (lines.zipIdx 1).filterMap ruleLine?

theorem ruleLine?_eq_some_iff {line : Line} {number : ℕ} {l : RuleLine} :
    ruleLine? (line, number) = some l ↔
      ∃ text, line = .ok text ∧ RuleLine.ofText number text = .ok (some l) := by
  cases line with
  | error cause => simp [ruleLine?]
  | ok text =>
      simp only [ruleLine?, Except.ok.injEq, exists_eq_left']
      cases RuleLine.ofText number text with
      | error fault => simp
      | ok result => simp

theorem number_of_ruleLine? {line : Line} {number : ℕ} {l : RuleLine}
    (h : ruleLine? (line, number) = some l) : l.number = number := by
  obtain ⟨text, _, htext⟩ := ruleLine?_eq_some_iff.mp h
  exact (RuleLine.ofText_eq_ok_some_iff.mp htext).2.2

theorem mem_ruleLines {lines : List Line} {l : RuleLine} (h : l ∈ ruleLines lines) :
    ∃ number text, .ok text ∈ lines ∧ RuleLine.ofText number text = .ok (some l) := by
  obtain ⟨⟨line, number⟩, hmem, hl⟩ := List.mem_filterMap.mp h
  obtain ⟨text, rfl, htext⟩ := ruleLine?_eq_some_iff.mp hl
  exact ⟨number, text, mem_of_mem_zipIdx hmem, htext⟩

/-- Collecting keeps apart what single inputs come to: a fault or a result, if any. -/
theorem collect_map {ε α β : Type} {read : β → Except ε (Option α)} {fault? : β → Option ε}
    {result? : β → Option α}
    (hread : ∀ x, (∃ e, read x = .error e ∧ fault? x = some e ∧ result? x = none) ∨
      read x = .ok (result? x) ∧ fault? x = none) (inputs : List β) :
    collect (inputs.map read) = if inputs.filterMap fault? = [] then
      .ok (inputs.filterMap result?) else .error (inputs.filterMap fault?) := by
  have hfaults : ∀ f : Except ε (Option α) → Option ε, (∀ e, f (.error e) = some e) →
      (∀ r, f (.ok r) = none) → (inputs.map read).filterMap f = inputs.filterMap fault? := by
    intro f herror hok
    rw [List.filterMap_map]
    refine List.filterMap_congr fun x _ => ?_
    rcases hread x with ⟨e, hx, hfault, _⟩ | ⟨hx, hfault⟩
    · rw [Function.comp_apply, hx, hfault, herror]
    · rw [Function.comp_apply, hx, hfault, hok]
  have hresults : ∀ f : Except ε (Option α) → Option α, (∀ e, f (.error e) = none) →
      (∀ r, f (.ok r) = r) → (inputs.map read).filterMap f = inputs.filterMap result? := by
    intro f herror hok
    rw [List.filterMap_map]
    refine List.filterMap_congr fun x _ => ?_
    rcases hread x with ⟨e, hx, _, hresult⟩ | ⟨hx, _⟩
    · rw [Function.comp_apply, hx, hresult, herror]
    · rw [Function.comp_apply, hx, hok]
  rw [collect, hfaults _ (fun _ => rfl) (fun _ => rfl), hresults _ (fun _ => rfl) (fun _ => rfl)]
  cases inputs.filterMap fault? with
  | nil => rfl
  | cons e es => rfl

theorem collect_readLines (path : String) (lines : List Line) :
    collect (readLines path lines) =
      if lineFaults path lines = [] then .ok (ruleLines lines)
      else .error (lineFaults path lines) := by
  refine collect_map (fun x => ?_) (lines.zipIdx 1)
  obtain ⟨line, number⟩ := x
  cases line with
  | error cause => exact Or.inl ⟨_, rfl, rfl, rfl⟩
  | ok text =>
      dsimp only
      rw [readLine_ok, lineFault?, ruleLine?]
      cases RuleLine.ofText number text with
      | error fault => exact Or.inl ⟨_, rfl, rfl, rfl⟩
      | ok result => exact Or.inr ⟨rfl, rfl⟩

/-! ### Misused items -/

/-- The items of a file as they were written, each with the number of its line. -/
def occurrences (lines : List Line) : List (Item × ℕ) :=
  (lines.zipIdx 1).flatMap fun x =>
    match ruleLine? x with
    | some l => l.alternatives.flatten.map (·, x.2)
    | none => []

/-- A bare name that no line defines, or a quoted one that some line does. -/
def Item.Misused (lines : List RuleLine) : Item → Prop
  | bare name => ∀ l ∈ lines, l.head ≠ name
  | quoted name => ∃ l ∈ lines, l.head = name

instance (lines : List RuleLine) (i : Item) : Decidable (i.Misused lines) :=
  match i with
  | .bare name => inferInstanceAs (Decidable (∀ l ∈ lines, l.head ≠ name))
  | .quoted name => inferInstanceAs (Decidable (∃ l ∈ lines, l.head = name))

def Item.misuse : Item → Fault
  | bare name => .undefinedNonTerminal name
  | quoted name => .ambiguousSymbol name

/-- The misused items of a file, in the order of writing. -/
def misusedItems (lines : List Line) : List (Item × ℕ) :=
  (occurrences lines).filter fun x => x.1.Misused (ruleLines lines)

theorem itemFault?_eq (lines : List RuleLine) (i : Item) :
    itemFault? (lines.map RuleLine.head) i =
      if i.Misused lines then some i.misuse else none := by
  have hdefined : ∀ name, name ∈ lines.map RuleLine.head ↔ ∃ l ∈ lines, l.head = name :=
    fun _ => List.mem_map
  by_cases h : i.Misused lines
  · rw [if_pos h]
    cases i with
    | bare name =>
        rw [itemFault?, if_neg]
        · rfl
        · rw [hdefined]
          rintro ⟨l, hl, hname⟩
          exact h l hl hname
    | quoted name =>
        rw [itemFault?, if_pos ((hdefined name).mpr h)]
        rfl
  · rw [if_neg h]
    cases i with
    | bare name =>
        rw [itemFault?, if_pos]
        rw [hdefined]
        by_contra hnone
        exact h fun l hl hname => hnone ⟨l, hl, hname⟩
    | quoted name => rw [itemFault?, if_neg fun hmem => h ((hdefined name).mp hmem)]

theorem occurrences_eq (lines : List Line) : occurrences lines =
    (ruleLines lines).flatMap fun l => l.alternatives.flatten.map (·, l.number) := by
  rw [occurrences, ruleLines, List.filterMap_eq_flatMap_toList, List.flatMap_assoc]
  refine List.flatMap_congr fun x _ => ?_
  cases hl : ruleLine? x with
  | none => rfl
  | some l => rw [Option.toList_some, List.flatMap_singleton, number_of_ruleLine? hl]

theorem misuses_ruleLines (path : String) (lines : List Line) :
    misuses path (ruleLines lines) =
      (misusedItems lines).map fun x => ⟨⟨path, x.2⟩, x.1.misuse⟩ := by
  rw [misuses, misusedItems, occurrences_eq, List.filter_flatMap, List.map_flatMap]
  refine List.flatMap_congr fun l _ => ?_
  rw [funext (itemFault?_eq (ruleLines lines)), List.map_filterMap, List.filter_map, List.map_map,
    ← List.filterMap_eq_map, List.filterMap_filter]
  refine List.filterMap_congr fun i _ => ?_
  by_cases hi : i.Misused (ruleLines lines)
  · simp [hi]
  · simp [hi]

/-! ### The report -/

theorem ofLines_eq (path : String) (lines : List Line) : ofLines path lines =
    if lineFaults path lines = [] then ofRuleLines path (ruleLines lines)
    else .error (lineFaults path lines) := by
  rw [ofLines, collect_readLines]
  split_ifs
  · rfl
  · rfl

theorem ofRuleLines_of_misuses_ne_nil {path : String} {lines : List RuleLine}
    (h : misuses path lines ≠ []) : ofRuleLines path lines = .error (misuses path lines) := by
  unfold ofRuleLines
  split
  · next hnil => exact absurd hnil h
  · next hnil => exact absurd hnil h
  · rfl

theorem ofRuleLines_cons {path : String} {first : RuleLine} {rest : List RuleLine}
    (h : misuses path (first :: rest) = []) :
    ofRuleLines path (first :: rest) = .ok (assemble path first.head (first :: rest)) := by
  simp only [ofRuleLines, h]

/-- A fault of a line is a fault of reading, told of the file, or one of syntax, told of the
line. -/
theorem mem_lineFaults {path : String} {lines : List Line} {e : LoadError}
    (h : e ∈ lineFaults path lines) :
    (∃ cause, .error cause ∈ lines ∧ e = ⟨⟨path, 0⟩, .unreadable cause⟩) ∨
      ∃ number, 0 < number ∧ e.location = ⟨path, number⟩ ∧ e.cause ∈ RuleLine.syntaxFaults := by
  obtain ⟨⟨line, number⟩, hmem, hfault⟩ := List.mem_filterMap.mp h
  have hpos : 0 < number := by
    have := List.mk_mem_zipIdx_iff_le_and_getElem?_sub.mp hmem
    omega
  cases line with
  | error cause =>
      rw [lineFault?, Option.some.injEq] at hfault
      exact Or.inl ⟨cause, mem_of_mem_zipIdx hmem, hfault.symm⟩
  | ok text =>
      rw [lineFault?] at hfault
      split at hfault
      · next fault htext =>
        rw [← Option.some.inj hfault]
        exact Or.inr ⟨number, hpos, rfl, RuleLine.mem_syntaxFaults_of_ofText htext⟩
      · cases hfault

theorem ofLines_report (path : String) (lines : List Line) :
    (lineFaults path lines ≠ [] → ofLines path lines = .error (lineFaults path lines)) ∧
    (lineFaults path lines = [] →
      (misusedItems lines ≠ [] → ofLines path lines =
        .error ((misusedItems lines).map fun x => ⟨⟨path, x.2⟩, x.1.misuse⟩)) ∧
      (misusedItems lines = [] →
        (ruleLines lines = [] → ofLines path lines = .error [⟨⟨path, 0⟩, .noRules⟩]) ∧
        (ruleLines lines ≠ [] → ∃ g, ofLines path lines = .ok g))) := by
  rw [ofLines_eq]
  constructor
  · intro h
    rw [if_neg h]
  · intro h
    rw [if_pos h]
    have hmisuses := misuses_ruleLines path lines
    constructor
    · intro hne
      rw [← hmisuses]
      apply ofRuleLines_of_misuses_ne_nil
      rw [hmisuses, ne_eq, List.map_eq_nil_iff]
      exact hne
    · intro hnil
      rw [hnil, List.map_nil] at hmisuses
      constructor
      · intro hrules
        rw [hrules]
        rfl
      · intro hrules
        obtain ⟨first, rest, hcons⟩ := List.exists_cons_of_ne_nil hrules
        rw [hcons] at hmisuses ⊢
        exact ⟨_, ofRuleLines_cons hmisuses⟩

/-- The lines are those in which the bytes are written. A line is decoded if it is the encoding of
a text, and fails otherwise. The faults of lines
come before all else, each once and in the order of the file: those of lines that are no text at
line zero, anything else at the number of its line. A file without them is refused for its misused
items, one error for each, or else for having no rule, and for nothing else. -/
theorem ofBytes_report (path : String) (bytes : List UInt8) :
    let lines := (Text.lines 10 13 bytes).map decodeLine
    (∀ pieces, Text.HasLines 10 13 bytes pieces ↔ pieces = Text.lines 10 13 bytes) ∧
    (∀ line cs, decodeLine line = .ok cs ↔ line = Text.encode cs) ∧
    (∀ line cause, decodeLine line = .error cause ↔
      cause = .malformedText ∧ ∀ cs, line ≠ Text.encode cs) ∧
    (∀ e ∈ lineFaults path lines, e = ⟨⟨path, 0⟩, .unreadable .malformedText⟩ ∨
      ∃ number, 0 < number ∧ e.location = ⟨path, number⟩ ∧ e.cause ∈ RuleLine.syntaxFaults) ∧
    (lineFaults path lines ≠ [] → ofBytes path bytes = .error (lineFaults path lines)) ∧
    (lineFaults path lines = [] →
      (misusedItems lines ≠ [] → ofBytes path bytes =
        .error ((misusedItems lines).map fun x => ⟨⟨path, x.2⟩, x.1.misuse⟩)) ∧
      (misusedItems lines = [] →
        (ruleLines lines = [] → ofBytes path bytes = .error [⟨⟨path, 0⟩, .noRules⟩]) ∧
        (ruleLines lines ≠ [] → ∃ g, ofBytes path bytes = .ok g))) := by
  intro lines
  refine ⟨fun _ => Text.hasLines_iff (by decide), fun _ _ => decodeLine_eq_ok_iff,
    fun _ _ => decodeLine_eq_error_iff, ?_, ofLines_report path lines⟩
  intro e he
  rcases mem_lineFaults he with ⟨cause, hcause, rfl⟩ | hsyntax
  · obtain ⟨line, _, hline⟩ := List.mem_map.mp hcause
    rw [eq_malformedText_of_decodeLine hline]
    exact Or.inl rfl
  · exact Or.inr hsyntax

/-- A character that is cut off, a comment, a line without a name, a rule, a slash in two bytes
and an open quote. -/
def brokenFile : List UInt8 :=
  [0xe2, 0x82, 0x0a] ++ Text.encode "; note\n= x\r\nA = B\n".toList ++ [0xc0, 0xaf, 0x0a] ++
    Text.encode "A = \"b\n".toList

/-- Two misused items on the first line and one on the third, where `B` is defined. -/
def misusedFile : List UInt8 := Text.encode "S = A B | \"S\"\n\nB = \"b\" A\n".toList

def commentFile : List UInt8 := Text.encode "; nothing\n\n".toList

def ruleFile : List UInt8 := Text.encode "S = \"b\" |".toList

/-- Of the broken file the unknown name `B` on a good line is not looked at. -/
theorem ofBytes_report_files :
    (∀ cs, [0xe2, 0x82] ≠ Text.encode cs) ∧ (∀ cs, [0xc0, 0xaf] ≠ Text.encode cs) ∧
    ofBytes "g.bnf" brokenFile = .error [⟨⟨"g.bnf", 0⟩, .unreadable .malformedText⟩,
      ⟨⟨"g.bnf", 3⟩, .missingNonTerminal⟩, ⟨⟨"g.bnf", 0⟩, .unreadable .malformedText⟩,
      ⟨⟨"g.bnf", 6⟩, .unmatchedQuote⟩] ∧
    ofBytes "g.bnf" misusedFile = .error [⟨⟨"g.bnf", 1⟩, .undefinedNonTerminal "A"⟩,
      ⟨⟨"g.bnf", 1⟩, .ambiguousSymbol "S"⟩, ⟨⟨"g.bnf", 3⟩, .undefinedNonTerminal "A"⟩] ∧
    ofBytes "g.bnf" commentFile = .error [⟨⟨"g.bnf", 0⟩, .noRules⟩] ∧
    ∃ g, ofBytes "g.bnf" ruleFile = .ok g := by
  have hcut : decodeLine [0xe2, 0x82] = .error .malformedText := rfl
  have hlong : decodeLine [0xc0, 0xaf] = .error .malformedText := rfl
  obtain ⟨_, _, hfails, _, hbroken, _⟩ := ofBytes_report "g.bnf" brokenFile
  obtain ⟨_, _, _, _, _, hmisused⟩ := ofBytes_report "g.bnf" misusedFile
  obtain ⟨_, _, _, _, _, hcomment⟩ := ofBytes_report "g.bnf" commentFile
  obtain ⟨_, _, _, _, _, hrule⟩ := ofBytes_report "g.bnf" ruleFile
  refine ⟨((hfails _ _).mp hcut).2, ((hfails _ _).mp hlong).2, ?_, ?_, ?_, ?_⟩
  · have hlines : Text.lines 10 13 brokenFile = [[0xe2, 0x82], Text.encode "; note".toList,
        Text.encode "= x".toList, Text.encode "A = B".toList, [0xc0, 0xaf],
        Text.encode "A = \"b".toList] := by decide +kernel
    have hfaults : lineFaults "g.bnf" [.error .malformedText, .ok "; note".toList,
        .ok "= x".toList, .ok "A = B".toList, .error .malformedText, .ok "A = \"b".toList] =
        [⟨⟨"g.bnf", 0⟩, .unreadable .malformedText⟩, ⟨⟨"g.bnf", 3⟩, .missingNonTerminal⟩,
          ⟨⟨"g.bnf", 0⟩, .unreadable .malformedText⟩, ⟨⟨"g.bnf", 6⟩, .unmatchedQuote⟩] := by
      with_unfolding_all rfl
    simp only [hlines, List.map_cons, List.map_nil, hcut, hlong, decodeLine_encode,
      hfaults] at hbroken
    exact hbroken (List.cons_ne_nil _ _)
  · have hlines : (Text.lines 10 13 misusedFile).map decodeLine =
        [.ok "S = A B | \"S\"".toList, .ok [], .ok "B = \"b\" A".toList] :=
      map_decodeLine_lines_encode _
    have hitems : misusedItems
        [.ok "S = A B | \"S\"".toList, .ok [], .ok "B = \"b\" A".toList] =
          [(.bare "A", 1), (.quoted "S", 1), (.bare "A", 3)] := by
      with_unfolding_all rfl
    have hfaults : lineFaults "g.bnf" [.ok "S = A B | \"S\"".toList, .ok [],
        .ok "B = \"b\" A".toList] = [] := by with_unfolding_all rfl
    rw [hlines, hitems] at hmisused
    exact (hmisused hfaults).1 (List.cons_ne_nil _ _)
  · have hlines : (Text.lines 10 13 commentFile).map decodeLine =
        [.ok "; nothing".toList, .ok []] := map_decodeLine_lines_encode _
    have hfaults : lineFaults "g.bnf" [.ok "; nothing".toList, .ok []] = [] := by
      with_unfolding_all rfl
    have hnone : ruleLines [.ok "; nothing".toList, .ok []] = [] := by with_unfolding_all rfl
    have hitems : misusedItems [.ok "; nothing".toList, .ok []] = [] := by with_unfolding_all rfl
    rw [hlines] at hcomment
    exact ((hcomment hfaults).2 hitems).1 hnone
  · have hlines : (Text.lines 10 13 ruleFile).map decodeLine =
        [.ok "S = \"b\" |".toList] := map_decodeLine_lines_encode _
    have hfaults : lineFaults "g.bnf" [.ok "S = \"b\" |".toList] = [] := by with_unfolding_all rfl
    have hitems : misusedItems [.ok "S = \"b\" |".toList] = [] := by with_unfolding_all rfl
    have hrules : ruleLines [.ok "S = \"b\" |".toList] = [⟨"S", [[.quoted "b"], []], 1⟩] := by
      with_unfolding_all rfl
    rw [hlines, hrules] at hrule
    exact ((hrule hfaults).2 hitems).2 (List.cons_ne_nil _ _)

end ChartParser.GrammarFile
