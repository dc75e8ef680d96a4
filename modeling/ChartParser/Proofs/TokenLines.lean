import ChartParser.Proofs.LoadedGrammar
import ChartParser.Proofs.WrittenLines

/-!
# Loading by the tokens of lines

What a text loads to depends on what is read of its lines, and lines on which
nothing is found do not count but for the numbers of those after them. A number
serves only to place an error, so where the numbers are replaced the errors
carry the new ones and nothing else changes. It follows that blank lines,
comments, blanks between tokens and the two ways to end a line are free.
-/
namespace ChartParser

/-- The same error at the line that its own line is moved to. -/
def Located.renumber {ε : Type} (move : ℕ → ℕ) (e : Located ε) : Located ε :=
  ⟨⟨e.location.file, move e.location.line⟩, e.cause⟩

namespace GrammarFile

/-- What was read of a line: its tokens, unless a quote was left open. -/
abbrev Reading := Except Fault (List Token)

def Reading.holdsToken : Reading → Bool
  | .ok [] => false
  | _ => true

/-- The readings of the lines of a text that hold anything, in their order. -/
def lineTokens (text : String) : List Reading :=
  ((Text.lines '\n' '\r' text.toList).map Token.lex).filter Reading.holdsToken

/-- The same readings, each with the number of its line in the text. -/
def numberedTokens (text : String) : List (Reading × ℕ) :=
  (((Text.lines '\n' '\r' text.toList).map Token.lex).zipIdx 1).filter (·.1.holdsToken)

theorem map_fst_numberedTokens (text : String) :
    (numberedTokens text).map Prod.fst = lineTokens text := by
  rw [lineTokens, ← List.zipIdx_map_fst 1 ((Text.lines '\n' '\r' text.toList).map Token.lex),
    List.filter_map]
  rfl

/-! ### What readings come to -/

/-- The rule of a reading, none if it holds no token. -/
def Reading.rule (number : ℕ) : Reading → Except Fault (Option RuleLine)
  | .error fault => .error fault
  | .ok [] => .ok none
  | .ok tokens => (RuleLine.ofTokens number tokens).map some

theorem Reading.rule_cons (number : ℕ) (t : Token) (tokens : List Token) :
    Reading.rule number (.ok (t :: tokens)) =
      (RuleLine.ofTokens number (t :: tokens)).map some := rfl

theorem ofText_eq_rule (number : ℕ) (line : List Char) :
    RuleLine.ofText number line = Reading.rule number (Token.lex line) := by
  rw [RuleLine.ofText]
  rcases Token.lex line with fault | ⟨_ | ⟨t, tokens⟩⟩
  · rfl
  · rfl
  · rfl

def Reading.fault? (path : String) : Reading × ℕ → Option LoadError
  | (r, number) =>
    match r.rule number with
    | .error fault => some ⟨⟨path, number⟩, fault⟩
    | .ok _ => none

def Reading.ruleLine? : Reading × ℕ → Option RuleLine
  | (r, number) =>
    match r.rule number with
    | .error _ => none
    | .ok result => result

/-- The grammar that numbered readings come to. -/
def ofReadings (path : String) (readings : List (Reading × ℕ)) :
    Except (List LoadError) Grammar :=
  if readings.filterMap (Reading.fault? path) = [] then
    ofRuleLines path (readings.filterMap Reading.ruleLine?)
  else .error (readings.filterMap (Reading.fault? path))

/-- Lines that hold nothing give nothing. -/
theorem filterMap_textLines {β : Type} {f : Line × ℕ → Option β} {f' : Reading × ℕ → Option β}
    (hf : ∀ line number, f (.ok line, number) = f' (Token.lex line, number))
    (hnil : ∀ number, f' (.ok [], number) = none) (text : String) :
    ((textLines text).zipIdx 1).filterMap f = (numberedTokens text).filterMap f' := by
  rw [numberedTokens, textLines, List.zipIdx_map, List.zipIdx_map, List.filterMap_map,
    List.filterMap_filter, List.filterMap_map]
  refine List.filterMap_congr fun x _ => ?_
  obtain ⟨line, number⟩ := x
  simp only [Function.comp_apply, Prod.map_apply, hf, id_eq]
  rcases Token.lex line with fault | ⟨_ | ⟨t, tokens⟩⟩
  · rfl
  · exact hnil number
  · rfl

theorem lineFault?_ok (path : String) (line : List Char) (number : ℕ) :
    lineFault? path (.ok line, number) = Reading.fault? path (Token.lex line, number) := by
  cases hrule : Reading.rule number (Token.lex line) with
  | error fault => simp only [lineFault?, Reading.fault?, ofText_eq_rule, hrule]
  | ok result => simp only [lineFault?, Reading.fault?, ofText_eq_rule, hrule]

theorem ruleLine?_ok (line : List Char) (number : ℕ) :
    ruleLine? (.ok line, number) = Reading.ruleLine? (Token.lex line, number) := by
  cases hrule : Reading.rule number (Token.lex line) with
  | error fault => simp only [ruleLine?, Reading.ruleLine?, ofText_eq_rule, hrule]
  | ok result => simp only [ruleLine?, Reading.ruleLine?, ofText_eq_rule, hrule]

theorem lineFaults_textLines (path text : String) : lineFaults path (textLines text) =
    (numberedTokens text).filterMap (Reading.fault? path) :=
  filterMap_textLines (lineFault?_ok path) (fun _ => rfl) text

theorem ruleLines_textLines (text : String) : ruleLines (textLines text) =
    (numberedTokens text).filterMap Reading.ruleLine? :=
  filterMap_textLines ruleLine?_ok (fun _ => rfl) text

theorem ofText_eq_ofReadings (path text : String) :
    ofText path text = ofReadings path (numberedTokens text) := by
  rw [ofText, ← textLines, ofLines_eq, lineFaults_textLines, ruleLines_textLines, ofReadings]

/-! ### Replacing the numbers -/

def RuleLine.renumber (move : ℕ → ℕ) (l : RuleLine) : RuleLine :=
  { l with number := move l.number }

variable (move : ℕ → ℕ)

theorem RuleLine.ofTokens_renumber (number : ℕ) (tokens : List Token) :
    ofTokens (move number) tokens = (ofTokens number tokens).map (renumber move) := by
  unfold ofTokens
  split
  · next rest => cases alternativesOf rest with
    | error fault => rfl
    | ok alternatives => rfl
  · rfl
  · rfl

theorem Reading.rule_renumber (number : ℕ) (r : Reading) :
    r.rule (move number) = (r.rule number).map (Option.map (RuleLine.renumber move)) := by
  rcases r with fault | ⟨_ | ⟨t, tokens⟩⟩
  · rfl
  · rfl
  · rw [rule_cons, rule_cons, RuleLine.ofTokens_renumber]
    cases RuleLine.ofTokens number (t :: tokens) with
    | error fault => rfl
    | ok l => rfl

theorem misuses_renumber (path : String) (lines : List RuleLine) :
    misuses path (lines.map (RuleLine.renumber move)) =
      (misuses path lines).map (Located.renumber move) := by
  simp only [misuses, List.map_map, List.flatMap_map, List.map_flatMap]
  rfl

theorem assemble_renumber (path start : String) (lines : List RuleLine) :
    assemble path start (lines.map (RuleLine.renumber move)) = assemble path start lines := by
  simp only [assemble, List.flatMap_map]
  rfl

theorem ofRuleLines_renumber {move : ℕ → ℕ} (hmove : move 0 = 0) (path : String)
    (lines : List RuleLine) : ofRuleLines path (lines.map (RuleLine.renumber move)) =
      (ofRuleLines path lines).mapError (List.map (Located.renumber move)) := by
  have hmisuses := misuses_renumber move path lines
  cases hcases : misuses path lines with
  | cons e errors =>
      have hne : misuses path lines ≠ [] := hcases ▸ List.cons_ne_nil e errors
      have hne' : misuses path (lines.map (RuleLine.renumber move)) ≠ [] := by
        rw [hmisuses, hcases, List.map_cons]
        exact List.cons_ne_nil _ _
      rw [ofRuleLines_of_misuses_ne_nil hne, ofRuleLines_of_misuses_ne_nil hne', hmisuses]
      rfl
  | nil =>
      rw [hcases, List.map_nil] at hmisuses
      cases lines with
      | nil =>
          simp [ofRuleLines, misuses, Except.mapError, Located.renumber, hmove]
      | cons first rest =>
          rw [ofRuleLines_cons hcases, List.map_cons, ofRuleLines_cons hmisuses, ← List.map_cons,
            assemble_renumber]
          rfl

theorem fault?_renumber (path : String) (number : ℕ) (r : Reading) :
    Reading.fault? path (r, move number) =
      (Reading.fault? path (r, number)).map (Located.renumber move) := by
  rw [Reading.fault?, Reading.fault?, Reading.rule_renumber]
  cases r.rule number with
  | error fault => rfl
  | ok result => rfl

theorem ruleLine?_renumber (number : ℕ) (r : Reading) :
    Reading.ruleLine? (r, move number) =
      (Reading.ruleLine? (r, number)).map (RuleLine.renumber move) := by
  rw [Reading.ruleLine?, Reading.ruleLine?, Reading.rule_renumber]
  cases r.rule number with
  | error fault => rfl
  | ok result => rfl

theorem filterMap_fault?_renumber (path : String) (readings : List (Reading × ℕ)) :
    (readings.map (Prod.map id move)).filterMap (Reading.fault? path) =
      (readings.filterMap (Reading.fault? path)).map (Located.renumber move) := by
  rw [List.filterMap_map, List.map_filterMap]
  exact List.filterMap_congr fun x _ => fault?_renumber move path x.2 x.1

theorem filterMap_ruleLine?_renumber (readings : List (Reading × ℕ)) :
    (readings.map (Prod.map id move)).filterMap Reading.ruleLine? =
      (readings.filterMap Reading.ruleLine?).map (RuleLine.renumber move) := by
  rw [List.filterMap_map, List.map_filterMap]
  exact List.filterMap_congr fun x _ => ruleLine?_renumber move x.2 x.1

theorem ofReadings_renumber {move : ℕ → ℕ} (hmove : move 0 = 0) (path : String)
    (readings : List (Reading × ℕ)) : ofReadings path (readings.map (Prod.map id move)) =
      (ofReadings path readings).mapError (List.map (Located.renumber move)) := by
  rw [ofReadings, ofReadings, filterMap_fault?_renumber, filterMap_ruleLine?_renumber,
    ofRuleLines_renumber hmove]
  simp only [List.map_eq_nil_iff]
  split_ifs
  · rfl
  · rfl

/-! ### Texts with the same tokens -/

/-- Distinct numbers can be moved to any row of as many others. -/
theorem exists_map_eq {numbers numbers' : List ℕ} (hnodup : numbers.Nodup)
    (hlength : numbers.length = numbers'.length) : ∃ move : ℕ → ℕ, numbers.map move = numbers' := by
  induction numbers generalizing numbers' with
  | nil => exact ⟨id, (List.eq_nil_of_length_eq_zero hlength.symm).symm⟩
  | cons n rest ih =>
      obtain ⟨n', rest', rfl⟩ := List.exists_cons_of_length_eq_add_one hlength.symm
      obtain ⟨hn, hrest⟩ := List.nodup_cons.mp hnodup
      obtain ⟨move, rfl⟩ := ih hrest (Nat.succ.inj hlength)
      have hother : rest.map (Function.update move n n') = rest.map move := by
        refine List.map_congr_left fun m hm => Function.update_of_ne ?_ n' move
        rintro rfl
        exact hn hm
      exact ⟨Function.update move n n', by rw [List.map_cons, Function.update_self, hother]⟩

/-- The number of each line that holds a token. -/
def tokenNumbers (text : String) : List ℕ :=
  (numberedTokens text).map Prod.snd

/-- No two lines have one number, and none has the number that stands for the whole file. -/
theorem nodup_zero_tokenNumbers (text : String) : (0 :: tokenNumbers text).Nodup := by
  have hsub : (tokenNumbers text).Sublist
      (List.range' 1 ((Text.lines '\n' '\r' text.toList).map Token.lex).length) := by
    rw [← List.zipIdx_map_snd 1]
    exact List.filter_sublist.map Prod.snd
  rw [List.nodup_cons]
  constructor
  · intro hzero
    have := List.mem_range'_1.mp (hsub.subset hzero)
    omega
  · exact hsub.nodup List.nodup_range'

theorem zip_lineTokens (text : String) :
    (lineTokens text).zip (tokenNumbers text) = numberedTokens text := by
  rw [← map_fst_numberedTokens]
  exact (List.zip_of_prod rfl rfl).symm

/-- Both texts load to the same grammar, or to the same errors in the same order but for the
numbers of lines, each of which is moved to where its line is in the second text. -/
def SameLoad (path text text' : String) : Prop :=
  ∃ move : ℕ → ℕ, move 0 = 0 ∧ (tokenNumbers text).map move = tokenNumbers text' ∧
    ofText path text' = (ofText path text).mapError (List.map (Located.renumber move))

theorem sameLoad_of_lineTokens_eq {text text' : String} (h : lineTokens text = lineTokens text')
    (path : String) : SameLoad path text text' := by
  have hlength : (0 :: tokenNumbers text).length = (0 :: tokenNumbers text').length := by
    rw [← map_fst_numberedTokens, ← map_fst_numberedTokens] at h
    have := congrArg List.length h
    simpa [tokenNumbers] using this
  obtain ⟨move, hmap⟩ := exists_map_eq (nodup_zero_tokenNumbers text) hlength
  obtain ⟨hzero, hmove⟩ := List.cons_eq_cons.mp hmap
  have hnumbered : numberedTokens text' = (numberedTokens text).map (Prod.map id move) := by
    rw [← zip_lineTokens, ← zip_lineTokens, ← h, ← hmove, List.zip_map_right]
  refine ⟨move, hzero, hmove, ?_⟩
  rw [ofText_eq_ofReadings, ofText_eq_ofReadings, hnumbered, ofReadings_renumber hzero]

/-! ### Where errors are reported -/

/-- What can be reported of a reading: the fault of the line itself, or the misuse of an item
on it. -/
inductive Reading.Blamed : Reading → Fault → Prop
  | fault {r : Reading} {number : ℕ} {fault : Fault} : r.rule number = .error fault → Blamed r fault
  | misuse {tokens : List Token} {i : Item} : i.toToken ∈ tokens → Blamed (.ok tokens) i.misuse

/-- The error is that of the whole file or is reported at the line that is to blame. -/
def PlacedAtLine (path text : String) (e : LoadError) : Prop :=
  e = ⟨⟨path, 0⟩, .noRules⟩ ∨
    ∃ r, (r, e.location.line) ∈ numberedTokens text ∧ e.location.file = path ∧ r.Blamed e.cause

theorem Reading.eq_of_ruleLine? {r : Reading} {number : ℕ} {l : RuleLine}
    (h : Reading.ruleLine? (r, number) = some l) : r = .ok l.tokens ∧ l.number = number := by
  rcases r with fault | ⟨_ | ⟨t, tokens⟩⟩
  · cases h
  · cases h
  · rw [ruleLine?, rule_cons] at h
    cases hline : RuleLine.ofTokens number (t :: tokens) with
    | error fault =>
        rw [hline] at h
        cases h
    | ok l' =>
        rw [hline] at h
        cases h
        obtain ⟨htokens, _, hnumber⟩ := RuleLine.ofTokens_eq_ok_iff.mp hline
        exact ⟨congrArg _ htokens, hnumber⟩

theorem errors_of_ofRuleLines {path : String} {lines : List RuleLine} {errors : List LoadError}
    (h : ofRuleLines path lines = .error errors) :
    errors = [⟨⟨path, 0⟩, .noRules⟩] ∨ errors = misuses path lines := by
  unfold ofRuleLines at h
  split at h
  · cases h
    exact Or.inl rfl
  · cases h
  · cases h
    exact Or.inr rfl

theorem placedAtLine_of_misuses {path text : String} {e : LoadError}
    (h : e ∈ misuses path ((numberedTokens text).filterMap Reading.ruleLine?)) :
    PlacedAtLine path text e := by
  simp only [misuses, List.mem_flatMap, List.mem_map, List.mem_filterMap, List.mem_flatten] at h
  obtain ⟨l, ⟨⟨r, number⟩, hr, hl⟩, fault, ⟨i, ⟨items, hitems, hi⟩, hfault⟩, rfl⟩ := h
  obtain ⟨rfl, rfl⟩ := Reading.eq_of_ruleLine? hl
  have hmisuse : fault = i.misuse := by
    rw [itemFault?_eq] at hfault
    split_ifs at hfault
    exact (Option.some.inj hfault).symm
  rw [hmisuse]
  exact Or.inr ⟨_, hr, rfl, .misuse (RuleLine.toToken_mem_tokens hitems hi)⟩

theorem placedAtLine_of_ofText {path text : String} {errors : List LoadError}
    (h : ofText path text = .error errors) {e : LoadError} (he : e ∈ errors) :
    PlacedAtLine path text e := by
  rw [ofText_eq_ofReadings, ofReadings] at h
  split_ifs at h with hfaults
  · rcases errors_of_ofRuleLines h with rfl | rfl
    · exact Or.inl (List.mem_singleton.mp he)
    · exact placedAtLine_of_misuses he
  · cases h
    obtain ⟨⟨r, number⟩, hr, hfault⟩ := List.mem_filterMap.mp he
    rw [Reading.fault?] at hfault
    split at hfault
    · next fault hrule =>
      cases hfault
      exact Or.inr ⟨r, hr, rfl, .fault hrule⟩
    · cases hfault

end GrammarFile

end ChartParser
