import ChartParser.Proofs.FileLines
import ChartParser.Proofs.LoadedGrammar
import ChartParser.Proofs.WrittenLines

/-!
# What is in a file

Reading a file gives its lines and then meets its end, while a folder that was
opened gives one failure after another. The lines of a file are the texts that
its bytes encode, or failures where they encode none. A file is loaded if its
lines describe a grammar, as this grammar.
-/
namespace ChartParser.GrammarFile

/-! ### Reading to the end -/

/-- Reading the source gives the lines, one at a time, and then meets the end. -/
inductive Source.Gives : Source → List Line → Prop
  | done {s : Source} : s.next? = none → Gives s []
  | more {s rest : Source} {line : Line} {lines : List Line} :
      s.next? = some (line, rest) → Gives rest lines → Gives s (line :: lines)

theorem Source.Gives.drain_eq {s : Source} {lines : List Line} (h : s.Gives lines) :
    s.drain = some lines := by
  induction h with
  | @done s hend =>
      cases s with
      | lines pieces =>
          cases pieces with
          | nil => rfl
          | cons piece pieces => cases hend
      | broken cause => cases hend
  | @more s rest line lines hnext _ ih =>
      cases s with
      | lines pieces =>
          cases pieces with
          | nil => cases hnext
          | cons piece pieces =>
              obtain ⟨rfl, rfl⟩ := Prod.mk.inj (Option.some.inj hnext)
              rw [drain, Option.some.injEq] at ih
              rw [drain, List.map_cons, ih]
      -- A broken source is left as it was, so that it would have to end later on.
      | broken cause =>
          obtain ⟨_, rfl⟩ := Prod.mk.inj (Option.some.inj hnext)
          cases ih

theorem Source.gives_lines (pieces : List (List UInt8)) :
    (Source.lines pieces).Gives (pieces.map decodeLine) := by
  induction pieces with
  | nil => exact .done rfl
  | cons piece pieces ih => exact .more rfl ih

/-- Draining comes to an end if reading does, with the lines that reading gives. -/
theorem Source.drain_eq_some_iff {s : Source} {lines : List Line} :
    s.drain = some lines ↔ s.Gives lines := by
  constructor
  · intro h
    cases s with
    | lines pieces =>
        rw [← Option.some.inj h]
        exact gives_lines pieces
    | broken cause => cases h
  · exact Gives.drain_eq

/-- Nothing comes of a file if it is opened and reading it never ends. -/
theorem ofFile_eq_none_iff {path : String} {file : FileReading} : ofFile path file = none ↔
    ∃ source, Source.ofReading file = .ok source ∧ ∀ lines, ¬source.Gives lines := by
  rw [ofFile]
  cases Source.ofReading file with
  | error cause => simp
  | ok source => simp [← Source.drain_eq_some_iff, Option.eq_none_iff_forall_ne_some]

theorem eq_ofRead_of_ofFile {path : String} {file : FileReading}
    {loaded : Except (List LoadError) Grammar} (h : ofFile path file = some loaded) :
    loaded = ofRead path file.first := by
  cases file with
  | unopened cause => exact (Option.some.inj h).symm
  | whole bytes => exact (Option.some.inj h).symm
  | broken cause => cases h

/-- What was opened and cannot be read is read for ever. -/
theorem exists_endless_iff {file : FileReading} :
    (∃ source, Source.ofReading file = .ok source ∧ ∀ lines, ¬source.Gives lines) ↔
      ∃ cause, file = .broken cause := by
  simp only [← Source.drain_eq_some_iff]
  cases file with
  | unopened cause => simp [Source.ofReading]
  | whole bytes => simp [Source.ofReading, Source.drain]
  | broken cause => simp [Source.ofReading, Source.drain]

/-! ### Lines -/

/-- What the bytes of a line are read as: the text that they encode, or a failure if they encode
none. -/
inductive Decoded : List UInt8 → Line → Prop
  | text (cs : List Char) : Decoded (Text.encode cs) (.ok cs)
  | malformed {piece : List UInt8} :
      (∀ cs, piece ≠ Text.encode cs) → Decoded piece (.error .malformedText)

theorem decoded_iff {piece : List UInt8} {line : Line} :
    Decoded piece line ↔ line = decodeLine piece := by
  constructor
  · intro h
    cases h with
    | text cs => rw [decodeLine_encode]
    | malformed hnone => rw [decodeLine_eq_error_iff.mpr ⟨rfl, hnone⟩]
  · intro h
    cases line with
    | ok cs =>
        rw [decodeLine_eq_ok_iff.mp h.symm]
        exact .text cs
    | error cause =>
        obtain ⟨rfl, hnone⟩ := decodeLine_eq_error_iff.mp h.symm
        exact .malformed hnone

/-- These are the lines of a file of the bytes. -/
def LinesOf (bytes : List UInt8) (lines : List Line) : Prop :=
  ∃ pieces, Text.HasLines 10 13 bytes pieces ∧ List.Forall₂ Decoded pieces lines

theorem linesOf_iff {bytes : List UInt8} {lines : List Line} :
    LinesOf bytes lines ↔ lines = (Text.lines 10 13 bytes).map decodeLine := by
  have hdecoded : Decoded = fun piece line => decodeLine piece = line := by
    funext piece line
    exact propext (decoded_iff.trans eq_comm)
  simp only [LinesOf, Text.hasLines_iff (show (10 : UInt8) ≠ 13 by decide), exists_eq_left]
  rw [hdecoded, ← List.forall₂_map_left_iff, List.forall₂_eq_eq_eq, eq_comm]

/-- The lines, numbered from here, hold these rules. On the others there is at most a comment. -/
inductive HoldRules : ℕ → List Line → List RuleLine → Prop
  | nil {number : ℕ} : HoldRules number [] []
  | passed {number : ℕ} {text : List Char} {lines : List Line} {rules : List RuleLine} :
      Token.Written text [] → HoldRules (number + 1) lines rules →
      HoldRules number (.ok text :: lines) rules
  | rule {number : ℕ} {text : List Char} {l : RuleLine} {lines : List Line}
      {rules : List RuleLine} : Token.Written text l.tokens → l.alternatives ≠ [] →
      l.number = number → HoldRules (number + 1) lines rules →
      HoldRules number (.ok text :: lines) (l :: rules)

/-- A line without a fault is written as a rule, or as nothing at all. -/
theorem written_of_lineFault? {path : String} {line : Line} {number : ℕ}
    (h : lineFault? path (line, number) = none) : ∃ text, line = .ok text ∧
      (Token.Written text [] ∧ ruleLine? (line, number) = none ∨
        ∃ l : RuleLine, Token.Written text l.tokens ∧ l.alternatives ≠ [] ∧ l.number = number ∧
          ruleLine? (line, number) = some l) := by
  cases line with
  | error cause => cases h
  | ok text =>
      refine ⟨text, rfl, ?_⟩
      rw [ruleLine?]
      cases hread : RuleLine.ofText number text with
      | error fault => simp [lineFault?, hread] at h
      | ok result =>
          cases result with
          | none =>
              have hlex := RuleLine.ofText_eq_ok_none_iff.mp hread
              exact Or.inl ⟨Token.lex_eq_ok_iff.mp hlex, rfl⟩
          | some l =>
              obtain ⟨hlex, hne, hnumber⟩ := RuleLine.ofText_eq_ok_some_iff.mp hread
              exact Or.inr ⟨l, Token.lex_eq_ok_iff.mp hlex, hne, hnumber, rfl⟩

theorem holdRules_iff {path : String} {number : ℕ} {lines : List Line} {rules : List RuleLine} :
    HoldRules number lines rules ↔ (lines.zipIdx number).filterMap (lineFault? path) = [] ∧
      rules = (lines.zipIdx number).filterMap ruleLine? := by
  constructor
  · intro h
    induction h with
    | nil => exact ⟨rfl, rfl⟩
    | @passed number _ _ _ htext _ ih =>
        have hnone : RuleLine.ofText number _ = _ := RuleLine.ofText_eq_ok_none_iff.mpr htext.lex
        simpa [lineFault?, ruleLine?, hnone] using ih
    | rule htext hne hnumber _ ih =>
        have hrule := RuleLine.ofText_eq_ok_some_iff.mpr ⟨htext.lex, hne, hnumber⟩
        simpa [lineFault?, ruleLine?, hrule] using ih
  · intro h
    obtain ⟨hfaults, rfl⟩ := h
    induction lines generalizing number with
    | nil => exact .nil
    | cons line lines ih =>
        rw [List.filterMap_eq_nil_iff, List.zipIdx_cons, List.forall_mem_cons,
          ← List.filterMap_eq_nil_iff] at hfaults
        obtain ⟨text, rfl, hline⟩ := written_of_lineFault? hfaults.1
        rw [List.zipIdx_cons]
        rcases hline with ⟨htext, hcons⟩ | ⟨l, htext, hne, hnumber, hcons⟩
        · rw [List.filterMap_cons_none hcons]
          exact .passed htext (ih hfaults.2)
        · rw [List.filterMap_cons_some hcons]
          exact .rule htext hne hnumber (ih hfaults.2)

/-! ### The grammar of a file -/

/-- The grammar has the alternatives of the rules in the order of writing, starts with the first
name defined and lists all names as they appear first. -/
structure MadeOf (path : String) (rules : List RuleLine) (g : Grammar) : Prop where
  name_eq : g.name = Path.stem path
  rules_eq : g.rules = rules.flatMap fun l =>
    l.alternatives.map fun items => ⟨⟨l.head⟩, items.map fun i => ⟨i.name⟩⟩
  start_eq : rules.head?.map RuleLine.head = some g.start.name
  names : FirstAppearances (rules.flatMap fun l => l.head :: l.alternatives.flatten.map Item.name)
    (g.symbols.map Symbol.name)

theorem MadeOf.unique {path : String} {rules : List RuleLine} {g g' : Grammar}
    (h : MadeOf path rules g) (h' : MadeOf path rules g') : g = g' := by
  have hstart : g.start = g'.start := by
    apply Symbol.name_injective
    rw [← Option.some_inj, ← h.start_eq, h'.start_eq]
  have hsymbols : g.symbols = g'.symbols :=
    List.map_injective_iff.mpr Symbol.name_injective (h.names.unique h'.names)
  have hname := h.name_eq.trans h'.name_eq.symm
  have hrules := h.rules_eq.trans h'.rules_eq.symm
  cases g
  cases g'
  rw [Grammar.mk.injEq]
  exact ⟨hname, hsymbols, hstart, hrules⟩

theorem madeOf_assemble (path : String) (first : RuleLine) (rest : List RuleLine) :
    MadeOf path (first :: rest) (assemble path first.head (first :: rest)) := by
  refine ⟨rfl, rfl, rfl, ?_⟩
  rw [map_name_symbols_assemble]
  exact firstAppearances_appendNew _

theorem madeOf_iff {path : String} {rules : List RuleLine} {g : Grammar} :
    MadeOf path rules g ↔
      ∃ first rest, rules = first :: rest ∧ assemble path first.head rules = g := by
  constructor
  · intro h
    cases rules with
    | nil => cases h.start_eq
    | cons first rest => exact ⟨first, rest, rfl, (madeOf_assemble path first rest).unique h⟩
  · intro h
    obtain ⟨first, rest, rfl, rfl⟩ := h
    exact madeOf_assemble path first rest

/-- The lines hold rules that misuse no item, and the grammar is made of these rules. -/
def Describes (path : String) (lines : List Line) (g : Grammar) : Prop :=
  ∃ rules, HoldRules 1 lines rules ∧
    (∀ l ∈ rules, ∀ items ∈ l.alternatives, ∀ i ∈ items, ¬i.Misused rules) ∧ MadeOf path rules g

/-- A file is loaded as the grammar that its lines describe. -/
theorem ofLines_eq_ok_iff_describes {path : String} {lines : List Line} {g : Grammar} :
    ofLines path lines = .ok g ↔ Describes path lines g := by
  rw [ofLines_eq_ok_iff, misusedItems_eq_nil_iff, ← madeOf_iff]
  constructor
  · intro h
    obtain ⟨hfaults, hitems, hmade⟩ := h
    exact ⟨_, holdRules_iff.mpr ⟨hfaults, rfl⟩, hitems, hmade⟩
  · intro h
    obtain ⟨rules, hrules, hitems, hmade⟩ := h
    obtain ⟨hfaults, rfl⟩ := holdRules_iff.mp hrules
    exact ⟨hfaults, hitems, hmade⟩

theorem exists_ofLines_eq_error_iff {path : String} {lines : List Line} :
    (∃ errors, ofLines path lines = .error errors) ↔ ∀ g, ¬Describes path lines g := by
  simp only [← ofLines_eq_ok_iff_describes]
  cases ofLines path lines with
  | error errors => simp
  | ok g => simp

end ChartParser.GrammarFile
