import ChartParser.CommandLine.Session
import ChartParser.FileTree
import ChartParser.Proofs.AcceptedLanguage
import ChartParser.Proofs.CutWords
import ChartParser.Proofs.FileContents
import ChartParser.Proofs.GenerationOutcomes
import ChartParser.Proofs.PrintedGrammar
import ChartParser.Proofs.TextBytes

/-!
# What a session shows

A session is refused as a whole or not at all: its file may not be opened or
have faults, its grammar may be outside the normal form, or words are to be
generated where none can be. All of this is found out before anything is
written. What a session writes otherwise is a block for each word, and each
block is true of the tokens of its word. Of all this nothing is found out if
the file turns out to be a folder, because a folder is read for ever.
-/
namespace ChartParser.Session

/-- The grammar of a session: the one that its file describes, with the start symbol that the
options ask for if they ask for one. -/
def Loads (o : Options) (read : Except FileFault (List UInt8)) (g : Grammar) : Prop :=
  ∃ bytes lines described, read = .ok bytes ∧ GrammarFile.LinesOf bytes lines ∧
    GrammarFile.Describes o.file lines described ∧ (o.start? = none → g = described) ∧
    ∀ start, o.start? = some start → g = { described with start := ⟨start⟩ }

/-- The reasons for a session to have nothing to show. -/
inductive Refused (o : Options) (read : Except FileFault (List UInt8)) : Prop
  | unopened {cause : FileFault} : read = .error cause → Refused o read
  | faulty {bytes : List UInt8} {lines : List GrammarFile.Line} : read = .ok bytes →
      GrammarFile.LinesOf bytes lines → (∀ g, ¬GrammarFile.Describes o.file lines g) →
      Refused o read
  | irregular {g : Grammar} {r : Rule} :
      Loads o read g → r ∈ g.rules → ¬g.NormalRule r → Refused o read
  | barren {g : Grammar} {count : ℕ} : Loads o read g → o.generate? = some count → 1 ≤ count →
      (∀ r ∈ g.rules, r.lhs ≠ g.start) ∨ ¬g.Productive g.start → Refused o read

/-- The lines that are true of tokens: that they are generated, with each of their derivation
trees once, or that they are not. -/
inductive Verdict (o : Options) (g : Grammar) (tokens : List String) : List String → Prop
  | generated {trees : List Tree} : g.Generates tokens → trees.Nodup →
      (∀ t, t ∈ trees ↔ t.ValidFor g ∧ t.label = g.start ∧ t.leaves = tokens) →
      Verdict o g tokens ("The word is generated by the grammar" ::
        trees.map fun t => if o.pretty then t.pretty else t.render)
  | rejected : ¬g.Generates tokens →
      Verdict o g tokens ["The word is NOT generated by the grammar"]

/-- The text is a block for the word and its tokens. -/
def BlockText (o : Options) (g : Grammar) (word : String) (tokens : List String) (text : String) :
    Prop :=
  ∃ verdict, Verdict o g tokens verdict ∧
    text = String.join (([Block.headline word g.name] ++
      (if o.table then ["Analysis table :", (g.wordTable tokens).render] else []) ++
      verdict ++ [""]).map (· ++ "\n"))

variable {σ : Type} {o : Options} {read : Except FileFault (List UInt8)} {g : Grammar}

/-! ### The grammar of a session -/

theorem chooseStart_eq_iff {described : Grammar} : chooseStart o described = g ↔
    (o.start? = none → g = described) ∧
      ∀ start, o.start? = some start → g = { described with start := ⟨start⟩ } := by
  unfold chooseStart
  cases hstart : o.start? with
  | none => simp [eq_comm]
  | some start => simp [Grammar.withStart, eq_comm]

theorem loads_iff : Loads o read g ↔
    ∃ described, GrammarFile.ofRead o.file read = .ok described ∧ chooseStart o described = g := by
  simp only [Loads, GrammarFile.linesOf_iff, ← chooseStart_eq_iff]
  constructor
  · intro h
    obtain ⟨bytes, lines, described, rfl, rfl, hdescribes, hchoose⟩ := h
    exact ⟨described, GrammarFile.ofLines_eq_ok_iff_describes.mpr hdescribes, hchoose⟩
  · intro h
    obtain ⟨described, hload, hchoose⟩ := h
    cases read with
    | error cause => cases hload
    | ok bytes =>
        have hdescribes := GrammarFile.ofLines_eq_ok_iff_describes.mp hload
        exact ⟨bytes, _, described, rfl, rfl, hdescribes, hchoose⟩

theorem Loads.unique {g' : Grammar} (h : Loads o read g) (h' : Loads o read g') : g = g' := by
  obtain ⟨described, hload, rfl⟩ := loads_iff.mp h
  obtain ⟨described', hload', rfl⟩ := loads_iff.mp h'
  rw [hload, Except.ok.injEq] at hload'
  rw [hload']

/-- Loading fails if the file was not opened or has a fault, and for no other reason. -/
theorem refused_of_ofRead {errors : List GrammarFile.LoadError}
    (h : GrammarFile.ofRead o.file read = .error errors) : Refused o read := by
  cases read with
  | error cause => exact .unopened rfl
  | ok bytes =>
      have hfaulty := GrammarFile.exists_ofLines_eq_error_iff.mp ⟨errors, h⟩
      exact .faulty rfl (GrammarFile.linesOf_iff.mpr rfl) hfaulty

/-! ### Blocks -/

theorem accepts_wordTable_iff (hg : g.firstViolation? = none) (tokens : List String) :
    (g.wordTable tokens).accepts g = true ↔ g.Generates tokens := by
  rw [Table.accepts_iff_exists, Grammar.generates_iff_exists_derivation,
    ← Grammar.exists_tree_iff_exists_derivation hg]
  simp only [Grammar.mem_parses_wordTable]

theorem blockText_render (hg : g.firstViolation? = none) {tokens : List String} {b : Block}
    (hb : g.parse tokens = .ok b.outcome) (o : Options) :
    BlockText o g b.word tokens (b.render o g.name) := by
  obtain ⟨outcome, houtcome, htable, haccepted, htrees⟩ := Grammar.parse_eq_ok hg tokens
  rw [hb] at houtcome
  obtain rfl := Except.ok.inj houtcome
  have hgenerates := accepts_wordTable_iff hg tokens
  have hnodup := (Grammar.coherent_wordTable g tokens).nodup_parses g
  rw [Block.render, Block.lines, htable, haccepted, Block.treeLines, htrees]
  refine ⟨_, ?_, rfl⟩
  by_cases haccepts : (g.wordTable tokens).accepts g = true
  · rw [if_pos haccepts]
    exact .generated (hgenerates.mp haccepts) hnodup fun _ => Grammar.mem_parses_wordTable
  · rw [if_neg haccepts]
    exact .rejected fun h => haccepts (hgenerates.mpr h)

/-- No word is refused by a grammar in normal form. -/
theorem exists_parseAll (hg : g.firstViolation? = none) (words : List (String × List String)) :
    ∃ blocks, parseAll g words = (blocks, none) ∧
      List.Forall₂ (fun w b => w.1 = b.word ∧ g.parse w.2 = .ok b.outcome) words blocks := by
  induction words with
  | nil => exact ⟨[], rfl, .nil⟩
  | cons w words ih =>
      obtain ⟨blocks, hblocks, hall⟩ := ih
      obtain ⟨outcome, houtcome, _⟩ := Grammar.parse_eq_ok hg w.2
      refine ⟨⟨w.1, outcome⟩ :: blocks, ?_, .cons ⟨rfl, houtcome⟩ hall⟩
      rw [parseAll, houtcome]
      dsimp only
      rw [hblocks]

/-! ### Generated words -/

/-- Unless none can be generated, the words of a session are as many as were asked for and
belong to the language. -/
theorem exists_words (c : Chooser σ) (state : σ) (hgenerable : ∀ count, o.generate? = some count →
      1 ≤ count → g.isNonTerminal g.start = true ∧ g.Productive g.start) :
    ∃ generated : List (List String), words c o g state = .ok (o.words.map (fun word => (word, o.tokens word)) ++
        generated.map fun tokens => (o.join tokens, tokens)) ∧
      generated.length = o.generate?.getD 0 ∧ ∀ tokens ∈ generated, g.Generates tokens := by
  have hasked : 0 < o.generate?.getD 0 →
      g.isNonTerminal g.start = true ∧ g.Productive g.start := by
    intro hpos
    cases hcount : o.generate? with
    | none =>
        rw [hcount] at hpos
        cases hpos
    | some count =>
        rw [hcount, Option.getD_some] at hpos
        exact hgenerable count hcount hpos
  obtain ⟨generated, state', hrun, hlength, hwords⟩ :=
    Grammar.exists_generateMany_eq_ok c o.maxDepth hasked state
  exact ⟨generated, by rw [words, hrun]; rfl, hlength, hwords⟩

/-! ### Sessions -/

/-- A reason to refuse a session is found before anything is written. -/
theorem Refused.run_eq_failed (h : Refused o read) (c : Chooser σ) (state : σ) :
    ∃ diagnostics, run c o read state = failed diagnostics := by
  cases h with
  | unopened hread =>
      rw [hread]
      exact ⟨_, rfl⟩
  | faulty hread hlines hfaulty =>
      obtain rfl := GrammarFile.linesOf_iff.mp hlines
      obtain ⟨errors, herrors⟩ := GrammarFile.exists_ofLines_eq_error_iff.mpr hfaulty
      have hload : GrammarFile.ofRead o.file read = .error errors := by rwa [hread]
      exact ⟨_, by simp only [run, ofLoaded, hload]; rfl⟩
  | @irregular g r hloads hr hrule =>
      obtain ⟨described, hload, rfl⟩ := loads_iff.mp hloads
      cases hviolation : (chooseStart o described).firstViolation? with
      | none => exact absurd (Grammar.normalRule_of_firstViolation?_eq_none hviolation hr) hrule
      | some violation => exact ⟨_, by simp only [run, ofLoaded, hload, hviolation]; rfl⟩
  | @barren g count hloads hcount hpos hnone =>
      obtain ⟨described, hload, rfl⟩ := loads_iff.mp hloads
      cases hviolation : (chooseStart o described).firstViolation? with
      | some violation => exact ⟨_, by simp only [run, ofLoaded, hload, hviolation]; rfl⟩
      | none =>
          rw [← Grammar.isNonTerminal_eq_false_iff] at hnone
          obtain ⟨fault, hfault⟩ := Grammar.exists_generateMany_eq_error c o.maxDepth hnone
            hpos state
          have hwords : words c o (chooseStart o described) state = .error fault := by
            rw [words, hcount, Option.getD_some, hfault]
            rfl
          exact ⟨_, by simp only [run, ofLoaded, hload, hviolation, hwords]; rfl⟩

theorem exists_run_eq {c : Chooser σ} {state : σ} {described : Grammar}
    (hload : GrammarFile.ofRead o.file read = .ok described)
    (hnormal : (chooseStart o described).firstViolation? = none)
    {requests : List (String × List String)}
    (hwords : words c o (chooseStart o described) state = .ok requests) {blocks : List Block}
    (hblocks : parseAll (chooseStart o described) requests = (blocks, none)) :
    ∃ diagnostics, run c o read state =
      { status := 0, grammar := (chooseStart o described).name, blocks, diagnostics } :=
  ⟨_, by simp only [run, ofLoaded, hload, hnormal, hwords, hblocks]; rfl⟩

/-- With a grammar in normal form whose start symbol is productive there is no reason to refuse
anything. -/
theorem not_refused_of_productive (hloads : Loads o read g) (hg : g.firstViolation? = none)
    (hstart : g.isNonTerminal g.start = true) (hprod : g.Productive g.start) :
    ¬Refused o read := by
  intro h
  cases h with
  | unopened hread =>
      obtain ⟨bytes, _, _, hbytes, _⟩ := hloads
      cases hread.symm.trans hbytes
  | faulty hread hlines hfaulty =>
      obtain ⟨bytes, lines, described, hbytes, hlines', hdescribes, _⟩ := hloads
      obtain rfl := Except.ok.inj (hread.symm.trans hbytes)
      rw [GrammarFile.linesOf_iff] at hlines hlines'
      rw [hlines, ← hlines'] at hfaulty
      exact hfaulty described hdescribes
  | irregular hloads' hr hrule =>
      obtain rfl := hloads.unique hloads'
      exact hrule (Grammar.normalRule_of_firstViolation?_eq_none hg hr)
  | barren hloads' _ _ hnone =>
      obtain rfl := hloads.unique hloads'
      rw [← Grammar.isNonTerminal_eq_false_iff, hstart] at hnone
      rcases hnone with hnone | hnone
      · cases hnone
      · exact hnone hprod

/-- A session that is not refused parses the words that it is given and then the words that it
generates. -/
theorem exists_blocks_of_not_refused (h : ¬Refused o read) (c : Chooser σ) (state : σ) :
    ∃ g generated given made diagnostics, Loads o read g ∧ g.firstViolation? = none ∧
      generated.length = o.generate?.getD 0 ∧ (∀ tokens ∈ generated, g.Generates tokens) ∧
      run c o read state =
        { status := 0, grammar := g.name, blocks := given ++ made, diagnostics } ∧
      List.Forall₂ (fun word b => word = b.word ∧ g.parse (o.tokens word) = .ok b.outcome)
        o.words given ∧
      List.Forall₂ (fun tokens b => o.join tokens = b.word ∧ g.parse tokens = .ok b.outcome)
        generated made := by
  cases hload : GrammarFile.ofRead o.file read with
  | error errors => exact absurd (refused_of_ofRead hload) h
  | ok described =>
      have hloads : Loads o read (chooseStart o described) := loads_iff.mpr ⟨described, hload, rfl⟩
      have hnormal : (chooseStart o described).firstViolation? = none := by
        rw [Grammar.firstViolation?_eq_none_iff]
        intro r hr
        by_contra hrule
        exact h (.irregular hloads hr hrule)
      have hgenerable : ∀ count, o.generate? = some count → 1 ≤ count →
          (chooseStart o described).isNonTerminal (chooseStart o described).start = true ∧
            (chooseStart o described).Productive (chooseStart o described).start := by
        intro count hcount hpos
        by_contra hnone
        rw [not_and_or, Bool.not_eq_true, Grammar.isNonTerminal_eq_false_iff] at hnone
        exact h (.barren hloads hcount hpos hnone)
      obtain ⟨generated, hwords, hlength, hgenerated⟩ := exists_words c state hgenerable
      obtain ⟨blocks, hblocks, hall⟩ := exists_parseAll hnormal _
      obtain ⟨diagnostics, hrun⟩ := exists_run_eq hload hnormal hwords hblocks
      have hgiven := (List.forall₂_take_append _ _ _ hall.flip).flip
      have hmade := (List.forall₂_drop_append _ _ _ hall.flip).flip
      rw [List.forall₂_map_left_iff] at hgiven hmade
      rw [← List.take_append_drop (o.words.map fun word => (word, o.tokens word)).length blocks]
        at hrun
      exact ⟨_, generated, _, _, diagnostics, hloads, hnormal, hlength, hgenerated, hrun, hgiven,
        hmade⟩

/-- A session that is not refused has a true block for each of its words. -/
theorem exists_run_of_not_refused (h : ¬Refused o read) (c : Chooser σ) (state : σ) :
    ∃ g generated given made blocks diagnostics, Loads o read g ∧
      generated.length = o.generate?.getD 0 ∧ (∀ tokens ∈ generated, g.Generates tokens) ∧
      run c o read state = { status := 0, grammar := g.name, blocks, diagnostics } ∧
      List.Forall₂ (fun word text => ∃ tokens, o.Cut word tokens ∧ BlockText o g word tokens text)
        o.words given ∧
      List.Forall₂ (fun tokens text => BlockText o g (o.join tokens) tokens text) generated made ∧
      blocks.map (Block.render o g.name) = given ++ made := by
  obtain ⟨g, generated, given, made, diagnostics, hloads, hnormal, hlength, hgenerated, hrun,
    hgiven, hmade⟩ := exists_blocks_of_not_refused h c state
  refine ⟨g, generated, _, _, _, diagnostics, hloads, hlength, hgenerated, hrun, ?_, ?_,
    List.map_append⟩
  · rw [List.forall₂_map_right_iff]
    refine hgiven.imp fun word b hb => ?_
    obtain ⟨rfl, hparse⟩ := hb
    exact ⟨_, Options.cut_iff.mpr rfl, blockText_render hnormal hparse o⟩
  · rw [List.forall₂_map_right_iff]
    refine hmade.imp fun tokens b hb => ?_
    obtain ⟨hword, hparse⟩ := hb
    rw [hword]
    exact blockText_render hnormal hparse o

theorem runOn_eq_none_iff {c : Chooser σ} {file : FileReading} {state : σ} :
    runOn c o file state = none ↔
      ∃ source, GrammarFile.Source.ofReading file = .ok source ∧ ∀ lines, ¬source.Gives lines := by
  rw [runOn, Option.map_eq_none_iff, GrammarFile.ofFile_eq_none_iff]

/-- A session that ends is a run on what was read. -/
theorem eq_run_of_runOn {c : Chooser σ} {file : FileReading} {state : σ} {session : Session}
    (h : runOn c o file state = some session) : session = run c o file.first state := by
  obtain ⟨loaded, hload, rfl⟩ := Option.map_eq_some_iff.mp h
  rw [GrammarFile.eq_ofRead_of_ofFile hload, run]

/-- A session never ends if its file is opened and reading never gets to the end of it, which of
all that a path can lead to is the case for folders only. With any other file, or none, a session
ends with status one and an empty output stream exactly when there is a reason to refuse it.
Otherwise it ends with status zero, and the output stream holds one block for each word, the words
given before the words generated, all of which are said to be generated. No session stops at a
word. -/
theorem run_truthful (c : Chooser σ) (o : Options) (state : σ) :
    (∀ t : FileTree, runOn c o (t.reading o.file) state = none ↔
      t.reading o.file = .broken .folder) ∧
    ∀ file, (runOn c o file state = none ↔ ∃ source,
        GrammarFile.Source.ofReading file = .ok source ∧ ∀ lines, ¬source.Gives lines) ∧
      ∀ session, runOn c o file state = some session →
        (session.status = 1 ∧ session.output o = "" ↔ Refused o file.first) ∧
        (¬Refused o file.first → session.status = 0 ∧ ∃ g generated given made,
          Loads o file.first g ∧
          generated.length = o.generate?.getD 0 ∧ (∀ tokens ∈ generated, g.Generates tokens) ∧
          List.Forall₂ (fun word text => ∃ tokens, o.Cut word tokens ∧
            BlockText o g word tokens text) o.words given ∧
          List.Forall₂ (fun tokens text => BlockText o g
            ((if o.wordsAreTokens then " " else "").intercalate tokens) tokens text)
              generated made ∧
          session.output o = String.join (given ++ made)) ∧
        session.stoppedAt? = none := by
  refine ⟨fun t => ?_, fun file => ⟨runOn_eq_none_iff, fun session hsession => ?_⟩⟩
  · rw [runOn_eq_none_iff, GrammarFile.exists_endless_iff]
    constructor
    · intro h
      obtain ⟨cause, hcause⟩ := h
      rw [hcause, FileTree.eq_folder_of_reading hcause]
    · intro h
      exact ⟨_, h⟩
  · rw [eq_run_of_runOn hsession]
    by_cases h : Refused o file.first
    · obtain ⟨diagnostics, hfailed⟩ := h.run_eq_failed c state
      rw [hfailed]
      exact ⟨iff_of_true ⟨rfl, rfl⟩ h, fun hnot => absurd h hnot, rfl⟩
    · obtain ⟨g, generated, given, made, blocks, diagnostics, hloads, hlength, hgenerated, hshown,
        hgiven, hmade, hblocks⟩ := exists_run_of_not_refused h c state
      rw [hshown]
      refine ⟨iff_of_false (fun hfailed => Nat.zero_ne_one hfailed.1) h, fun _ => ?_, rfl⟩
      refine ⟨rfl, g, generated, given, made, hloads, hlength, hgenerated, hgiven, hmade, ?_⟩
      rw [output, hblocks]
      exact String.append_empty

theorem ofText_print_operators :
    GrammarFile.ofText "operators.bnf" (GrammarFile.print Grammar.operators) =
      .ok Grammar.operators := by
  have hprintable : Grammar.operators.Printable := by decide +kernel
  have hstem : Path.stem "operators.bnf" = "operators" := by decide +kernel
  obtain ⟨g, hload, hrules⟩ := GrammarFile.exists_ofText_print hprintable "operators.bnf"
  have hname : g.name = "operators" := (GrammarFile.name_of_ofText hload).trans hstem
  have hstart := GrammarFile.start_of_ofText hload
  have hnames := GrammarFile.names_of_ofText hload
  rw [hrules] at hstart hnames
  have hsymbols : g.symbols = Grammar.operators.symbols := by
    apply List.map_injective_iff.mpr Symbol.name_injective
    rw [hnames]
    decide +kernel
  have hoperators : g = Grammar.operators := by
    cases g
    rw [Grammar.operators, Grammar.mk.injEq]
    exact ⟨hname, hsymbols, (Option.some.inj hstart).symm, hrules⟩
  rw [hload, hoperators]

/-- Of these words one is given, the name of a non-terminal, and one is to be generated. -/
def operatorOptions : Options where
  file := "operators.bnf"
  words := ["S"]
  generate? := some 1

def operatorFile : Except FileFault (List UInt8) :=
  .ok (GrammarFile.print Grammar.operators).toUTF8.data.toList

theorem ofRead_operatorFile :
    GrammarFile.ofRead "operators.bnf" operatorFile = .ok Grammar.operators :=
  (GrammarFile.ofBytes_toUTF8 _ _).trans ofText_print_operators

theorem loads_operatorFile : Loads operatorOptions operatorFile Grammar.operators :=
  loads_iff.mpr ⟨_, ofRead_operatorFile, rfl⟩

theorem not_refused_operators : ¬Refused operatorOptions operatorFile := by
  have hnormal : Grammar.operators.firstViolation? = none := by decide
  have hprod : Grammar.operators.Productive Grammar.operators.start :=
    ⟨_, Grammar.validFor_operand.toDerivation hnormal, rfl⟩
  exact not_refused_of_productive loads_operatorFile hnormal (by decide) hprod

/-- A folder with the file in it. -/
def operatorTree : FileTree :=
  FileTree.write {} "operators.bnf" (GrammarFile.print Grammar.operators).toUTF8.data.toList

theorem reading_operatorTree : operatorTree.reading "operators.bnf" =
    .whole (GrammarFile.print Grammar.operators).toUTF8.data.toList := rfl

theorem reading_operatorTree_ne : operatorTree.reading "operators.bnf" ≠ .broken .folder := by
  rw [reading_operatorTree]
  exact nofun

/-- The same session is refused once it starts from a name that heads no rule. -/
theorem run_truthful_operators :
    let source : RandomSource := { script := [], state := 0 }
    let misled := { operatorOptions with start? := some "X" }
    let file := operatorTree.reading "operators.bnf"
    ¬Refused operatorOptions (operatorTree.read "operators.bnf") ∧
    (∃ session, runOn RandomSource.chooser operatorOptions file source = some session ∧
      session.status = 0 ∧ ∃ rest, session.output operatorOptions =
        "--- \"S\" - operators ---\nThe word is NOT generated by the grammar\n\n" ++ rest) ∧
    Refused misled (operatorTree.read "operators.bnf") ∧
    ∃ session, runOn RandomSource.chooser misled file source = some session ∧
      session.status = 1 ∧ session.output misled = "" := by
  intro source misled file
  obtain ⟨hends, htruth⟩ := run_truthful RandomSource.chooser operatorOptions source
  obtain ⟨session, hsession⟩ :=
    Option.ne_none_iff_exists'.mp ((hends operatorTree).not.mpr reading_operatorTree_ne)
  obtain ⟨_, hshown, _⟩ := (htruth _).2 session hsession
  obtain ⟨hstatus, g, _, given, made, hloads, _, _, hgiven, _, houtput⟩ :=
    hshown not_refused_operators
  obtain rfl := hloads.unique loads_operatorFile
  have hmisled : Refused misled (operatorTree.read "operators.bnf") :=
    .barren (loads_iff.mpr ⟨_, ofRead_operatorFile, rfl⟩) rfl (Nat.le_refl 1) (Or.inl (by decide))
  obtain ⟨hends', htruth'⟩ := run_truthful RandomSource.chooser misled source
  obtain ⟨failure, hfailure⟩ :=
    Option.ne_none_iff_exists'.mp ((hends' operatorTree).not.mpr reading_operatorTree_ne)
  obtain ⟨hfailed, _, _⟩ := (htruth' _).2 failure hfailure
  refine ⟨not_refused_operators, ⟨session, hsession, hstatus, ?_⟩, hmisled,
    failure, hfailure, hfailed.mpr hmisled⟩
  obtain ⟨first, rest, hfirst, _, rfl⟩ := List.forall₂_cons_left_iff.mp hgiven
  obtain ⟨tokens, hcut, verdict, hverdict, rfl⟩ := hfirst
  obtain rfl := Options.cut_iff.mp hcut
  cases hverdict with
  | generated hgenerates _ _ => exact absurd (hgenerates.1 "S" (by decide)) (by decide)
  | rejected _ =>
      refine ⟨String.join (rest ++ made), ?_⟩
      rw [houtput, List.cons_append, String.join_cons]
      rfl

/-- Reading a folder fails, which is a reason to refuse the session and would be reported with
status one, if only the session came to its end. -/
theorem runOn_folder :
    let o : Options := { file := ".", words := ["ab"] }
    let source : RandomSource := { script := [], state := 0 }
    let stopped := run RandomSource.chooser o (operatorTree.read ".") source
    Refused o (operatorTree.read ".") ∧ stopped.status = 1 ∧ stopped.output o = "" ∧
    stopped.errors o "" =
      "\x1b[31;49;1m[.]\x1b[39;49;1m  File error: Is a directory (os error 21)\x1b[0m\n" ∧
    runOn RandomSource.chooser o (operatorTree.reading ".") source = none := by
  intro o source stopped
  have hread : operatorTree.reading "." = .broken .folder := rfl
  refine ⟨.unopened rfl, rfl, rfl, rfl, ?_⟩
  rw [hread]
  exact runOn_eq_none_iff.mpr (GrammarFile.exists_endless_iff.mpr ⟨_, rfl⟩)

end ChartParser.Session
