import ChartParser.Proofs.CutWords
import ChartParser.Proofs.GeneratedLanguage
import ChartParser.Proofs.SessionOutput

/-!
# Words that are given back

A generated word is shown as its tokens put together, and a word that is given
is cut into tokens. If the terminals of a grammar are tokens that cutting can
yield, this gives the tokens back, so that a word which one session generates
can be given to another, and is accepted there.
-/
namespace ChartParser

/-! ### The tokens of generated words -/

/-- What stands in the word of a derivation stands in a rule. -/
theorem Derivation.ValidFor.exists_rule_of_mem_word {g : Grammar} {d : Derivation}
    (h : d.ValidFor g) (hroot : g.isNonTerminal d.root = true) {token : String}
    (htoken : token ∈ d.word) : ∃ r ∈ g.rules, ⟨token⟩ ∈ r.rhs := by
  induction h with
  | terminal hs =>
      rw [root, hs] at hroot
      cases hroot
  | @node r children hr hroots hvalid ih =>
      rw [word, wordOf_eq_flatMap, List.mem_flatMap] at htoken
      obtain ⟨child, hchild, htoken⟩ := htoken
      cases hhead : g.isNonTerminal child.root with
      | true => exact ih child hchild hhead htoken
      | false =>
          have hleaf := (hvalid child hchild).eq_terminal hhead
          rw [hleaf, word, List.mem_singleton] at htoken
          rw [htoken]
          exact ⟨r, hr, hroots ▸ List.mem_map_of_mem hchild⟩

theorem Grammar.Generates.exists_rule {g : Grammar} {tokens : List String}
    (h : g.Generates tokens) {token : String} (htoken : token ∈ tokens) :
    ∃ r ∈ g.rules, ⟨token⟩ ∈ r.rhs := by
  obtain ⟨hstart, d, hd, hroot, rfl⟩ := generates_iff_exists_derivation.mp h
  rw [← hroot] at hstart
  exact hd.exists_rule_of_mem_word hstart htoken

theorem Grammar.Generates.exists_accepted {g : Grammar} {tokens : List String}
    (h : g.Generates tokens) (hg : g.firstViolation? = none) :
    ∃ outcome, g.parse tokens = .ok outcome ∧ outcome.accepted = true := by
  obtain ⟨outcome, houtcome, hacc⟩ := parse_accepted_iff_exists_derivation hg tokens
  exact ⟨outcome, houtcome, hacc.mpr (generates_iff_exists_derivation.mp h)⟩

theorem Options.tokens_join_of_generates {o : Options} {g : Grammar}
    (hatomic : ∀ r ∈ g.rules, ∀ s ∈ r.rhs, g.isNonTerminal s = false → o.Atomic s.name)
    {tokens : List String} (h : g.Generates tokens) : o.tokens (o.join tokens) = tokens := by
  apply tokens_join_of_atomic
  intro token htoken
  obtain ⟨r, hr, hs⟩ := h.exists_rule htoken
  exact hatomic r hr _ hs (h.1 token htoken)

theorem exists_mem_of_forall₂ {α β : Type} {R : α → β → Prop} {l : List α} {l' : List β}
    (h : List.Forall₂ R l l') {b : β} (hb : b ∈ l') : ∃ a ∈ l, R a b := by
  induction h with
  | nil => cases hb
  | @cons a b' l l' hR _ ih =>
      rcases List.mem_cons.mp hb with rfl | hb
      · exact ⟨a, List.mem_cons_self, hR⟩
      · obtain ⟨a', ha', hR'⟩ := ih hb
        exact ⟨a', List.mem_cons_of_mem a ha', hR'⟩

namespace Session
variable {σ : Type} {o : Options} {read : Except FileFault (List UInt8)} {g : Grammar}

/-! ### Generated words in another session -/

theorem chooseStart_symbols (o : Options) (g : Grammar) :
    (chooseStart o g).symbols = g.symbols := by
  unfold chooseStart
  split <;> rfl

theorem chooseStart_rules (o : Options) (g : Grammar) : (chooseStart o g).rules = g.rules := by
  unfold chooseStart
  split <;> rfl

/-- The vocabulary of the grammar of a session covers its rules. -/
theorem Loads.mem_terminals (h : Loads o read g) {r : Rule} (hr : r ∈ g.rules) {s : Symbol}
    (hs : s ∈ r.rhs) (hterminal : g.isNonTerminal s = false) : s ∈ g.terminals := by
  obtain ⟨described, hload, rfl⟩ := loads_iff.mp h
  rw [chooseStart_rules] at hr
  cases read with
  | error cause => cases hload
  | ok bytes =>
      have hsymbol : s ∈ described.symbols :=
        (GrammarFile.mem_symbols_of_ofLines hload).mpr ⟨r, hr, Or.inr hs⟩
      rw [Grammar.terminals, List.mem_filter, chooseStart_symbols, hterminal]
      exact ⟨hsymbol, rfl⟩

theorem Loads.of_alike {o' : Options} (h : Loads o read g) (hfile : o'.file = o.file)
    (hstart : o'.start? = o.start?) : Loads o' read g := by
  rw [Loads, hfile, hstart]
  exact h

/-- The first blocks of a session that is not refused are those of the words given, and the blocks
after them are those of generated words. -/
theorem exists_given_and_generated (h : ¬Refused o read) (c : Chooser σ) (state : σ) :
    ∃ g generated, Loads o read g ∧ g.firstViolation? = none ∧ (run c o read state).status = 0 ∧
      generated.length = o.generate?.getD 0 ∧ (∀ tokens ∈ generated, g.Generates tokens) ∧
      List.Forall₂ (fun word b => word = b.word ∧ g.parse (o.tokens word) = .ok b.outcome) o.words
        ((run c o read state).blocks.take o.words.length) ∧
      List.Forall₂ (fun tokens b => o.join tokens = b.word ∧ g.parse tokens = .ok b.outcome)
        generated ((run c o read state).blocks.drop o.words.length) := by
  obtain ⟨g, generated, given, made, diagnostics, hloads, hnormal, hlength, hgenerated, hrun,
    hgiven, hmade⟩ := exists_blocks_of_not_refused h c state
  rw [hrun, List.take_left' hgiven.length_eq.symm, List.drop_left' hgiven.length_eq.symm]
  exact ⟨g, generated, hloads, hnormal, rfl, hlength, hgenerated, hgiven, hmade⟩

/-- A word that one session generates is parsed by another one as it was by the first. -/
theorem outcome_of_given_back (hloads : Loads o read g)
    (hatomic : ∀ s ∈ g.terminals, o.Atomic s.name) {c : Chooser σ} {state : σ} {b : Block}
    (hb : b ∈ (run c o read state).blocks.drop o.words.length) {o' : Options}
    (hfile : o'.file = o.file) (hstart : o'.start? = o.start?)
    (hmode : o'.wordsAreTokens = o.wordsAreTokens) {σ' : Type} (c' : Chooser σ') (state' : σ') :
    (run c' o' read state').status = 0 ∧
      ((run c' o' read state').blocks.take o'.words.length).map Block.word = o'.words ∧
      ∀ b' ∈ (run c' o' read state').blocks.take o'.words.length, b'.word = b.word →
        b'.outcome = b.outcome ∧ b'.outcome.accepted = true := by
  have hshown : ¬Refused o read := by
    intro h
    obtain ⟨diagnostics, hrun⟩ := h.run_eq_failed c state
    simp [hrun, failed] at hb
  obtain ⟨_, generated, hloads₁, hnormal, _, _, hall, _, hblocks⟩ :=
    exists_given_and_generated hshown c state
  obtain rfl := hloads.unique hloads₁
  obtain ⟨tokens, htokens, hword, hparse⟩ := exists_mem_of_forall₂ hblocks hb
  have hgenerates := hall tokens htokens
  have hreread : o.tokens (o.join tokens) = tokens :=
    Options.tokens_join_of_generates (fun _ hr s hs hterminal =>
      hatomic s (hloads.mem_terminals hr hs hterminal)) hgenerates
  obtain ⟨hhead, d, hd, hroot, _⟩ := Grammar.generates_iff_exists_derivation.mp hgenerates
  have hloads' := hloads.of_alike hfile hstart
  have hshown' := not_refused_of_productive hloads' hnormal hhead ⟨d, hd, hroot⟩
  obtain ⟨_, _, hloads₂, _, hstatus, _, _, hgiven, _⟩ :=
    exists_given_and_generated hshown' c' state'
  obtain rfl := hloads'.unique hloads₂
  refine ⟨hstatus, ?_, ?_⟩
  · have hwords := List.forall₂_map_right_iff.mpr (hgiven.imp fun _ _ h => h.1)
    rw [List.forall₂_eq_eq_eq] at hwords
    exact hwords.symm
  · intro b' hb' hsame
    obtain ⟨_, _, rfl, hparse'⟩ := exists_mem_of_forall₂ hgiven hb'
    rw [Options.tokens_congr hmode, hsame, ← hword, hreread, hparse] at hparse'
    obtain ⟨outcome, houtcome, haccepted⟩ := hgenerates.exists_accepted hnormal
    rw [hparse] at houtcome
    obtain rfl := Except.ok.inj houtcome
    rw [← Except.ok.inj hparse']
    exact ⟨rfl, haccepted⟩

/-- Tokens put together are cut into the same tokens again exactly when each of them is one that
cutting can yield. So if the terminals of a grammar in normal form are such tokens, its generated
words are accepted once they are cut again, in particular when another session with the same file,
start symbol and way of cutting is given a word that was generated before. -/
theorem generated_words_reread (o : Options) :
    (∀ tokens, o.tokens (o.join tokens) = tokens ↔ ∀ t ∈ tokens, o.Atomic t) ∧
    (∀ g : Grammar, g.firstViolation? = none →
      (∀ r ∈ g.rules, ∀ s ∈ r.rhs, g.isNonTerminal s = false → o.Atomic s.name) →
      ∀ (σ : Type) (c : Chooser σ) maxDepth state tokens state',
        g.generate c maxDepth state = .ok (tokens, state') →
        ∃ outcome, g.parse (o.tokens (o.join tokens)) = .ok outcome ∧ outcome.accepted = true) ∧
    ∀ read g, Loads o read g → (∀ s ∈ g.terminals, o.Atomic s.name) →
      ∀ (σ : Type) (c : Chooser σ) state,
      ∀ b ∈ (run c o read state).blocks.drop o.words.length, ∀ o' : Options,
        o'.file = o.file → o'.start? = o.start? → o'.wordsAreTokens = o.wordsAreTokens →
        ∀ (σ' : Type) (c' : Chooser σ') state',
          (run c' o' read state').status = 0 ∧
          ((run c' o' read state').blocks.take o'.words.length).map Block.word = o'.words ∧
          ∀ b' ∈ (run c' o' read state').blocks.take o'.words.length, b'.word = b.word →
            b'.outcome = b.outcome ∧ b'.outcome.accepted = true := by
  refine ⟨o.tokens_join_eq_iff, ?_, ?_⟩
  · intro g hg hatomic σ c maxDepth state tokens state' hrun
    have hgenerates := Grammar.generates_iff_exists_derivation.mpr
      (Grammar.exists_derivation_of_generate hrun)
    rw [Options.tokens_join_of_generates hatomic hgenerates]
    exact hgenerates.exists_accepted hg
  · intro read g hloads hatomic σ c state b hb o' hfile hstart hmode σ' c' state'
    exact outcome_of_given_back hloads hatomic hb hfile hstart hmode c' state'

/-- The word generated in the session of `S` is accepted when it is given. -/
theorem generated_words_reread_operators :
    let source : RandomSource := { script := [], state := 0 }
    let spaced := { operatorOptions with wordsAreTokens := true }
    operatorOptions.tokens (operatorOptions.join ["a", "c", "a"]) = ["a", "c", "a"] ∧
    spaced.tokens (spaced.join ["no", "break"]) = ["no", "break"] ∧
    spaced.tokens (spaced.join ["a", ""]) ≠ ["a", ""] ∧
    Loads operatorOptions operatorFile Grammar.operators ∧
    (∀ s ∈ Grammar.operators.terminals, operatorOptions.Atomic s.name) ∧
    (∃ maxDepth choices rest,
      Grammar.operators.generate Chooser.scripted maxDepth choices = .ok (["a"], rest) ∧
      ∃ outcome, Grammar.operators.parse (operatorOptions.tokens (operatorOptions.join ["a"])) =
        .ok outcome ∧ outcome.accepted = true) ∧
    ∃ b ∈ (run RandomSource.chooser operatorOptions operatorFile source).blocks.drop 1,
      let given := { operatorOptions with words := [b.word], generate? := none }
      let again := run RandomSource.chooser given operatorFile source
      again.status = 0 ∧ (again.blocks.take 1).map Block.word = [b.word] ∧
      ∀ b' ∈ again.blocks.take 1, b'.word = b.word → b'.outcome.accepted = true := by
  intro source spaced
  obtain ⟨hiff, hgrammar, hsession⟩ := generated_words_reread operatorOptions
  obtain ⟨hiffSpaced, _⟩ := generated_words_reread spaced
  have hatomic : ∀ s ∈ Grammar.operators.terminals, operatorOptions.Atomic s.name := by
    decide +kernel
  have hrules : ∀ r ∈ Grammar.operators.rules, ∀ s ∈ r.rhs,
      Grammar.operators.isNonTerminal s = false → operatorOptions.Atomic s.name := by
    decide +kernel
  have hnormal : Grammar.operators.firstViolation? = none := by decide
  obtain ⟨choices, hgenerate⟩ := Grammar.exists_generate Chooser.free_scripted (by decide)
    (Grammar.validFor_operand.toDerivation hnormal) rfl []
  have haccept := hgrammar _ hnormal hrules _ _ _ _ _ _ hgenerate
  have hrow := (hiff ["a", "c", "a"]).mpr (by decide +kernel)
  have hbroken := mt (hiffSpaced ["a", ""]).mp (by decide +kernel)
  have hspaced := (hiffSpaced ["no", "break"]).mpr (by decide +kernel)
  obtain ⟨_, generated, _, _, _, hlength, _, _, hblocks⟩ :=
    exists_given_and_generated not_refused_operators RandomSource.chooser source
  obtain ⟨tokens, rfl⟩ := List.length_eq_one_iff.mp hlength
  obtain ⟨b, rest, _, _, hdrop⟩ := List.forall₂_cons_left_iff.mp hblocks
  have hb : b ∈ (run RandomSource.chooser operatorOptions operatorFile source).blocks.drop 1 := by
    rw [show 1 = operatorOptions.words.length from rfl, hdrop]
    exact List.mem_cons_self
  obtain ⟨hstatus, hwords, haccepted⟩ := hsession _ _ loads_operatorFile hatomic _ _ _ b hb
    { operatorOptions with words := [b.word], generate? := none } rfl rfl rfl
    _ RandomSource.chooser source
  refine ⟨hrow, hspaced, hbroken, loads_operatorFile, hatomic, ⟨_, choices, [], hgenerate, haccept⟩,
    b, hb, hstatus, hwords, ?_⟩
  intro b' hb' hsame
  exact (haccepted b' hb' hsame).2

end Session

end ChartParser
