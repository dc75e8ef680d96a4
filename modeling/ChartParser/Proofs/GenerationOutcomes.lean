import ChartParser.Proofs.ExpandedDerivations
import ChartParser.Proofs.RewritingForests

/-!
# Outcomes of generation

With settled heights an expansion can fail at its start only. A symbol with a
height has a rule of just this height, so that something is on offer at every
depth, and below a rule on offer all symbols have heights again. Generation
therefore fails when the start symbol heads no rule or has no finite
derivation, and for no other reason, whatever is chosen.
-/
namespace ChartParser

/-- Steps that succeed on each member from any state succeed one after the other. -/
theorem threadThrough_total {α β σ ε : Type} {xs : List α}
    {step : (x : α) → x ∈ xs → σ → Except ε (β × σ)}
    (hstep : ∀ x hx s, ∃ y s', step x hx s = .ok (y, s')) (state : σ) :
    ∃ ys state', threadThrough xs step state = .ok (ys, state') := by
  induction xs generalizing state with
  | nil => exact ⟨[], state, rfl⟩
  | cons x xs ih =>
      obtain ⟨y, s, hy⟩ := hstep x List.mem_cons_self state
      obtain ⟨ys, s', hys⟩ := ih (fun z hz => hstep z (List.mem_cons_of_mem x hz)) s
      refine ⟨y :: ys, s', ?_⟩
      rw [threadThrough, hy]
      dsimp only
      rw [hys]

namespace Grammar
variable {σ : Type} {c : Chooser σ} {g : Grammar} {maxDepth : ℕ}

/-- Some finite derivation has this symbol at its root. -/
def Productive (g : Grammar) (s : Symbol) : Prop :=
  ∃ d : Derivation, d.ValidFor g ∧ d.root = s

theorem symbolHeight?_heights_eq_none_iff {s : Symbol} :
    g.symbolHeight? g.heights s = none ↔ ¬g.Productive s := by
  constructor
  · intro hnone hprod
    obtain ⟨d, hd, rfl⟩ := hprod
    obtain ⟨n, hn⟩ := exists_leastHeight hd
    rw [symbolHeight?_heights_eq_some_iff.mpr hn] at hnone
    cases hnone
  · intro hprod
    cases hheight : g.symbolHeight? g.heights s with
    | none => rfl
    | some n =>
        obtain ⟨d, hd, hroot, _⟩ := (symbolHeight?_heights_eq_some_iff.mp hheight).exists_derivation
        exact absurd ⟨d, hd, hroot⟩ hprod

/-- A non-terminal with a height has a rule that attains it, so something is always on offer. -/
theorem exists_mem_candidates {s : Symbol} {best : ℕ} (hs : g.isNonTerminal s = true)
    (hbest : g.symbolHeight? g.heights s = some best) (maxDepth depth : ℕ) :
    ∃ r, r ∈ g.candidates g.heights maxDepth depth s best := by
  obtain ⟨r, hr, hrule⟩ := exists_rule_of_symbolHeight? hs hbest
  obtain ⟨hmem, hlhs⟩ := mem_rulesFor.mp hr
  exact ⟨r, mem_candidates.mpr ⟨hmem, hlhs, best, hrule, Or.inr rfl⟩⟩

/-- A symbol with a height is expanded, whatever is chosen. -/
theorem exists_expand_eq_ok (c : Chooser σ) (maxDepth depth : ℕ) {s : Symbol} {best : ℕ}
    (hbest : g.symbolHeight? g.heights s = some best) (state : σ) :
    ∃ d state', expand c g g.heights maxDepth s depth state = .ok (d, state') := by
  by_cases hnt : g.isNonTerminal s = true
  · obtain ⟨r₀, hr₀⟩ := exists_mem_candidates hnt hbest maxDepth depth
    have hpos : 0 < (g.candidates g.heights maxDepth depth s best).length :=
      List.length_pos_of_mem hr₀
    obtain ⟨i, state₁, hpick⟩ : ∃ i state₁, c.pick _ hpos state = (i, state₁) := ⟨_, _, rfl⟩
    obtain ⟨r, hr⟩ : ∃ r, (g.candidates g.heights maxDepth depth s best)[i] = r := ⟨_, rfl⟩
    have hmem : r ∈ g.candidates g.heights maxDepth depth s best := hr ▸ List.getElem_mem i.2
    obtain ⟨_, _, n, hrule, _⟩ := mem_candidates.mp hmem
    -- The symbols below a rule have heights, and the measure of `expand` goes down to them.
    have hstep : ∀ x, x ∈ r.rhs → ∀ st, ∃ d st',
        expand c g g.heights maxDepth x (depth + 1) st = .ok (d, st') := by
      intro x hx st
      obtain ⟨k, hk, _⟩ := symbolHeight?_lt_ruleHeight? hrule hx
      exact exists_expand_eq_ok c maxDepth (depth + 1) hk st
    obtain ⟨children, state₂, hthread⟩ := threadThrough_total hstep state₁
    refine ⟨.node s children, state₂, ?_⟩
    rw [expand_nonTerminal hnt hbest hpos hpick hr, hthread]
    rfl
  · exact ⟨.terminal s, state, expand_terminal (by simpa using hnt) state⟩
termination_by (maxDepth - depth, (g.symbolHeight? g.heights s).getD 0)
decreasing_by exact candidates_decrease hbest hmem hx

/-! ### The three outcomes -/

theorem generateFrom_undefined {start : Symbol} (hstart : g.isNonTerminal start = false)
    (state : σ) : generateFrom c g start maxDepth state =
      .error (.undefinedNonTerminal start.name) := by
  rw [generateFrom, deriveFrom, hstart]
  rfl

theorem generateFrom_unproductive {start : Symbol} (hstart : g.isNonTerminal start = true)
    (hnone : ¬g.Productive start) (state : σ) :
    generateFrom c g start maxDepth state = .error (.unproductive start.name) := by
  have hheight := symbolHeight?_heights_eq_none_iff.mpr hnone
  rw [generateFrom, deriveFrom, if_pos hstart, expand_unproductive hstart hheight]
  rfl

theorem exists_generateFrom_eq_ok (c : Chooser σ) (maxDepth : ℕ) {start : Symbol}
    (hstart : g.isNonTerminal start = true) (hprod : g.Productive start) (state : σ) :
    ∃ d : Derivation, d.ValidFor g ∧ d.root = start ∧
      ∃ state', generateFrom c g start maxDepth state = .ok (d.word, state') := by
  obtain ⟨d₀, hd₀, rfl⟩ := hprod
  obtain ⟨n, hn⟩ := exists_leastHeight hd₀
  have hheight := symbolHeight?_heights_eq_some_iff.mpr hn
  obtain ⟨d, state', hrun⟩ := exists_expand_eq_ok c maxDepth 0 hheight state
  obtain ⟨hroot, hexp⟩ := expandable_of_expand hrun
  refine ⟨d, hexp.validFor, hroot, state', ?_⟩
  rw [generateFrom, deriveFrom, if_pos hstart, hrun]
  rfl

theorem isNonTerminal_eq_false_iff {s : Symbol} :
    g.isNonTerminal s = false ↔ ∀ r ∈ g.rules, r.lhs ≠ s := by
  rw [← Bool.not_eq_true, isNonTerminal_iff]
  push Not
  rfl

/-- Where a choice is made there is something to choose from, and the expansions that follow the
choice succeed, whatever was chosen before them. -/
theorem candidates_ne_nil_and_expanded (c : Chooser σ) {s : Symbol} {best : ℕ}
    (hs : g.isNonTerminal s = true) (hbest : g.symbolHeight? g.heights s = some best)
    (depth : ℕ) : g.candidates g.heights maxDepth depth s best ≠ [] ∧
      ∀ r ∈ g.candidates g.heights maxDepth depth s best, ∀ x ∈ r.rhs, ∀ state, ∃ d state',
        expand c g g.heights maxDepth x (depth + 1) state = .ok (d, state') := by
  constructor
  · obtain ⟨r, hr⟩ := exists_mem_candidates hs hbest maxDepth depth
    exact List.ne_nil_of_mem hr
  · intro r hr x hx state
    obtain ⟨_, _, n, hrule, _⟩ := mem_candidates.mp hr
    obtain ⟨k, hk, _⟩ := symbolHeight?_lt_ruleHeight? hrule hx
    exact exists_expand_eq_ok c maxDepth (depth + 1) hk state

/-- Generation fails in two ways, both decided before the first choice and both about the symbol
it starts from; otherwise it yields the word of a finite derivation. Nothing fails further down. -/
theorem generateFrom_outcome (c : Chooser σ) (g : Grammar) (start : Symbol) (maxDepth : ℕ)
    (state : σ) :
    (generateFrom c g start maxDepth state = .error (.undefinedNonTerminal start.name) ↔
      ∀ r ∈ g.rules, r.lhs ≠ start) ∧
    (generateFrom c g start maxDepth state = .error (.unproductive start.name) ↔
      (∃ r ∈ g.rules, r.lhs = start) ∧ ¬g.Productive start) ∧
    ((∃ r ∈ g.rules, r.lhs = start) → g.Productive start →
      ∃ d : Derivation, d.ValidFor g ∧ d.root = start ∧
        ∃ state', generateFrom c g start maxDepth state = .ok (d.word, state')) ∧
    (∀ fault, generateFrom c g start maxDepth state = .error fault →
      fault = .undefinedNonTerminal start.name ∨ fault = .unproductive start.name) ∧
    ∀ s best depth, g.isNonTerminal s = true → g.symbolHeight? g.heights s = some best →
      g.candidates g.heights maxDepth depth s best ≠ [] ∧
      ∀ r ∈ g.candidates g.heights maxDepth depth s best, ∀ x ∈ r.rhs, ∀ state₁, ∃ d state₂,
        expand c g g.heights maxDepth x (depth + 1) state₁ = .ok (d, state₂) := by
  rw [← isNonTerminal_eq_false_iff, ← isNonTerminal_iff]
  cases hstart : g.isNonTerminal start with
  | false =>
      rw [generateFrom_undefined hstart]
      refine ⟨iff_of_true rfl rfl, by simp, by simp, ?_, ?_⟩
      · intro fault hfault
        exact Or.inl (Except.error.inj hfault).symm
      · intro s best depth hs hbest
        exact candidates_ne_nil_and_expanded c hs hbest depth
  | true =>
      by_cases hprod : g.Productive start
      · obtain ⟨d, hd, hroot, state', hrun⟩ :=
          exists_generateFrom_eq_ok c maxDepth hstart hprod state
        rw [hrun]
        refine ⟨by simp, by simp [hprod], ?_, by simp, ?_⟩
        · intro _ _
          exact ⟨d, hd, hroot, state', rfl⟩
        · intro s best depth hs hbest
          exact candidates_ne_nil_and_expanded c hs hbest depth
      · rw [generateFrom_unproductive hstart hprod]
        refine ⟨by simp, iff_of_true rfl ⟨rfl, hprod⟩, fun _ h => absurd h hprod, ?_, ?_⟩
        · intro fault hfault
          exact Or.inr (Except.error.inj hfault).symm
        · intro s best depth hs hbest
          exact candidates_ne_nil_and_expanded c hs hbest depth

/-- Brackets within brackets, the innermost ones around nothing, and a name for what never ends. -/
def nested : Grammar where
  name := "nested"
  symbols := [⟨"S"⟩, ⟨"("⟩, ⟨")"⟩, ⟨"T"⟩]
  start := ⟨"S"⟩
  rules := [⟨⟨"S"⟩, [⟨"("⟩, ⟨"S"⟩, ⟨")"⟩]⟩, ⟨⟨"S"⟩, []⟩, ⟨⟨"T"⟩, [⟨"T"⟩]⟩]

/-- What stands within the innermost brackets. -/
def hollow : Derivation := .node ⟨"S"⟩ []

theorem validFor_hollow : hollow.ValidFor nested :=
  .node (r := ⟨⟨"S"⟩, []⟩) (by decide) rfl (by simp)

theorem not_productive_endless : ¬nested.Productive ⟨"T"⟩ := by
  intro h
  obtain ⟨d, hd, hroot⟩ := h
  induction hd with
  | @terminal s hs =>
      obtain rfl : s = ⟨"T"⟩ := hroot
      exact absurd hs (by decide)
  | @node r children hr hroots _ ih =>
      simp only [nested, List.mem_cons, List.not_mem_nil, or_false] at hr
      rcases hr with rfl | rfl | rfl
      · simp [Derivation.root] at hroot
      · simp [Derivation.root] at hroot
      · have hbelow : (⟨"T"⟩ : Symbol) ∈ children.map Derivation.root := by
          rw [hroots]
          exact List.mem_singleton_self _
        obtain ⟨child, hchild, hsame⟩ := List.mem_map.mp hbelow
        exact ih child hchild hsame

/-- One grammar for all three: a terminal, the name for what never ends, and the start symbol. -/
theorem generateFrom_outcome_nested :
    let source : RandomSource := { script := [], state := 0 }
    generateFrom RandomSource.chooser nested ⟨"("⟩ 2 source =
      .error (.undefinedNonTerminal "(") ∧
    generateFrom RandomSource.chooser nested ⟨"T"⟩ 2 source = .error (.unproductive "T") ∧
    ∃ word rest, generateFrom RandomSource.chooser nested ⟨"S"⟩ 2 source = .ok (word, rest) := by
  intro source
  have hbracket := generateFrom_outcome RandomSource.chooser nested ⟨"("⟩ 2 source
  have hendless := generateFrom_outcome RandomSource.chooser nested ⟨"T"⟩ 2 source
  have hstart := generateFrom_outcome RandomSource.chooser nested ⟨"S"⟩ 2 source
  refine ⟨hbracket.1.mpr (by decide), ?_, ?_⟩
  · exact hendless.2.1.mpr ⟨by decide, not_productive_endless⟩
  · obtain ⟨d, _, _, rest, hrun⟩ := hstart.2.2.1 (by decide) ⟨hollow, validFor_hollow, rfl⟩
    exact ⟨d.word, rest, hrun⟩

/-! ### Several words -/

/-- Without a derivation from the start symbol not even a first word is generated. -/
theorem exists_generateMany_eq_error (c : Chooser σ) (maxDepth : ℕ)
    (hnone : g.isNonTerminal g.start = false ∨ ¬g.Productive g.start) {count : ℕ}
    (hcount : 0 < count) (state : σ) :
    ∃ fault, g.generateMany c maxDepth count state = .error fault := by
  obtain ⟨count, rfl⟩ := Nat.exists_eq_add_one_of_ne_zero (Nat.ne_of_gt hcount)
  have hfirst : ∃ fault, g.generate c maxDepth state = .error fault := by
    cases hstart : g.isNonTerminal g.start with
    | false => exact ⟨_, generateFrom_undefined hstart state⟩
    | true =>
        have hprod : ¬g.Productive g.start := hnone.resolve_left (by simp [hstart])
        exact ⟨_, generateFrom_unproductive hstart hprod state⟩
  obtain ⟨fault, hfault⟩ := hfirst
  exact ⟨fault, by rw [generateMany, hfault]⟩

/-- As many words of the language are generated as are asked for. -/
theorem exists_generateMany_eq_ok (c : Chooser σ) (maxDepth : ℕ) {count : ℕ}
    (h : 0 < count → g.isNonTerminal g.start = true ∧ g.Productive g.start) (state : σ) :
    ∃ words state', g.generateMany c maxDepth count state = .ok (words, state') ∧
      words.length = count ∧ ∀ word ∈ words, g.Generates word := by
  induction count generalizing state with
  | zero => exact ⟨[], state, rfl, rfl, by simp⟩
  | succ count ih =>
      obtain ⟨hstart, hprod⟩ := h (Nat.succ_pos count)
      obtain ⟨d, hd, hroot, state₁, hfirst⟩ :=
        exists_generateFrom_eq_ok c maxDepth hstart hprod state
      obtain ⟨words, state₂, hrest, hlength, hwords⟩ := ih (fun _ => ⟨hstart, hprod⟩) state₁
      have hword : g.Generates d.word :=
        generates_iff_exists_derivation.mpr ⟨hstart, d, hd, hroot, rfl⟩
      refine ⟨d.word :: words, state₂, ?_, by rw [List.length_cons, hlength],
        List.forall_mem_cons.mpr ⟨hword, hwords⟩⟩
      rw [generateMany, generate, hfirst]
      dsimp only
      rw [hrest]

end Grammar

end ChartParser
