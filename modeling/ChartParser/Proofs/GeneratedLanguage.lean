import ChartParser.Proofs.AcceptedLanguage
import ChartParser.Proofs.ExpandedDerivations

/-!
# The language that is generated

Generation and parsing share nothing but the grammar. They meet in the
derivations from the start symbol: generation yields the words of all of them,
given the right choices and a depth limit that is not below their height, and
never another word, whatever the choices and the limit. For the first half the
choices are written down beforehand, one number for each.
-/
namespace ChartParser

/-- Follows a script, a number that is too great being taken round. After the script the first
alternative is chosen. -/
def Chooser.scripted : Chooser (List ℕ) where
  pick n hn script :=
    match script with
    | [] => (⟨0, hn⟩, [])
    | i :: rest => (⟨i % n, Nat.mod_lt i hn⟩, rest)

theorem Chooser.free_scripted : Chooser.scripted.Free := by
  intro n hn i rest
  refine ⟨i :: rest, ?_⟩
  simp only [scripted, Nat.mod_eq_of_lt i.isLt]

namespace Grammar
variable {σ : Type} {g : Grammar}

theorem generate_eq_ok_iff {c : Chooser σ} {maxDepth : ℕ} {state state' : σ} {word : List String} :
    g.generate c maxDepth state = .ok (word, state') ↔ g.isNonTerminal g.start = true ∧
      ∃ d, expand c g g.heights maxDepth g.start 0 state = .ok (d, state') ∧ d.word = word := by
  rw [generate, generateFrom, deriveFrom]
  split_ifs with hstart
  · cases expand c g g.heights maxDepth g.start 0 state with
    | error fault => simp [Except.map, hstart]
    | ok result =>
        obtain ⟨d, s⟩ := result
        simp [Except.map, hstart, and_comm]
  · simp [Except.map, hstart]

/-- Whatever is chosen, a generated word has a derivation from the start symbol. -/
theorem exists_derivation_of_generate {c : Chooser σ} {maxDepth : ℕ} {state state' : σ}
    {word : List String} (hrun : g.generate c maxDepth state = .ok (word, state')) :
    g.isNonTerminal g.start = true ∧
      ∃ d : Derivation, d.ValidFor g ∧ d.root = g.start ∧ d.word = word := by
  obtain ⟨hstart, d, hd, hword⟩ := generate_eq_ok_iff.mp hrun
  obtain ⟨hroot, hexp⟩ := expandable_of_expand hd
  exact ⟨hstart, d, hexp.validFor, hroot, hword⟩

/-- The height of a derivation is depth enough to generate its word. -/
theorem exists_generate {c : Chooser σ} (hc : c.Free) (hstart : g.isNonTerminal g.start = true)
    {d : Derivation} (hd : d.ValidFor g) (hroot : d.root = g.start) (rest : σ) :
    ∃ state, g.generate c d.height state = .ok (d.word, rest) := by
  have hexp : g.Expandable g.heights d.height 0 d := expandable_heights hd (by omega)
  obtain ⟨state, hrun⟩ := hexp.exists_expand hc rest
  rw [hroot] at hrun
  exact ⟨state, generate_eq_ok_iff.mpr ⟨hstart, d, hrun, rfl⟩⟩

/-- The words that are accepted are the words that some choices generate under some depth limit,
and every word that any chooser comes up with is among them. -/
theorem parse_accepted_iff_generated (hg : g.firstViolation? = none) (word : List String) :
    (∃ o, g.parse word = .ok o ∧ (o.accepted = true ↔ ∃ maxDepth choices rest,
      g.generate Chooser.scripted maxDepth choices = .ok (word, rest))) ∧
    ∀ (σ : Type) (c : Chooser σ) (maxDepth : ℕ) (state state' : σ),
      g.generate c maxDepth state = .ok (word, state') →
        ∃ o, g.parse word = .ok o ∧ o.accepted = true := by
  obtain ⟨o, ho, hacc⟩ := parse_accepted_iff_exists_derivation hg word
  constructor
  · refine ⟨o, ho, hacc.trans ?_⟩
    constructor
    · intro h
      obtain ⟨hstart, d, hd, hroot, rfl⟩ := h
      obtain ⟨choices, hrun⟩ := exists_generate Chooser.free_scripted hstart hd hroot []
      exact ⟨d.height, choices, [], hrun⟩
    · intro h
      obtain ⟨_, _, _, hrun⟩ := h
      exact exists_derivation_of_generate hrun
  · intro σ c maxDepth state state' hrun
    exact ⟨o, ho, hacc.mpr (exists_derivation_of_generate hrun)⟩

/-- There are choices for `a c a`, and the word that they lead to is accepted. -/
theorem parse_accepted_iff_generated_operators : operators.firstViolation? = none ∧
    ∃ maxDepth choices rest,
      operators.generate Chooser.scripted maxDepth choices = .ok (["a", "c", "a"], rest) ∧
      ∃ o, operators.parse ["a", "c", "a"] = .ok o ∧ o.accepted = true := by
  have hnormal : operators.firstViolation? = none := by decide
  have htree : (joined "C" "c" operand operand).ValidFor operators :=
    validFor_joined (by decide) (by decide) validFor_operand validFor_operand rfl rfl
  obtain ⟨⟨o, ho, hiff⟩, hevery⟩ := parse_accepted_iff_generated hnormal ["a", "c", "a"]
  obtain ⟨o', ho', hacc⟩ := parse_accepted_iff_exists_tree hnormal ["a", "c", "a"]
  obtain rfl : o' = o := by
    rw [ho, Except.ok.injEq] at ho'
    exact ho'.symm
  obtain ⟨maxDepth, choices, rest, hrun⟩ := hiff.mp (hacc.mpr ⟨_, htree, rfl, rfl⟩)
  exact ⟨hnormal, maxDepth, choices, rest, hrun, hevery _ _ _ _ _ hrun⟩

end Grammar

end ChartParser
