import ChartParser.Proofs.NormalFormRules
import ChartParser.Proofs.ParseOutcome
import ChartParser.Proofs.RewritingForests

/-!
# The language that is accepted

The chart reads terminals off the rules by their place, rewriting by whether
they head a rule. In normal form the two readings agree: below a one-symbol
rule stands a terminal and below a two-symbol rule stand two non-terminals. So
parse trees are derivations, written without the leaves' kind, and the chart
accepts the language of the grammar.
-/
namespace ChartParser

namespace Tree

def toDerivation : Tree → Derivation
  | leaf a => .terminal a
  | unary a t => .node a [t.toDerivation]
  | binary a l r => .node a [l.toDerivation, r.toDerivation]

@[simp] theorem root_toDerivation (t : Tree) : t.toDerivation.root = t.label := by
  cases t <;> rfl

@[simp] theorem word_toDerivation (t : Tree) : t.toDerivation.word = t.leaves := by
  induction t with
  | leaf a => rfl
  | unary a t ih => simp only [toDerivation, Derivation.word, Derivation.wordOf, ih, leaves,
      List.append_nil]
  | binary a l r ihl ihr => simp only [toDerivation, Derivation.word, Derivation.wordOf, ihl, ihr,
      leaves, List.append_nil]

theorem ValidFor.isNonTerminal_label {g : Grammar} {t : Tree} (h : t.ValidFor g) :
    g.isNonTerminal t.label = true := by
  cases h with
  | unary hrule => exact Grammar.isNonTerminal_iff.mpr ⟨_, hrule, rfl⟩
  | binary hrule _ _ => exact Grammar.isNonTerminal_iff.mpr ⟨_, hrule, rfl⟩

theorem ValidFor.toDerivation {g : Grammar} (hg : g.firstViolation? = none) {t : Tree}
    (h : t.ValidFor g) : t.toDerivation.ValidFor g := by
  induction h with
  | @unary a b hrule =>
      rcases Grammar.normalRule_of_firstViolation?_eq_none hg hrule with
        ⟨c, hc, hterm⟩ | ⟨c, d, hcd, _⟩
      · obtain rfl : b = c := by simpa using hc
        apply Derivation.ValidFor.node hrule rfl
        intro d hd
        rw [List.mem_singleton.mp hd]
        exact .terminal hterm
      · simp at hcd
  | @binary a l r hrule _ _ ihl ihr =>
      apply Derivation.ValidFor.node hrule
      · simp only [List.map_cons, root_toDerivation, List.map_nil]
      · intro d hd
        rcases List.mem_cons.mp hd with rfl | hd
        · exact ihl
        · exact List.mem_singleton.mp hd ▸ ihr

end Tree

theorem Derivation.ValidFor.eq_terminal {g : Grammar} {d : Derivation} (h : d.ValidFor g)
    (hroot : g.isNonTerminal d.root = false) : d = .terminal d.root := by
  cases h with
  | terminal _ => rfl
  | @node r children hr _ _ =>
      have htrue := Grammar.isNonTerminal_iff.mpr ⟨r, hr, rfl⟩
      rw [root, htrue] at hroot
      cases hroot

/-- In normal form every derivation from a non-terminal is a parse tree. -/
theorem Derivation.ValidFor.exists_tree {g : Grammar} (hg : g.firstViolation? = none)
    {d : Derivation} (h : d.ValidFor g) (hroot : g.isNonTerminal d.root = true) :
    ∃ t : Tree, t.ValidFor g ∧ t.toDerivation = d := by
  induction h with
  | terminal hs =>
      rw [root, hs] at hroot
      cases hroot
  | @node r children hr hroots hvalid ih =>
      obtain ⟨lhs, rhs⟩ := r
      dsimp only at hroots ⊢
      rcases Grammar.normalRule_of_firstViolation?_eq_none hg hr with
        ⟨a, ha, hterm⟩ | ⟨b, c, hbc, hb, hc⟩
      · dsimp only at ha
        subst ha
        obtain ⟨d, rfl, rfl⟩ := List.map_eq_singleton_iff.mp hroots
        have hleaf := (hvalid d List.mem_cons_self).eq_terminal hterm
        refine ⟨.unary lhs (.leaf d.root), .unary hr, ?_⟩
        rw [Tree.toDerivation, Tree.toDerivation, ← hleaf]
      · dsimp only at hbc
        subst hbc
        obtain ⟨d, ds, rfl, rfl, hds⟩ := List.map_eq_cons_iff.mp hroots
        obtain ⟨e, rfl, rfl⟩ := List.map_eq_singleton_iff.mp hds
        obtain ⟨l, hl, rfl⟩ := ih d (by simp) hb
        obtain ⟨r, hr', rfl⟩ := ih e (by simp) hc
        rw [Tree.root_toDerivation, Tree.root_toDerivation] at hr
        exact ⟨.binary lhs l r, .binary hr hl hr', rfl⟩

namespace Grammar

/-- Parse trees and derivations of a grammar in normal form have the same words. -/
theorem exists_tree_iff_exists_derivation {g : Grammar} (hg : g.firstViolation? = none)
    {a : Symbol} {word : List String} :
    (∃ t : Tree, t.ValidFor g ∧ t.label = a ∧ t.leaves = word) ↔
      g.isNonTerminal a = true ∧ ∃ d : Derivation, d.ValidFor g ∧ d.root = a ∧ d.word = word := by
  constructor
  · intro h
    obtain ⟨t, ht, rfl, rfl⟩ := h
    exact ⟨ht.isNonTerminal_label, t.toDerivation, ht.toDerivation hg, t.root_toDerivation,
      t.word_toDerivation⟩
  · intro h
    obtain ⟨ha, d, hd, rfl, rfl⟩ := h
    obtain ⟨t, ht, rfl⟩ := hd.exists_tree hg ha
    exact ⟨t, ht, t.root_toDerivation.symm, t.word_toDerivation.symm⟩

theorem parse_accepted_iff_exists_derivation {g : Grammar} (hg : g.firstViolation? = none)
    (word : List String) : ∃ o, g.parse word = .ok o ∧ (o.accepted = true ↔
      g.isNonTerminal g.start = true ∧
        ∃ d : Derivation, d.ValidFor g ∧ d.root = g.start ∧ d.word = word) := by
  obtain ⟨o, ho, hacc⟩ := parse_accepted_iff_exists_tree hg word
  exact ⟨o, ho, hacc.trans (exists_tree_iff_exists_derivation hg)⟩

/-- Any word may be asked for, the empty one and words with names of non-terminals too; these
are refused like other words outside the language. -/
theorem parse_accepted_iff_generates {g : Grammar} (hg : g.firstViolation? = none)
    (word : List String) : ∃ o, g.parse word = .ok o ∧ (o.accepted = true ↔ g.Generates word) := by
  obtain ⟨o, ho, hacc⟩ := parse_accepted_iff_exists_derivation hg word
  exact ⟨o, ho, hacc.trans generates_iff_exists_derivation.symm⟩

/-- The run rewrites now on the right and now on the left. The start symbol by itself, which is
there before the first step, is refused. -/
theorem parse_accepted_iff_generates_operators : operators.firstViolation? = none ∧
    (∃ o, operators.parse ["a", "c", "a"] = .ok o ∧ o.accepted = true) ∧
    ∃ o, operators.parse ["S"] = .ok o ∧ o.accepted = false := by
  have hnormal : operators.firstViolation? = none := by decide
  obtain ⟨o, ho, hacc⟩ := parse_accepted_iff_generates hnormal ["a", "c", "a"]
  obtain ⟨o', ho', hacc'⟩ := parse_accepted_iff_generates hnormal ["S"]
  refine ⟨hnormal, ⟨o, ho, hacc.mpr ⟨by decide, ?_⟩⟩, ⟨o', ho', ?_⟩⟩
  · have h₁ : operators.Rewrites [⟨"S"⟩] [⟨"S"⟩, ⟨"A"⟩] :=
      .step (r := ⟨⟨"S"⟩, [⟨"S"⟩, ⟨"A"⟩]⟩) [] [] (by decide)
    have h₂ : operators.Rewrites [⟨"S"⟩, ⟨"A"⟩] [⟨"S"⟩, ⟨"C"⟩, ⟨"S"⟩] :=
      .step (r := ⟨⟨"A"⟩, [⟨"C"⟩, ⟨"S"⟩]⟩) [⟨"S"⟩] [] (by decide)
    have h₃ : operators.Rewrites [⟨"S"⟩, ⟨"C"⟩, ⟨"S"⟩] [⟨"S"⟩, ⟨"C"⟩, ⟨"a"⟩] :=
      .step (r := ⟨⟨"S"⟩, [⟨"a"⟩]⟩) [⟨"S"⟩, ⟨"C"⟩] [] (by decide)
    have h₄ : operators.Rewrites [⟨"S"⟩, ⟨"C"⟩, ⟨"a"⟩] [⟨"a"⟩, ⟨"C"⟩, ⟨"a"⟩] :=
      .step (r := ⟨⟨"S"⟩, [⟨"a"⟩]⟩) [] [⟨"C"⟩, ⟨"a"⟩] (by decide)
    have h₅ : operators.Rewrites [⟨"a"⟩, ⟨"C"⟩, ⟨"a"⟩] [⟨"a"⟩, ⟨"c"⟩, ⟨"a"⟩] :=
      .step (r := ⟨⟨"C"⟩, [⟨"c"⟩]⟩) [⟨"a"⟩] [⟨"a"⟩] (by decide)
    exact ((((Relation.TransGen.single h₁).tail h₂).tail h₃).tail h₄).tail h₅
  · rw [← Bool.not_eq_true, hacc']
    intro h
    exact absurd (h.1 "S" List.mem_cons_self) (by decide)

end Grammar

end ChartParser
