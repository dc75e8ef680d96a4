import ChartParser.Derivation
import ChartParser.Grammar.Rewriting
import Mathlib.Logic.Relation

/-!
# Rewriting and derivations

Steps at different places of a row of symbols may come in any order, and a
derivation forgets the order. In one direction a derivation is unrolled into a
run, one node after the other. In the other a run is read backwards: the row
before a step has the forest of the row after it, with the trees of the
rewritten part put under one node. Rules may have any number of symbols on
their right.
-/
namespace ChartParser

namespace Grammar

abbrev Reaches (g : Grammar) : List Symbol → List Symbol → Prop :=
  Relation.ReflTransGen g.Rewrites

theorem Reaches.surround {g : Grammar} {u v : List Symbol} (h : g.Reaches u v)
    (before after : List Symbol) : g.Reaches (before ++ u ++ after) (before ++ v ++ after) := by
  induction h with
  | refl => exact .refl
  | tail _ hstep ih => exact ih.tail (hstep.append before after)

theorem Reaches.append {g : Grammar} {u v u' v' : List Symbol} (h : g.Reaches u v)
    (h' : g.Reaches u' v') : g.Reaches (u ++ u') (v ++ v') := by
  have hleft := h.surround [] u'
  have hright := h'.surround v []
  simp only [List.nil_append, List.append_nil] at hleft hright
  exact hleft.trans hright

theorem rewrites_rule {g : Grammar} {r : Rule} (hr : r ∈ g.rules) :
    g.Rewrites [r.lhs] r.rhs := by
  simpa using Rewrites.step [] [] hr

end Grammar

namespace Derivation

theorem reaches_wordOf {g : Grammar} {ds : List Derivation}
    (h : ∀ d ∈ ds, g.Reaches [d.root] (d.word.map Symbol.mk)) :
    g.Reaches (ds.map root) ((wordOf ds).map Symbol.mk) := by
  induction ds with
  | nil => exact .refl
  | cons d ds ih =>
      rw [List.map_cons, wordOf, List.map_append]
      have hhead := h d List.mem_cons_self
      have htail := ih fun e he => h e (List.mem_cons_of_mem d he)
      exact hhead.append htail

theorem ValidFor.reaches {g : Grammar} {d : Derivation} (h : d.ValidFor g) :
    g.Reaches [d.root] (d.word.map Symbol.mk) := by
  induction h with
  | terminal _ => exact .refl
  | @node r children hr hroots _ ih =>
      have hforest := reaches_wordOf ih
      rw [hroots] at hforest
      exact hforest.head (Grammar.rewrites_rule hr)

/-- A derivation that starts with a non-terminal takes at least one step. -/
theorem ValidFor.derives {g : Grammar} {d : Derivation} (h : d.ValidFor g)
    (hroot : g.isNonTerminal d.root = true) :
    g.Derives [d.root] (d.word.map Symbol.mk) := by
  cases h with
  | terminal hs =>
      rw [root, hs] at hroot
      cases hroot
  | @node r children hr hroots hvalid =>
      have hforest := reaches_wordOf fun d hd => (hvalid d hd).reaches
      rw [hroots] at hforest
      exact Relation.TransGen.head' (Grammar.rewrites_rule hr) hforest

theorem ValidFor.isNonTerminal_eq_false {g : Grammar} {d : Derivation} (h : d.ValidFor g) :
    ∀ token ∈ d.word, g.isNonTerminal ⟨token⟩ = false := by
  induction h with
  | terminal hs =>
      intro token htoken
      rw [word, List.mem_singleton] at htoken
      exact htoken ▸ hs
  | node _ _ _ ih =>
      intro token htoken
      rw [word, wordOf_eq_flatMap, List.mem_flatMap] at htoken
      obtain ⟨d, hd, htoken⟩ := htoken
      exact ih d hd token htoken

/-- The row of trees that a run from the row of their roots to a word builds. -/
theorem exists_forest {g : Grammar} {form : List Symbol} {w : List String}
    (hw : ∀ token ∈ w, g.isNonTerminal ⟨token⟩ = false) (h : g.Reaches form (w.map Symbol.mk)) :
    ∃ ds : List Derivation, ds.map root = form ∧ (∀ d ∈ ds, d.ValidFor g) ∧ wordOf ds = w := by
  induction h using Relation.ReflTransGen.head_induction_on with
  | refl =>
      refine ⟨w.map fun token => .terminal ⟨token⟩, ?_, ?_, ?_⟩
      · rw [List.map_map]
        rfl
      · intro d hd
        obtain ⟨token, htoken, rfl⟩ := List.mem_map.mp hd
        exact .terminal (hw token htoken)
      · rw [wordOf_eq_flatMap, List.flatMap_map]
        exact List.flatMap_singleton' w
  | head hstep _ ih =>
      obtain ⟨ds, hroots, hvalid, hword⟩ := ih
      cases hstep with
      | @step r before after hr =>
          -- The forest after the step is cut where the right side of the rule stands in it.
          obtain ⟨ds, right, rfl, hroots, hright⟩ := List.map_eq_append_iff.mp hroots
          obtain ⟨left, middle, rfl, hleft, hmiddle⟩ := List.map_eq_append_iff.mp hroots
          refine ⟨left ++ .node r.lhs middle :: right, ?_, ?_, ?_⟩
          · rw [List.map_append, List.map_cons, hleft, hright, root]
          · intro d hd
            rcases List.mem_append.mp hd with hd | hd
            · exact hvalid d (by simp [hd])
            · rcases List.mem_cons.mp hd with rfl | hd
              · exact .node hr hmiddle fun e he => hvalid e (by simp [he])
              · exact hvalid d (by simp [hd])
          · rw [← hword]
            simp only [wordOf_eq_flatMap, List.flatMap_append, List.flatMap_cons, word,
              List.append_assoc]

end Derivation

/-- The language of a grammar, by rewriting and by derivations. -/
theorem Grammar.generates_iff_exists_derivation {g : Grammar} {w : List String} :
    g.Generates w ↔ g.isNonTerminal g.start = true ∧
      ∃ d : Derivation, d.ValidFor g ∧ d.root = g.start ∧ d.word = w := by
  constructor
  · intro h
    obtain ⟨hw, hderives⟩ := h
    constructor
    · obtain ⟨form, hstep, _⟩ := Relation.TransGen.head'_iff.mp hderives
      generalize hstart : [g.start] = first at hstep
      cases hstep with
      | @step r before after hr =>
          have hhead : r.lhs ∈ [g.start] := by
            rw [hstart]
            simp
          exact isNonTerminal_iff.mpr ⟨r, hr, List.mem_singleton.mp hhead⟩
    · obtain ⟨ds, hroots, hvalid, hword⟩ := Derivation.exists_forest hw hderives.to_reflTransGen
      obtain ⟨d, rfl, hroot⟩ := List.map_eq_singleton_iff.mp hroots
      refine ⟨d, hvalid d List.mem_cons_self, hroot, ?_⟩
      rw [← hword, Derivation.wordOf, Derivation.wordOf, List.append_nil]
  · intro h
    obtain ⟨hstart, d, hd, hroot, rfl⟩ := h
    refine ⟨hd.isNonTerminal_eq_false, ?_⟩
    rw [← hroot] at hstart ⊢
    exact hd.derives hstart

end ChartParser
