import ChartParser.Chart.Count
import ChartParser.Proofs.ParseOutcome

/-!
# Counting trees

The naive count adds up over rules and cuts and multiplies at a cut. The trees
of a word fall apart in the same way, and no two of the parts meet: the labels
of a root and its children are the rule that was used, and the number of leaves
on the left is the cut. A repeated rule would count twice but give its trees
only once, so the rules have to differ; of their form nothing is asked.
-/
namespace ChartParser

theorem Tree.ValidFor.rule_mem {g : Grammar} {t : Tree} (h : t.ValidFor g) :
    ⟨t.label, t.children.map Tree.label⟩ ∈ g.rules := by
  cases h with
  | unary hrule => exact hrule
  | binary hrule _ _ => exact hrule

namespace Grammar

/-- The derivation trees of a word from a symbol, as the filled table lists them. -/
def derivationTrees (g : Grammar) (a : Symbol) (word : List String) : List Tree :=
  ((g.wordTable word).treesAt ⟨0, word.length⟩).filter (·.label == a)

theorem nodup_derivationTrees (g : Grammar) (a : Symbol) (word : List String) :
    (g.derivationTrees a word).Nodup :=
  ((coherent_wordTable g word).nodup_treesAt _).filter _

theorem mem_derivationTrees {g : Grammar} {a : Symbol} {word : List String} {t : Tree} :
    t ∈ g.derivationTrees a word ↔ (t.ValidFor g ∧ t.leaves = word) ∧ t.label = a := by
  rw [derivationTrees, List.mem_filter, mem_treesAt_whole, beq_iff_eq]

theorem parses_wordTable (g : Grammar) (word : List String) :
    (g.wordTable word).parses g = g.derivationTrees g.start word := by
  rw [derivationTrees, Table.parses, Table.top?, size_wordTable, Table.treesAt]
  cases (g.wordTable word).cell? ⟨0, word.length⟩ with
  | none => rfl
  | some c => rfl

/-! ### The trees over a cut -/

def branches (a : Symbol) (left right : List Tree) : List Tree :=
  left.flatMap fun l => right.map fun r => .binary a l r

theorem mem_branches {a : Symbol} {left right : List Tree} {t : Tree} :
    t ∈ branches a left right ↔ ∃ l ∈ left, ∃ r ∈ right, .binary a l r = t := by
  simp only [branches, List.mem_flatMap, List.mem_map]

theorem length_branches (a : Symbol) (left right : List Tree) :
    (branches a left right).length = left.length * right.length := by
  simp only [branches, List.length_flatMap, List.length_map, List.map_const',
    List.sum_replicate_nat]

theorem nodup_branches (a : Symbol) {left right : List Tree} (hl : left.Nodup)
    (hr : right.Nodup) : (branches a left right).Nodup := by
  rw [branches, List.nodup_flatMap]
  constructor
  · intro l _
    apply hr.map
    intro r r' heq
    exact (Tree.binary.inj heq).2.2
  · apply hl.imp
    intro l l' hne t ht ht'
    obtain ⟨r, _, rfl⟩ := List.mem_map.mp ht
    obtain ⟨r', _, heq⟩ := List.mem_map.mp ht'
    exact hne (Tree.binary.inj heq).2.1.symm

/-! ### The trees that use a rule first -/

def ruleTrees (g : Grammar) (word : List String) (r : Rule) : List Tree :=
  match r.rhs with
  | [b] => if word = [b.name] then [.unary r.lhs (.leaf b)] else []
  | [b, c] => (List.range' 1 (word.length - 1)).flatMap fun k =>
      branches r.lhs (g.derivationTrees b (word.take k)) (g.derivationTrees c (word.drop k))
  | _ => []

theorem mem_ruleTrees {g : Grammar} {word : List String} {r : Rule} (hr : r ∈ g.rules)
    {t : Tree} : t ∈ g.ruleTrees word r ↔
      (t.ValidFor g ∧ t.leaves = word) ∧ (⟨t.label, t.children.map Tree.label⟩ : Rule) = r := by
  obtain ⟨a, rhs⟩ := r
  constructor
  · intro ht
    unfold ruleTrees at ht
    split at ht
    · rename_i b hrhs
      dsimp only at hrhs ht
      subst hrhs
      split_ifs at ht with hword
      · obtain rfl := List.mem_singleton.mp ht
        exact ⟨⟨.unary hr, hword.symm⟩, rfl⟩
      · simp at ht
    · rename_i b c hrhs
      dsimp only at hrhs ht
      subst hrhs
      obtain ⟨k, _, ht⟩ := List.mem_flatMap.mp ht
      obtain ⟨l, hl, r, hr', rfl⟩ := mem_branches.mp ht
      obtain ⟨⟨hvalid, hleaves⟩, rfl⟩ := mem_derivationTrees.mp hl
      obtain ⟨⟨hvalid', hleaves'⟩, rfl⟩ := mem_derivationTrees.mp hr'
      refine ⟨⟨.binary hr hvalid hvalid', ?_⟩, rfl⟩
      rw [Tree.leaves, hleaves, hleaves', List.take_append_drop]
    · simp at ht
  · intro ht
    obtain ⟨⟨hvalid, rfl⟩, heq⟩ := ht
    obtain ⟨rfl, rfl⟩ := Rule.mk.inj heq
    cases hvalid with
    | @unary a b _ => simp [ruleTrees, Tree.children, Tree.label, Tree.leaves]
    | @binary a l r _ hvalid hvalid' =>
        have hlpos := l.length_leaves_pos
        have hrpos := r.length_leaves_pos
        apply List.mem_flatMap.mpr
        refine ⟨l.leaves.length, ?_, mem_branches.mpr ⟨l, ?_, r, ?_, rfl⟩⟩
        · rw [List.mem_range'_1, Tree.leaves, List.length_append]
          omega
        · exact mem_derivationTrees.mpr ⟨⟨hvalid, (List.take_left' rfl).symm⟩, rfl⟩
        · exact mem_derivationTrees.mpr ⟨⟨hvalid', (List.drop_left' rfl).symm⟩, rfl⟩

theorem length_ruleTrees_single (g : Grammar) (word : List String) (a b : Symbol) :
    (g.ruleTrees word ⟨a, [b]⟩).length = if word = [b.name] then 1 else 0 := by
  dsimp only [ruleTrees]
  split_ifs
  · rfl
  · rfl

theorem length_ruleTrees_pair (g : Grammar) (word : List String) (a b c : Symbol) :
    (g.ruleTrees word ⟨a, [b, c]⟩).length = ((List.range' 1 (word.length - 1)).map fun k =>
      (g.derivationTrees b (word.take k)).length *
        (g.derivationTrees c (word.drop k)).length).sum := by
  simp only [ruleTrees, List.length_flatMap, length_branches]

theorem nodup_ruleTrees (g : Grammar) (word : List String) (r : Rule) :
    (g.ruleTrees word r).Nodup := by
  unfold ruleTrees
  split
  · split_ifs
    · exact List.nodup_singleton _
    · exact List.nodup_nil
  · rename_i b c _
    rw [List.nodup_flatMap]
    constructor
    · intro k _
      exact nodup_branches _ (nodup_derivationTrees g b _) (nodup_derivationTrees g c _)
    · -- Two cuts give left subtrees with different numbers of leaves.
      apply (List.pairwise_lt_range' (s := 1) (n := word.length - 1)).imp_of_mem
      intro k k' hk hk' hlt t ht ht'
      obtain ⟨l, hl, _, _, rfl⟩ := mem_branches.mp ht
      obtain ⟨l', hl', _, _, heq⟩ := mem_branches.mp ht'
      obtain rfl := (Tree.binary.inj heq).2.1
      have hleaves := (mem_derivationTrees.mp hl).1.2
      have hleaves' := (mem_derivationTrees.mp hl').1.2
      have hlength := congrArg List.length (hleaves.symm.trans hleaves')
      rw [List.mem_range'_1] at hk hk'
      rw [List.length_take, List.length_take] at hlength
      omega
  · exact List.nodup_nil

theorem mem_flatMap_ruleTrees {g : Grammar} {a : Symbol} {word : List String} {t : Tree} :
    t ∈ (g.rulesFor a).flatMap (g.ruleTrees word) ↔
      (t.ValidFor g ∧ t.leaves = word) ∧ t.label = a := by
  rw [List.mem_flatMap]
  constructor
  · intro h
    obtain ⟨r, hfor, ht⟩ := h
    obtain ⟨hr, rfl⟩ := mem_rulesFor.mp hfor
    obtain ⟨hvalid, rfl⟩ := (mem_ruleTrees hr).mp ht
    exact ⟨hvalid, rfl⟩
  · intro h
    obtain ⟨hvalid, rfl⟩ := h
    have hr := hvalid.1.rule_mem
    exact ⟨_, mem_rulesFor.mpr ⟨hr, rfl⟩, (mem_ruleTrees hr).mpr ⟨hvalid, rfl⟩⟩

theorem nodup_flatMap_ruleTrees {g : Grammar} (hrules : g.rules.Nodup) (a : Symbol)
    (word : List String) : ((g.rulesFor a).flatMap (g.ruleTrees word)).Nodup := by
  rw [List.nodup_flatMap]
  constructor
  · intro r _
    exact nodup_ruleTrees g word r
  · apply (hrules.filter _).imp_of_mem
    intro r r' hr hr' hne t ht ht'
    have heq := ((mem_ruleTrees (mem_rulesFor.mp hr).1).mp ht).2
    have heq' := ((mem_ruleTrees (mem_rulesFor.mp hr').1).mp ht').2
    exact hne (heq.symm.trans heq')

/-! ### The count -/

theorem length_derivationTrees {g : Grammar} (hrules : g.rules.Nodup) (a : Symbol)
    (word : List String) : (g.derivationTrees a word).length =
      ((g.rulesFor a).map fun r => (g.ruleTrees word r).length).sum := by
  rw [← List.length_flatMap]
  apply List.Perm.length_eq
  apply (List.perm_ext_iff_of_nodup (nodup_derivationTrees g a word)
    (nodup_flatMap_ruleTrees hrules a word)).mpr
  intro t
  rw [mem_derivationTrees, mem_flatMap_ruleTrees]

theorem length_derivationTrees_eq_derivationCount {g : Grammar} (hrules : g.rules.Nodup)
    (a : Symbol) (word : List String) :
    (g.derivationTrees a word).length = g.derivationCount a word := by
  induction hn : word.length using Nat.strongRecOn generalizing a word with
  | ind n ih =>
      subst hn
      rw [length_derivationTrees hrules, derivationCount]
      refine congrArg List.sum (List.map_congr_left fun r _ => ?_)
      obtain ⟨b, rhs⟩ := r
      rcases rhs with _ | ⟨l, _ | ⟨r, _ | ⟨_, _⟩⟩⟩
      · rfl
      · exact length_ruleTrees_single g word b l
      · rw [length_ruleTrees_pair, ← List.attach_map_val]
        refine congrArg List.sum (List.map_congr_left fun k _ => ?_)
        have hk := List.mem_range'_1.mp k.property
        have hleft : (word.take k).length < word.length := by
          rw [List.length_take]
          omega
        have hright : (word.drop k).length < word.length := by
          rw [List.length_drop]
          omega
        rw [ih _ hleft l _ rfl, ih _ hright r _ rfl]
      · rfl

/-- In every cell of the table of a grammar in normal form there are as many trees with a label as
the naive recursion counts derivations of the part of the word from that label. -/
theorem length_labeled_eq_derivationCount {g : Grammar} (hg : g.firstViolation? = none)
    (hrules : g.rules.Nodup) (word : List String) : ∃ T log, g.chart word = .ok (T, log) ∧
      ∀ i j, i < j → j ≤ word.length → ∃ c, T.cell? ⟨i, j⟩ = some c ∧
        ∀ a, (c.labeled a).length = g.derivationCount a (Span.slice ⟨i, j⟩ word) := by
  obtain ⟨log, hchart⟩ := chart_eq_ok hg word
  refine ⟨g.wordTable word, log, hchart, ?_⟩
  intro i j hij hj
  obtain ⟨c, hc, hnodup, hmem⟩ := exists_cell?_wordTable g word hij hj
  refine ⟨c, hc, ?_⟩
  intro a
  rw [← length_derivationTrees_eq_derivationCount hrules]
  apply List.Perm.length_eq
  apply (List.perm_ext_iff_of_nodup (hnodup.filter _) (nodup_derivationTrees g a _)).mpr
  intro t
  rw [List.mem_filter, hmem, beq_iff_eq, mem_derivationTrees]

/-- Both bracketings of `a b a c a` are counted. -/
theorem length_labeled_eq_derivationCount_operators :
    operators.firstViolation? = none ∧ operators.rules.Nodup ∧
      ∃ T log c, operators.chart ["a", "b", "a", "c", "a"] = .ok (T, log) ∧
        T.cell? ⟨0, 5⟩ = some c ∧ (c.labeled ⟨"S"⟩).length = 2 := by
  have hnormal : operators.firstViolation? = none := by decide
  have hrules : operators.rules.Nodup := by decide
  obtain ⟨T, log, hchart, hcount⟩ :=
    length_labeled_eq_derivationCount hnormal hrules ["a", "b", "a", "c", "a"]
  obtain ⟨c, hc, hlength⟩ := hcount 0 5 (by decide) (by decide)
  have htwo : operators.derivationCount ⟨"S"⟩ ["a", "b", "a", "c", "a"] = 2 := by cbv
  exact ⟨hnormal, hrules, T, log, c, hchart, hc, (hlength _).trans htwo⟩

end Grammar

end ChartParser
