import ChartParser.CommandLine.Session
import ChartParser.Proofs.ParseOutcome

/-!
# The order of the trees

A cell lists its trees in the order of their discovery. Which order that is can
be told from the trees and the list of rules: trees are compared by the size of
the left part, then by the position of the rule at the root, then by their left
and at last by their right children. A rule that is written twice counts where
it stands first, its second pass over the parts finding nothing new.
-/
namespace ChartParser

namespace Tree

/-- Where the rules first have the rule that a node and its children make. -/
def rulePosition (rules : List Rule) (t : Tree) : ℕ :=
  rules.idxOf ⟨t.label, t.children.map label⟩

/-- The order of the trees over one span. Trees over a token go by the rule; other trees go by
the number of leaves on the left, then by the rule, then by the left and the right child. -/
def Precedes (rules : List Rule) : Tree → Tree → Prop
  | unary a t, unary b u => (unary a t).rulePosition rules < (unary b u).rulePosition rules
  | binary a l r, binary b l' r' =>
    l.leaves.length < l'.leaves.length ∨ l.leaves.length = l'.leaves.length ∧
      ((binary a l r).rulePosition rules < (binary b l' r').rulePosition rules ∨
        (binary a l r).rulePosition rules = (binary b l' r').rulePosition rules ∧
          (Precedes rules l l' ∨ l = l' ∧ Precedes rules r r'))
  | _, _ => False

variable {rules : List Rule}

theorem rulePosition_unary {r : Rule} {t : Tree} (h : r.rhs = [t.label]) :
    (unary r.lhs t).rulePosition rules = rules.idxOf r := by
  rw [rulePosition, children, List.map_cons, List.map_nil, ← h]
  rfl

theorem rulePosition_binary {r : Rule} {t u : Tree} (h : r.rhs = [t.label, u.label]) :
    (binary r.lhs t u).rulePosition rules = rules.idxOf r := by
  rw [rulePosition, children, List.map_cons, List.map_cons, List.map_nil, ← h]
  rfl

theorem not_precedes_self (t : Tree) : ¬t.Precedes rules t := by
  induction t with
  | leaf a => exact id
  | unary a t _ => exact Nat.lt_irrefl _
  | binary a l r ihl ihr =>
      rw [Precedes]
      simp [ihl, ihr]

theorem Precedes.trans {t u v : Tree} (htu : t.Precedes rules u) (huv : u.Precedes rules v) :
    t.Precedes rules v := by
  induction t generalizing u v with
  | leaf a => cases u <;> cases htu
  | unary a t _ =>
      cases u with
      | leaf _ => cases htu
      | binary _ _ _ => cases htu
      | unary b u =>
          cases v with
          | leaf _ => cases huv
          | binary _ _ _ => cases huv
          | unary c v => exact Nat.lt_trans htu huv
  | binary a l r ihl ihr =>
      cases u with
      | leaf _ => cases htu
      | unary _ _ => cases htu
      | binary b l' r' =>
          cases v with
          | leaf _ => cases huv
          | unary _ _ => cases huv
          | binary c l'' r'' =>
              -- Sizes and positions compare as numbers; only the children need the induction.
              rw [Precedes] at htu huv ⊢
              grind

instance (rules : List Rule) : IsStrictOrder Tree (Precedes rules) where
  irrefl := not_precedes_self
  trans _ _ _ := Precedes.trans

/-- The list is increasing, and no other increasing list has the same trees. -/
structure Canonical (rules : List Rule) (trees : List Tree) : Prop where
  increasing : trees.Pairwise (Precedes rules)
  unique : ∀ others : List Tree, others.Pairwise (Precedes rules) →
    (∀ t, t ∈ others ↔ t ∈ trees) → others = trees

theorem nodup_of_increasing {trees : List Tree} (h : trees.Pairwise (Precedes rules)) :
    trees.Nodup := by
  refine h.imp fun {t u} htu heq => ?_
  exact not_precedes_self u (heq ▸ htu)

theorem canonical_of_increasing {trees : List Tree} (h : trees.Pairwise (Precedes rules)) :
    Canonical rules trees := by
  refine ⟨h, fun others hothers hsame => ?_⟩
  have hperm : others.Perm trees :=
    (List.perm_ext_iff_of_nodup (nodup_of_increasing hothers) (nodup_of_increasing h)).mpr hsame
  refine List.Perm.eq_of_pairwise (fun t u _ _ htu hut => ?_) hothers h hperm
  exact absurd (htu.trans hut) (not_precedes_self t)

/-- Of two trees in an increasing list the one that precedes the other comes first. -/
theorem pair_sublist {trees : List Tree} (h : trees.Pairwise (Precedes rules)) {t u : Tree}
    (ht : t ∈ trees) (hu : u ∈ trees) (htu : t.Precedes rules u) : [t, u].Sublist trees := by
  obtain ⟨before, after, rfl⟩ := List.append_of_mem hu
  obtain ⟨_, hafter, _⟩ := List.pairwise_append.mp h
  rcases List.mem_append.mp ht with hbefore | hrest
  · exact (List.singleton_sublist.mpr hbefore).append ((List.nil_sublist after).cons_cons u)
  · rcases List.mem_cons.mp hrest with rfl | hlater
    · exact absurd htu (not_precedes_self t)
    · have hut := (List.pairwise_cons.mp hafter).1 t hlater
      exact absurd (htu.trans hut) (not_precedes_self t)

theorem ValidFor.mono {g g' : Grammar} (hrules : g.rules ⊆ g'.rules) {t : Tree}
    (ht : t.ValidFor g) : t.ValidFor g' := by
  induction ht with
  | unary hrule => exact .unary (hrules hrule)
  | binary hrule _ _ ihl ihr => exact .binary (hrules hrule) ihl ihr

end Tree

theorem Table.parses_sublist (g : Grammar) (T : Table) :
    (T.parses g).Sublist (T.treesAt ⟨0, T.size⟩) := by
  unfold parses treesAt top?
  cases T.cell? ⟨0, T.size⟩ with
  | none => exact List.Sublist.refl _
  | some c => exact List.filter_sublist

namespace Grammar
variable {g : Grammar}

/-! ### What is found for a span -/

theorem pairwise_tokenTrees (g : Grammar) (token : String) :
    (appendNew [] (g.tokenTrees token)).Pairwise (Tree.Precedes g.rules) := by
  rw [tokenTrees, List.filterMap_eq_flatMap_toList]
  apply pairwise_appendNew_flatMap
  · refine (firstAppearances_appendNew g.rules).ordered.imp fun {r r'} hlt t ht u hu => ?_
    simp only [Option.mem_toList, Option.bind_eq_some_iff, Rule.single?_eq_some_iff,
      Option.ite_none_right_eq_some, Option.some.injEq] at ht hu
    obtain ⟨a, hrhs, _, rfl⟩ := ht
    obtain ⟨b, hrhs', _, rfl⟩ := hu
    rw [Tree.Precedes, Tree.rulePosition_unary hrhs, Tree.rulePosition_unary hrhs']
    exact hlt
  · intro r _
    refine List.Pairwise.sublist (appendNew_sublist _) ?_
    cases r.single?.bind _ with
    | none => exact List.Pairwise.nil
    | some t => exact List.pairwise_singleton _ t

/-- Parts in order are combined in order, rule by rule and within a rule by the left and then by
the right part. -/
theorem pairwise_combine {left right : List Tree} (hleft : left.Pairwise (Tree.Precedes g.rules))
    (hright : right.Pairwise (Tree.Precedes g.rules)) {n : ℕ}
    (hsize : ∀ l ∈ left, l.leaves.length = n) :
    (appendNew [] (g.combine left right)).Pairwise (Tree.Precedes g.rules) := by
  apply pairwise_appendNew_flatMap
  -- One rule against a later one: the sizes are equal, so the rules decide.
  · refine (firstAppearances_appendNew g.rules).ordered.imp fun {r r'} hlt t ht u hu => ?_
    split at ht
    · split at hu
      · rename_i b c hpair _ b' c' hpair'
        rw [Rule.pair?_eq_some_iff] at hpair hpair'
        simp only [List.mem_flatMap, List.mem_map, List.mem_filter, beq_iff_eq] at ht hu
        obtain ⟨l, ⟨hl, rfl⟩, x, ⟨_, rfl⟩, rfl⟩ := ht
        obtain ⟨l', ⟨hl', rfl⟩, x', ⟨_, rfl⟩, rfl⟩ := hu
        rw [Tree.Precedes, Tree.rulePosition_binary hpair, Tree.rulePosition_binary hpair',
          hsize l hl, hsize l' hl']
        exact Or.inr ⟨rfl, Or.inl hlt⟩
      · simp at hu
    · simp at ht
  -- Within one rule: the left child decides, and where it is the same the right one.
  · intro r _
    refine List.Pairwise.sublist (appendNew_sublist _) ?_
    split
    · rename_i b c hpair
      rw [Rule.pair?_eq_some_iff] at hpair
      rw [List.pairwise_flatMap]
      constructor
      · intro l hl
        obtain ⟨_, hlabel⟩ := List.mem_filter.mp hl
        obtain rfl := beq_iff_eq.mp hlabel
        rw [List.pairwise_map]
        refine (hright.filter _).imp_of_mem fun {x x'} hx hx' hlt => ?_
        obtain rfl := beq_iff_eq.mp (List.mem_filter.mp hx).2
        have hlabel' := beq_iff_eq.mp (List.mem_filter.mp hx').2
        rw [Tree.Precedes, Tree.rulePosition_binary hpair,
          Tree.rulePosition_binary (by rw [hlabel', hpair])]
        exact Or.inr ⟨rfl, Or.inr ⟨rfl, Or.inr ⟨rfl, hlt⟩⟩⟩
      · refine (hleft.filter _).imp_of_mem fun {l l'} hl hl' hlt t ht u hu => ?_
        simp only [List.mem_map, List.mem_filter, beq_iff_eq] at hl hl' ht hu
        obtain ⟨hl, rfl⟩ := hl
        obtain ⟨hl', hlabel⟩ := hl'
        obtain ⟨x, ⟨_, rfl⟩, rfl⟩ := ht
        obtain ⟨x', ⟨_, hlabel'⟩, rfl⟩ := hu
        rw [Tree.Precedes, Tree.rulePosition_binary hpair,
          Tree.rulePosition_binary (by rw [hlabel, hlabel', hpair]), hsize l hl, hsize l' hl']
        exact Or.inr ⟨rfl, Or.inr ⟨rfl, Or.inl hlt⟩⟩
    · exact List.Pairwise.nil

/-! ### Cells -/

/-- By induction on the length of the span: the parts at a cut are shorter, and a later cut puts
more leaves into the left part. -/
theorem pairwise_treesAt_wordTable (g : Grammar) (word : List String) {s : Span}
    (hs : s.start < s.stop) (hstop : s.stop ≤ word.length) :
    ((g.wordTable word).treesAt s).Pairwise (Tree.Precedes g.rules) := by
  induction hn : s.length using Nat.strongRecOn generalizing s with
  | ind n ih =>
      subst hn
      by_cases hone : s.length = 1
      · obtain ⟨i, j⟩ := s
        obtain rfl : j = i + 1 := by simp only [Span.length] at hone hs; omega
        rw [treesAt_wordTable_diagonal g hstop]
        exact pairwise_tokenTrees g _
      · have htwo : 2 ≤ s.length := by simp only [Span.length] at hone ⊢; omega
        have hsize : ∀ k ∈ s.cuts, ∀ l ∈ (g.wordTable word).treesAt ⟨s.start, k⟩,
            l.leaves.length = k - s.start := by
          intro k hk l hl
          have hcut := Span.mem_cuts.mp hk
          have hkstop : k ≤ word.length := by omega
          have hleaves := ((mem_treesAt_wordTable g word hcut.1 hkstop).mp hl).2
          rw [hleaves, Span.length_slice hkstop]
          rfl
        rw [treesAt_wordTable_of_two_le g hstop htwo, Table.combinations]
        apply pairwise_appendNew_flatMap
        · refine List.Pairwise.sublist (appendNew_sublist _) ?_
          refine (List.pairwise_lt_range' (s := s.start + 1) (n := s.length - 1)).imp_of_mem ?_
          intro k k' hk hk' hlt t ht u hu
          obtain ⟨a, l, hl, r, _, _, rfl⟩ := mem_combine.mp ht
          obtain ⟨a', l', hl', r', _, _, rfl⟩ := mem_combine.mp hu
          have hcut := Span.mem_cuts.mp hk
          have hcut' := Span.mem_cuts.mp hk'
          rw [Tree.Precedes, hsize k hk l hl, hsize k' hk' l' hl']
          exact Or.inl (by omega)
        · intro k hk
          have hcut := Span.mem_cuts.mp hk
          have hleft := ih _ (Span.length_left_lt hk) (s := ⟨s.start, k⟩) hcut.1
            (Nat.le_trans (Nat.le_of_lt hcut.2) hstop) rfl
          have hright := ih _ (Span.length_right_lt hk) (s := ⟨k, s.stop⟩) hcut.2 hstop rfl
          exact pairwise_combine hleft hright (hsize k hk)

theorem pairwise_parses_wordTable (g : Grammar) (word : List String) :
    ((g.wordTable word).parses g).Pairwise (Tree.Precedes g.rules) := by
  have htop : ((g.wordTable word).treesAt ⟨0, word.length⟩).Pairwise (Tree.Precedes g.rules) := by
    by_cases hempty : 0 < word.length
    · exact pairwise_treesAt_wordTable g word hempty (Nat.le_refl _)
    · rw [Table.treesAt_of_not_covers fun hcovers => hempty hcovers.1]
      exact List.Pairwise.nil
  refine htop.sublist ?_
  have hsublist := Table.parses_sublist g (g.wordTable word)
  rwa [size_wordTable] at hsublist

/-- Every cell of the table of a grammar in normal form is increasing, and so are the parses, also
if the grammar has a rule twice. Hence the order in which the parses of a word are listed and
printed follows from the trees and the rules. -/
theorem parse_trees_canonical {g : Grammar} (hg : g.firstViolation? = none) (word : List String) :
    IsStrictOrder Tree (Tree.Precedes g.rules) ∧
    ∃ o log, g.parse word = .ok o ∧ g.chart word = .ok (o.table, log) ∧
      (∀ i j, i < j → j ≤ word.length →
        ∃ c, o.table.cell? ⟨i, j⟩ = some c ∧ Tree.Canonical g.rules c.toList) ∧
      Tree.Canonical g.rules (o.table.parses g) ∧ Tree.Canonical g.rules o.trees ∧
      ∀ (options : Options) (text : String) (trees : List Tree),
        trees.Pairwise (Tree.Precedes g.rules) → (∀ t, t ∈ trees ↔ t ∈ o.trees) →
          Block.treeLines options ⟨text, o⟩ =
            trees.map fun t => if options.pretty then t.pretty else t.render := by
  obtain ⟨o, ho, htable, _, htrees⟩ := parse_eq_ok hg word
  obtain ⟨log, hchart⟩ := chart_eq_ok hg word
  have hparses := Tree.canonical_of_increasing (pairwise_parses_wordTable g word)
  rw [← htrees] at hparses
  refine ⟨inferInstance, o, log, ho, ?_, ?_, ?_, hparses, ?_⟩
  · rw [htable, hchart]
  · intro i j hij hj
    obtain ⟨c, hc, _⟩ := exists_cell?_wordTable g word hij hj
    have hcell := pairwise_treesAt_wordTable g word (s := ⟨i, j⟩) hij hj
    rw [Table.treesAt_of_cell? hc] at hcell
    exact ⟨c, htable ▸ hc, Tree.canonical_of_increasing hcell⟩
  · rw [htable, ← htrees]
    exact hparses
  · intro options text trees hincreasing hsame
    rw [Block.treeLines, hparses.unique trees hincreasing hsame]

/-- The rules of `operators`, written twice. -/
def repeatedOperators : Grammar :=
  { operators with rules := operators.rules ++ operators.rules }

/-- Both bracketings of `a b a c a` are found, the one with the shorter left part first. -/
theorem parse_trees_canonical_operators :
    let short := joined "B" "b" operand (joined "C" "c" operand operand)
    let long := joined "C" "c" (joined "B" "b" operand operand) operand
    repeatedOperators.firstViolation? = none ∧
      ∃ o, repeatedOperators.parse ["a", "b", "a", "c", "a"] = .ok o ∧
        [short, long].Sublist o.trees := by
  intro short long
  have hnormal : repeatedOperators.firstViolation? = none := by decide
  have hsubset : operators.rules ⊆ repeatedOperators.rules := List.subset_append_left _ _
  have hpair : ∀ {kind token}, ⟨⟨"A"⟩, [⟨kind⟩, ⟨"S"⟩]⟩ ∈ operators.rules →
      ⟨⟨kind⟩, [⟨token⟩]⟩ ∈ operators.rules →
      (joined kind token operand operand).ValidFor operators :=
    fun hkind htoken => validFor_joined hkind htoken validFor_operand validFor_operand rfl rfl
  have hshort : short.ValidFor operators := validFor_joined (by decide) (by decide)
    validFor_operand (hpair (by decide) (by decide)) rfl rfl
  have hlong : long.ValidFor operators := validFor_joined (by decide) (by decide)
    (hpair (by decide) (by decide)) validFor_operand rfl rfl
  obtain ⟨_, o, _, ho, _, _, _, hcanonical, _⟩ :=
    parse_trees_canonical hnormal ["a", "b", "a", "c", "a"]
  obtain ⟨o', ho', _, _, htrees⟩ := parse_eq_ok hnormal ["a", "b", "a", "c", "a"]
  obtain rfl : o = o' := Except.ok.inj (ho.symm.trans ho')
  have hmem : ∀ {t : Tree}, t.ValidFor operators → t.label = ⟨"S"⟩ →
      t.leaves = ["a", "b", "a", "c", "a"] → t ∈ o.trees := by
    intro t ht hlabel hleaves
    rw [htrees]
    exact mem_parses_wordTable.mpr ⟨ht.mono hsubset, hlabel, hleaves⟩
  refine ⟨hnormal, o, ho, ?_⟩
  exact Tree.pair_sublist hcanonical.increasing (hmem hshort rfl rfl) (hmem hlong rfl rfl)
    (Or.inl (by decide))

end Grammar

end ChartParser
