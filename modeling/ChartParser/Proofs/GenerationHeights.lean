import ChartParser.Proofs.GenerationOutcomes

/-!
# How high a generated derivation grows

Above the depth limit an expansion may choose any rule and goes down one step
with each choice. At the limit only rules that attain the least height of their
head are on offer, and the heights below such a rule are least again, so from
there on everything is as low as it can be. The number of non-terminals bounds
what the expansion adds below the limit.
-/
namespace ChartParser

/-- The second derivation stands in the first, this many steps below its root. -/
inductive Derivation.DescendantAt : Derivation → ℕ → Derivation → Prop
  | root (d : Derivation) : DescendantAt d 0 d
  | child {s : Symbol} {children : List Derivation} {d e : Derivation} {steps : ℕ} :
      d ∈ children → DescendantAt d steps e → DescendantAt (.node s children) (steps + 1) e

namespace Grammar
variable {σ : Type} {g : Grammar} {h : Heights} {maxDepth depth : ℕ}

/-- Where the heights of the symbols are those of the trees, so is the height of the row. -/
theorem highest?_map_root {children : List Derivation}
    (hchildren : ∀ d ∈ children, g.symbolHeight? h d.root = some d.height) :
    g.highest? h (children.map Derivation.root) = some (Derivation.highest children) := by
  induction children with
  | nil => rfl
  | cons d children ih =>
      have hd := hchildren d List.mem_cons_self
      have hrest := ih fun e he => hchildren e (List.mem_cons_of_mem d he)
      rw [List.map_cons, highest?, hd, hrest, Derivation.highest]
      rfl

theorem Expandable.descendant {d e : Derivation} {steps : ℕ}
    (hd : g.Expandable h maxDepth depth d) (he : d.DescendantAt steps e) :
    g.Expandable h maxDepth (depth + steps) e := by
  induction he generalizing depth with
  | root d => exact hd
  | @child s children d e steps hmem _ ih =>
      cases hd with
      | node _ _ _ hall =>
          have hbelow := ih (hall d hmem)
          rwa [Nat.add_right_comm] at hbelow

/-- From the limit on the rule at a node attains the least height of its head, and by induction
so do the rules at the nodes below. -/
theorem Expandable.leastHeight {d : Derivation} (hd : g.Expandable g.heights maxDepth depth d)
    (hdepth : maxDepth ≤ depth) : g.LeastHeight d.root d.height := by
  induction hd with
  | terminal hs => exact symbolHeight?_heights_eq_some_iff.mp (symbolHeight?_terminal hs)
  | @node depth best r children hbest hr hroots _ ih =>
      have hchildren : ∀ d ∈ children, g.symbolHeight? g.heights d.root = some d.height := by
        intro d hd
        exact symbolHeight?_heights_eq_some_iff.mpr (ih d hd (Nat.le_succ_of_le hdepth))
      obtain ⟨_, _, n, hrule, hn⟩ := mem_candidates.mp hr
      obtain rfl : n = best := hn.resolve_left (Nat.not_lt.mpr hdepth)
      have hheight : n = Derivation.highest children + 1 := by
        rw [ruleHeight?, ← hroots, highest?_map_root hchildren] at hrule
        exact (Option.some.inj hrule).symm
      rw [Derivation.root, Derivation.height, ← hheight]
      exact symbolHeight?_heights_eq_some_iff.mp hbest

theorem mem_nonTerminals {s : Symbol} : s ∈ g.nonTerminals ↔ g.isNonTerminal s = true := by
  rw [nonTerminals, List.mem_eraseDups, List.mem_map, isNonTerminal_iff]

/-- A step above the limit counts once, and all that stands below the limit counts no more than
there are non-terminals. -/
theorem Expandable.height_le {d : Derivation} (hd : g.Expandable g.heights maxDepth depth d) :
    d.height ≤ (maxDepth - depth) + g.nonTerminals.length := by
  induction hd with
  | terminal _ => exact Nat.zero_le _
  | @node depth best r children hbest hr hroots hall ih =>
      by_cases hdepth : maxDepth ≤ depth
      · have hleast := (Expandable.node hbest hr hroots hall).leastHeight hdepth
        have hle := hleast.le_length fun u hu => mem_nonTerminals.mpr hu
        omega
      · have hhighest := Derivation.highest_le ih
        rw [Derivation.height]
        omega

/-- An expansion of a symbol with a finite derivation ends, and what it builds has the least
height from the depth limit on. So the whole is no higher than the limit and the number of
non-terminals together, and a lowest derivation if the limit is zero. -/
theorem expand_height (c : Chooser σ) {start : Symbol} (hstart : g.Productive start)
    (maxDepth : ℕ) (state : σ) : ∃ d state',
      expand c g g.heights maxDepth start 0 state = .ok (d, state') ∧
      (g.isNonTerminal start = true →
        generateFrom c g start maxDepth state = .ok (d.word, state')) ∧
      d.ValidFor g ∧ d.root = start ∧
      (∀ depth e, d.DescendantAt depth e → maxDepth ≤ depth → g.LeastHeight e.root e.height) ∧
      d.height ≤ maxDepth + g.nonTerminals.length ∧
      (maxDepth = 0 → g.LeastHeight start d.height) := by
  obtain ⟨d₀, hd₀, rfl⟩ := hstart
  obtain ⟨n, hn⟩ := exists_leastHeight hd₀
  have hbest := symbolHeight?_heights_eq_some_iff.mpr hn
  obtain ⟨d, state', hrun⟩ := exists_expand_eq_ok c maxDepth 0 hbest state
  obtain ⟨hroot, hexp⟩ := expandable_of_expand hrun
  refine ⟨d, state', hrun, ?_, hexp.validFor, hroot, ?_, hexp.height_le, ?_⟩
  · intro hnt
    rw [generateFrom, deriveFrom, if_pos hnt, hrun]
    rfl
  · intro depth e he hdepth
    exact (hexp.descendant he).leastHeight (by omega)
  · intro hzero
    exact hroot ▸ hexp.leastHeight (Nat.le_of_eq hzero)

theorem eq_hollow_of_height_le_one {d : Derivation} (hd : d.ValidFor nested)
    (hroot : d.root = ⟨"S"⟩) (hheight : d.height ≤ 1) : d = hollow := by
  cases hd with
  | @terminal s hs =>
      obtain rfl : s = ⟨"S"⟩ := hroot
      exact absurd hs (by decide)
  | @node r children hr hroots hvalid =>
      simp only [nested, List.mem_cons, List.not_mem_nil, or_false] at hr
      rcases hr with rfl | rfl | rfl
      · have hinner : (⟨"S"⟩ : Symbol) ∈ children.map Derivation.root := by
          rw [hroots]
          decide
        obtain ⟨child, hchild, hsame⟩ := List.mem_map.mp hinner
        have hlow := Derivation.height_le_highest hchild
        rw [Derivation.height] at hheight
        cases hvalid child hchild with
        | @terminal s hs =>
            obtain rfl : s = ⟨"S"⟩ := hsame
            exact absurd hs (by decide)
        | node _ _ _ =>
            rw [Derivation.height] at hlow
            omega
      · obtain rfl := List.map_eq_nil_iff.mp hroots
        rfl
      · simp [Derivation.root] at hroot

/-- With no depth to spare nothing is put between the brackets, nor are there any; three steps
leave room for some. -/
theorem expand_height_nested :
    let source : RandomSource := { script := [], state := 0 }
    nested.Productive ⟨"S"⟩ ∧
    (∃ rest, generateFrom RandomSource.chooser nested ⟨"S"⟩ 0 source = .ok ([], rest)) ∧
    ∃ (d : Derivation) (rest : RandomSource),
      generateFrom RandomSource.chooser nested ⟨"S"⟩ 3 source = .ok (d.word, rest) ∧
      d.height ≤ 5 := by
  intro source
  have hprod : nested.Productive ⟨"S"⟩ := ⟨hollow, validFor_hollow, rfl⟩
  obtain ⟨low, rest, _, hlow, hvalid, hroot, _, _, hleast⟩ :=
    expand_height RandomSource.chooser hprod 0 source
  have hone := (hleast rfl).le_height hollow validFor_hollow rfl
  obtain rfl := eq_hollow_of_height_le_one hvalid hroot hone
  obtain ⟨d, rest', _, hrun, _, _, _, hheight, _⟩ :=
    expand_height RandomSource.chooser hprod 3 source
  exact ⟨hprod, ⟨rest, hlow (by decide)⟩, d, rest', hrun (by decide), hheight⟩

end Grammar

end ChartParser
