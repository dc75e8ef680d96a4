import ChartParser.Generator.Generate
import ChartParser.Proofs.SettledHeights

/-!
# The derivations that expansion can build

An expansion is a derivation in which each rule was offered at the depth where
it stands. Whatever is chosen, only such derivations are built, and a chooser
that may choose anything may build each of them. Which heights the offers go by
is left open until the last statement, in which the settled heights are seen to
rule out no rule of a finite derivation above the depth limit.
-/
namespace ChartParser

/-! ### Threading a state through a row -/

section Thread
variable {α β σ ε : Type} {f : β → α}

theorem threadThrough_eq_ok {P : β → Prop} {xs : List α}
    {step : (x : α) → x ∈ xs → σ → Except ε (β × σ)} {state state' : σ} {ys : List β}
    (hrun : threadThrough xs step state = .ok (ys, state'))
    (hstep : ∀ x hx s y s', step x hx s = .ok (y, s') → f y = x ∧ P y) :
    ys.map f = xs ∧ ∀ y ∈ ys, P y := by
  induction xs generalizing state ys with
  | nil =>
      cases hrun
      simp
  | cons x xs ih =>
      unfold threadThrough at hrun
      split at hrun
      · cases hrun
      · rename_i y s hy
        split at hrun
        · cases hrun
        · rename_i zs s' hzs
          cases hrun
          obtain ⟨hx, hP⟩ := hstep _ _ _ _ _ hy
          obtain ⟨hmap, hall⟩ := ih hzs fun z hz => hstep z (List.mem_cons_of_mem x hz)
          constructor
          · rw [List.map_cons, hx, hmap]
          · exact List.forall_mem_cons.mpr ⟨hP, hall⟩

/-- If every result can be had with any state left over, so can the row of all of them. -/
theorem exists_threadThrough {xs : List α} (step : (x : α) → x ∈ xs → σ → Except ε (β × σ))
    {ys : List β} (hxs : ys.map f = xs)
    (hstep : ∀ y ∈ ys, ∀ hx rest, ∃ s, step (f y) hx s = .ok (y, rest)) (rest : σ) :
    ∃ s, threadThrough xs step s = .ok (ys, rest) := by
  subst hxs
  induction ys with
  | nil => exact ⟨rest, rfl⟩
  | cons y ys ih =>
      obtain ⟨s, hs⟩ := ih (fun z hz => step z (List.mem_cons_of_mem _ hz))
        fun z hz hx => hstep z (List.mem_cons_of_mem y hz) (List.mem_cons_of_mem _ hx)
      obtain ⟨s', hs'⟩ := hstep y List.mem_cons_self List.mem_cons_self s
      refine ⟨s', ?_⟩
      change threadThrough (f y :: ys.map f) step s' = .ok (y :: ys, rest)
      rw [threadThrough, hs']
      dsimp only
      rw [hs]

end Thread

/-- Each alternative may be chosen, whatever is to come after it. -/
def Chooser.Free {σ : Type} (c : Chooser σ) : Prop :=
  ∀ n (hn : 0 < n) (i : Fin n) rest, ∃ state, c.pick n hn state = (i, rest)

namespace Grammar
variable {σ : Type} {c : Chooser σ} {g : Grammar} {h : Heights} {maxDepth depth : ℕ}

theorem mem_candidates {s : Symbol} {best : ℕ} {r : Rule} :
    r ∈ g.candidates h maxDepth depth s best ↔ r ∈ g.rules ∧ r.lhs = s ∧
      ∃ n, g.ruleHeight? h r = some n ∧ (depth < maxDepth ∨ n = best) := by
  rw [candidates, List.mem_filter, mem_rulesFor, and_assoc]
  cases g.ruleHeight? h r <;> simp

/-- The derivation may be built by an expansion that starts at the given depth. -/
inductive Expandable (g : Grammar) (h : Heights) (maxDepth : ℕ) : ℕ → Derivation → Prop
  | terminal {depth : ℕ} {s : Symbol} : g.isNonTerminal s = false →
      Expandable g h maxDepth depth (.terminal s)
  | node {depth best : ℕ} {r : Rule} {children : List Derivation} :
      g.symbolHeight? h r.lhs = some best → r ∈ g.candidates h maxDepth depth r.lhs best →
      children.map Derivation.root = r.rhs →
      (∀ d ∈ children, Expandable g h maxDepth (depth + 1) d) →
      Expandable g h maxDepth depth (.node r.lhs children)

theorem Expandable.validFor {d : Derivation} (hd : g.Expandable h maxDepth depth d) :
    d.ValidFor g := by
  induction hd with
  | terminal hs => exact .terminal hs
  | node _ hr hroots _ ih => exact .node (mem_candidates.mp hr).1 hroots ih

/-! ### What an expansion does -/

theorem expand_terminal {s : Symbol} (hs : g.isNonTerminal s = false) (state : σ) :
    expand c g h maxDepth s depth state = .ok (.terminal s, state) := by
  rw [expand, hs]
  rfl

theorem expand_unproductive {s : Symbol} (hs : g.isNonTerminal s = true)
    (hnone : g.symbolHeight? h s = none) (state : σ) :
    expand c g h maxDepth s depth state = .error (.unproductive s.name) := by
  rw [expand, if_pos hs]
  split
  · rfl
  · simp_all

theorem expand_nonTerminal {s : Symbol} {best : ℕ} (hs : g.isNonTerminal s = true)
    (hbest : g.symbolHeight? h s = some best)
    (hpos : 0 < (g.candidates h maxDepth depth s best).length) {state state₁ : σ}
    {i : Fin (g.candidates h maxDepth depth s best).length}
    (hpick : c.pick _ hpos state = (i, state₁)) {r : Rule}
    (hr : (g.candidates h maxDepth depth s best)[i] = r) :
    expand c g h maxDepth s depth state =
      (threadThrough r.rhs
        (fun x _ state => expand c g h maxDepth x (depth + 1) state) state₁).map
          fun row => (.node s row.1, row.2) := by
  have hi : i = (c.pick _ hpos state).1 := by rw [hpick]
  have hstate : state₁ = (c.pick _ hpos state).2 := by rw [hpick]
  subst hi hstate hr
  rw [expand, if_pos hs]
  split
  · simp_all
  · rename_i best' heq
    obtain rfl : best' = best := by
      rw [hbest, Option.some.injEq] at heq
      exact heq.symm
    refine (dif_pos hpos).trans ?_
    dsimp only
    split
    · rename_i hthread
      rw [hthread]
      rfl
    · rename_i hthread
      rw [hthread]
      rfl

theorem expand_nothing_offered {s : Symbol} {best : ℕ} (hs : g.isNonTerminal s = true)
    (hbest : g.symbolHeight? h s = some best)
    (hpos : ¬0 < (g.candidates h maxDepth depth s best).length) (state : σ) :
    expand c g h maxDepth s depth state = .error (.unproductive s.name) := by
  rw [expand, if_pos hs]
  split
  · rfl
  · rename_i best' heq
    obtain rfl : best' = best := by
      rw [hbest, Option.some.injEq] at heq
      exact heq.symm
    exact dif_neg hpos

/-- Whatever is chosen, an expansion that succeeds is one of the derivations on offer. -/
theorem expandable_of_expand {depth : ℕ} {s : Symbol} {state state' : σ} {d : Derivation}
    (hrun : expand c g h maxDepth s depth state = .ok (d, state')) :
    d.root = s ∧ g.Expandable h maxDepth depth d := by
  by_cases hnt : g.isNonTerminal s = true
  · cases hbest : g.symbolHeight? h s with
    | none =>
        rw [expand_unproductive hnt hbest] at hrun
        cases hrun
    | some best =>
        by_cases hpos : 0 < (g.candidates h maxDepth depth s best).length
        · obtain ⟨i, state₁, hpick⟩ : ∃ i state₁, c.pick _ hpos state = (i, state₁) := ⟨_, _, rfl⟩
          obtain ⟨r, hr⟩ : ∃ r, (g.candidates h maxDepth depth s best)[i] = r := ⟨_, rfl⟩
          have hmem : r ∈ g.candidates h maxDepth depth s best := hr ▸ List.getElem_mem i.2
          rw [expand_nonTerminal hnt hbest hpos hpick hr] at hrun
          cases hthread : threadThrough r.rhs
              (fun x _ state => expand c g h maxDepth x (depth + 1) state) state₁ with
          | error fault =>
              rw [hthread] at hrun
              cases hrun
          | ok row =>
              rw [hthread] at hrun
              cases hrun
              obtain ⟨hroots, hall⟩ := threadThrough_eq_ok hthread
                (f := Derivation.root) (P := g.Expandable h maxDepth (depth + 1))
                fun x hx st d st' hd => expandable_of_expand hd
              obtain ⟨_, rfl, _⟩ := mem_candidates.mp hmem
              exact ⟨rfl, .node hbest hmem hroots hall⟩
        · rw [expand_nothing_offered hnt hbest hpos] at hrun
          cases hrun
  · have hs : g.isNonTerminal s = false := by simpa using hnt
    rw [expand_terminal hs] at hrun
    cases hrun
    exact ⟨rfl, .terminal hs⟩
termination_by (maxDepth - depth, (g.symbolHeight? h s).getD 0)
decreasing_by exact candidates_decrease hbest hmem hx

/-- A free chooser has choices for every derivation on offer. -/
theorem Expandable.exists_expand (hc : c.Free) {d : Derivation}
    (hd : g.Expandable h maxDepth depth d) (rest : σ) :
    ∃ state, expand c g h maxDepth d.root depth state = .ok (d, rest) := by
  induction hd generalizing rest with
  | terminal hs => exact ⟨rest, expand_terminal hs rest⟩
  | @node depth best r children hbest hr hroots _ ih =>
      obtain ⟨i, hi, hget⟩ := List.getElem_of_mem hr
      have hpos : 0 < (g.candidates h maxDepth depth r.lhs best).length := by omega
      have hnt : g.isNonTerminal r.lhs = true :=
        isNonTerminal_iff.mpr ⟨r, (mem_candidates.mp hr).1, rfl⟩
      obtain ⟨state₁, hthread⟩ := exists_threadThrough
        (fun x _ state => expand c g h maxDepth x (depth + 1) state) hroots
        (fun d hd _ rest => ih d hd rest) rest
      obtain ⟨state, hpick⟩ := hc _ hpos ⟨i, hi⟩ state₁
      refine ⟨state, ?_⟩
      rw [Derivation.root, expand_nonTerminal hnt hbest hpos hpick hget, hthread]
      rfl

/-- With settled heights every derivation that ends above the depth limit is on offer. -/
theorem expandable_heights {d : Derivation} (hd : d.ValidFor g)
    (hheight : depth + d.height ≤ maxDepth) : g.Expandable g.heights maxDepth depth d := by
  induction hd generalizing depth with
  | terminal hs => exact .terminal hs
  | @node r children hr hroots hvalid ih =>
      rw [Derivation.height] at hheight
      obtain ⟨best, _, hbest⟩ := heightsCover_heights g _ (.node r.lhs children)
        (.node hr hroots hvalid) (Nat.le_refl _)
      obtain ⟨n, _, hrule⟩ := (heightsCover_heights g _).exists_ruleHeight?_le hroots hvalid
        (Nat.le_refl _)
      refine .node hbest (mem_candidates.mpr ⟨hr, rfl, n, hrule, Or.inl (by omega)⟩) hroots ?_
      intro child hchild
      have hle := Derivation.height_le_highest hchild
      exact ih child hchild (by omega)

end Grammar

end ChartParser
