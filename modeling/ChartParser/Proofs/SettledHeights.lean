import ChartParser.Generator.Height
import ChartParser.Proofs.LeastHeights

/-!
# The heights that the passes settle on

Throughout the passes an entry is the height of some derivation, and entries
only go down. A pass carries the heights of all derivations up to one height
to those one higher, whichever rules it improves on the way. Since no least
height exceeds the number of rules, the allowed passes reach all of them, and
stopping early at a pass without change loses nothing: the entries are the
least heights.
-/
namespace ChartParser.Grammar

/-- Every entry belongs to a derivation of that height. -/
def HeightsSound (g : Grammar) (h : Heights) : Prop :=
  ∀ ⦃s : Symbol⦄ ⦃n : ℕ⦄, h[s]? = some n →
    ∃ d : Derivation, d.ValidFor g ∧ d.root = s ∧ d.height = n

/-- Every derivation up to the given height is met by what the heights say of its root. -/
def HeightsCover (g : Grammar) (h : Heights) (k : ℕ) : Prop :=
  ∀ d : Derivation, d.ValidFor g → d.height ≤ k → ∃ n ≤ d.height, g.symbolHeight? h d.root = some n

/-- Each entry of the old heights has an entry in the new ones that is no greater. -/
def HeightsImprove (old new : Heights) : Prop :=
  ∀ ⦃s : Symbol⦄ ⦃n : ℕ⦄, old[s]? = some n → ∃ m ≤ n, new[s]? = some m

theorem HeightsImprove.refl (h : Heights) : HeightsImprove h h :=
  fun _ n hn => ⟨n, Nat.le_refl n, hn⟩

theorem HeightsImprove.trans {h h' h'' : Heights} (hh : HeightsImprove h h')
    (hh' : HeightsImprove h' h'') : HeightsImprove h h'' := by
  intro s n hn
  obtain ⟨m, hm, hs⟩ := hh hn
  obtain ⟨l, hl, hs'⟩ := hh' hs
  exact ⟨l, Nat.le_trans hl hm, hs'⟩

variable {g : Grammar} {h h' : Heights} {r : Rule} {n : ℕ}

/-! ### The height of a rule -/

theorem exists_highest?_le {row : List Symbol}
    (hrow : ∀ s ∈ row, ∃ m ≤ n, g.symbolHeight? h s = some m) :
    ∃ m ≤ n, g.highest? h row = some m := by
  induction row with
  | nil => exact ⟨0, Nat.zero_le n, rfl⟩
  | cons s row ih =>
      obtain ⟨m, hm, hs⟩ := hrow s List.mem_cons_self
      obtain ⟨l, hl, hrest⟩ := ih fun u hu => hrow u (List.mem_cons_of_mem s hu)
      refine ⟨max m l, by omega, ?_⟩
      rw [highest?, hs, hrest]
      rfl

theorem exists_ruleHeight?_le (hrhs : ∀ s ∈ r.rhs, ∃ m ≤ n, g.symbolHeight? h s = some m) :
    ∃ m ≤ n + 1, g.ruleHeight? h r = some m := by
  obtain ⟨m, hm, hhighest⟩ := exists_highest?_le hrhs
  exact ⟨m + 1, by omega, by rw [ruleHeight?, hhighest]; rfl⟩

theorem HeightsImprove.symbolHeight? (hh : HeightsImprove h h') {s : Symbol}
    (hs : g.symbolHeight? h s = some n) : ∃ m ≤ n, g.symbolHeight? h' s = some m := by
  unfold Grammar.symbolHeight? at hs ⊢
  split_ifs with hnt
  · rw [if_pos hnt] at hs
    exact hh hs
  · rw [if_neg hnt] at hs
    exact ⟨n, Nat.le_refl n, hs⟩

theorem HeightsImprove.ruleHeight? (hh : HeightsImprove h h') (hr : g.ruleHeight? h r = some n) :
    ∃ m ≤ n, g.ruleHeight? h' r = some m := by
  obtain ⟨top, htop, rfl⟩ := Option.map_eq_some_iff.mp hr
  apply exists_ruleHeight?_le
  intro s hs
  obtain ⟨k, hk, hle⟩ := symbolHeight?_le_highest? htop hs
  obtain ⟨m, hm, hnew⟩ := hh.symbolHeight? hk
  exact ⟨m, by omega, hnew⟩

theorem symbolHeight?_terminal {s : Symbol} (hs : g.isNonTerminal s = false) :
    g.symbolHeight? h s = some 0 := by
  rw [Grammar.symbolHeight?, hs]
  rfl

theorem HeightsSound.exists_of_symbolHeight? (hh : g.HeightsSound h) {s : Symbol}
    (hs : g.symbolHeight? h s = some n) :
    ∃ d : Derivation, d.ValidFor g ∧ d.root = s ∧ d.height = n := by
  unfold Grammar.symbolHeight? at hs
  split_ifs at hs with hnt
  · exact hh hs
  · obtain rfl := Option.some.inj hs
    exact ⟨.terminal s, .terminal (by simpa using hnt), rfl, rfl⟩

/-- A row of symbols that all have heights has derivations of just these heights. -/
theorem HeightsSound.exists_row (hh : g.HeightsSound h) {row : List Symbol}
    (hrow : g.highest? h row = some n) :
    ∃ ds : List Derivation, ds.map Derivation.root = row ∧ (∀ d ∈ ds, d.ValidFor g) ∧
      Derivation.highest ds = n := by
  induction row generalizing n with
  | nil => exact ⟨[], rfl, by simp, by simpa [highest?, Derivation.highest] using hrow⟩
  | cons s row ih =>
      simp only [highest?, Option.pure_def, Option.bind_eq_bind, Option.bind_eq_some_iff,
        Option.some.injEq] at hrow
      obtain ⟨k, hk, m, hm, rfl⟩ := hrow
      obtain ⟨ds, hroots, hvalid, hhighest⟩ := ih hm
      obtain ⟨d, hd, hroot, hheight⟩ := hh.exists_of_symbolHeight? hk
      refine ⟨d :: ds, by rw [List.map_cons, hroot, hroots], ?_, ?_⟩
      · exact List.forall_mem_cons.mpr ⟨hd, hvalid⟩
      · rw [Derivation.highest, hheight, hhighest]

theorem HeightsSound.exists_derivation (hh : g.HeightsSound h) (hr : r ∈ g.rules)
    (hn : g.ruleHeight? h r = some n) :
    ∃ d : Derivation, d.ValidFor g ∧ d.root = r.lhs ∧ d.height = n := by
  obtain ⟨m, hm, rfl⟩ := Option.map_eq_some_iff.mp hn
  obtain ⟨ds, hroots, hvalid, hhighest⟩ := hh.exists_row hm
  exact ⟨.node r.lhs ds, .node hr hroots hvalid, rfl, by rw [Derivation.height, hhighest]⟩

/-! ### One pass -/

theorem improvement?_eq_some_iff : g.improvement? h r = some n ↔
    g.ruleHeight? h r = some n ∧ ∀ m, h[r.lhs]? = some m → n < m := by
  rw [improvement?, Option.filter_eq_some_iff]
  cases h[r.lhs]? <;> simp

theorem improvement?_eq_none_iff : g.improvement? h r = none ↔
    ∀ n, g.ruleHeight? h r = some n → ∃ m ≤ n, h[r.lhs]? = some m := by
  rw [improvement?, Option.filter_eq_none_iff]
  cases h[r.lhs]? <;> simp

theorem HeightsSound.insert (hh : g.HeightsSound h) (hr : r ∈ g.rules)
    (hn : g.ruleHeight? h r = some n) : g.HeightsSound (h.insert r.lhs n) := by
  intro s m hs
  rw [Std.HashMap.getElem?_insert] at hs
  split_ifs at hs with heq
  · obtain rfl := Option.some.inj hs
    rw [← eq_of_beq heq]
    exact hh.exists_derivation hr hn
  · exact hh hs

theorem heightsImprove_insert {s : Symbol} (hn : ∀ m, h[s]? = some m → n ≤ m) :
    HeightsImprove h (h.insert s n) := by
  intro u m hu
  rw [Std.HashMap.getElem?_insert]
  split_ifs with heq
  · rw [← eq_of_beq heq] at hu
    exact ⟨n, hn m hu, rfl⟩
  · exact ⟨m, Nat.le_refl m, hu⟩

/-- What each improvement by one of the rules keeps, a pass over the rules keeps. -/
theorem improveBy_induction {P : Heights → Prop} {rules : List Rule}
    (hinsert : ∀ h r n, r ∈ rules → g.improvement? h r = some n → P h → P (h.insert r.lhs n))
    (hh : P h) : P (g.improveBy rules h).1 := by
  induction rules generalizing h with
  | nil => exact hh
  | cons r rest ih =>
      have hrest : ∀ h r n, r ∈ rest → g.improvement? h r = some n → P h → P (h.insert r.lhs n) :=
        fun h r' n hr' => hinsert h r' n (List.mem_cons_of_mem r hr')
      unfold improveBy
      split
      · rename_i n himp
        exact ih hrest (hinsert h r n List.mem_cons_self himp hh)
      · exact ih hrest hh

theorem HeightsSound.improveBy {rules : List Rule} (hrules : rules ⊆ g.rules)
    (hh : g.HeightsSound h) : g.HeightsSound (g.improveBy rules h).1 := by
  refine improveBy_induction ?_ hh
  intro h r n hr himp hh
  exact hh.insert (hrules hr) (improvement?_eq_some_iff.mp himp).1

theorem heightsImprove_improveBy (g : Grammar) (rules : List Rule) (h : Heights) :
    HeightsImprove h (g.improveBy rules h).1 := by
  refine improveBy_induction ?_ (.refl h)
  intro h' r n _ himp hh
  have hlt := (improvement?_eq_some_iff.mp himp).2
  exact hh.trans (heightsImprove_insert fun m hm => Nat.le_of_lt (hlt m hm))

/-- After a pass the head of each of its rules is at most as high as the rule was before. -/
theorem exists_improveBy_le {rules : List Rule} (hr : r ∈ rules)
    (hn : g.ruleHeight? h r = some n) : ∃ m ≤ n, (g.improveBy rules h).1[r.lhs]? = some m := by
  induction rules generalizing h n with
  | nil => simp at hr
  | cons first rest ih =>
      unfold improveBy
      rcases List.mem_cons.mp hr with rfl | hr
      · split
        · rename_i k himp
          have hk := (improvement?_eq_some_iff.mp himp).1
          rw [hn, Option.some.injEq] at hk
          subst hk
          exact heightsImprove_improveBy g rest _ Std.HashMap.getElem?_insert_self
        · rename_i himp
          obtain ⟨m, hm, hentry⟩ := improvement?_eq_none_iff.mp himp n hn
          obtain ⟨l, hl, hfinal⟩ := heightsImprove_improveBy g rest h hentry
          exact ⟨l, Nat.le_trans hl hm, hfinal⟩
      · split
        · rename_i k himp
          have hlt := (improvement?_eq_some_iff.mp himp).2
          have himprove := heightsImprove_insert fun m hm => Nat.le_of_lt (hlt m hm)
          obtain ⟨m, hm, hrule⟩ := himprove.ruleHeight? hn
          obtain ⟨l, hl, hfinal⟩ := ih hr hrule
          exact ⟨l, Nat.le_trans hl hm, hfinal⟩
        · exact ih hr hn

theorem improveBy_eq_self {rules : List Rule} (hflag : (g.improveBy rules h).2 = false) :
    (g.improveBy rules h).1 = h := by
  induction rules with
  | nil => rfl
  | cons r rest ih =>
      unfold improveBy at hflag ⊢
      split at hflag
      · cases hflag
      · exact ih hflag

/-- Where the trees below a root are covered, the rule of the root is no higher than they make
it. -/
theorem HeightsCover.exists_ruleHeight?_le {k : ℕ} (hk : g.HeightsCover h k)
    {children : List Derivation} (hroots : children.map Derivation.root = r.rhs)
    (hvalid : ∀ d ∈ children, d.ValidFor g) (hhighest : Derivation.highest children ≤ k) :
    ∃ m ≤ Derivation.highest children + 1, g.ruleHeight? h r = some m := by
  apply Grammar.exists_ruleHeight?_le
  intro s hs
  rw [← hroots, List.mem_map] at hs
  obtain ⟨child, hchild, rfl⟩ := hs
  have hle := Derivation.height_le_highest hchild
  obtain ⟨m, hm, hentry⟩ := hk child (hvalid child hchild) (by omega)
  exact ⟨m, Nat.le_trans hm hle, hentry⟩

theorem heightsCover_zero (g : Grammar) (h : Heights) : g.HeightsCover h 0 := by
  intro d hd hheight
  cases hd with
  | terminal hs => exact ⟨0, Nat.le_refl 0, symbolHeight?_terminal hs⟩
  | node _ _ _ => simp [Derivation.height] at hheight

theorem HeightsCover.improveBy {k : ℕ} (hk : g.HeightsCover h k) :
    g.HeightsCover (g.improveBy g.rules h).1 (k + 1) := by
  intro d hd hheight
  cases hd with
  | terminal hs => exact ⟨0, Nat.le_refl 0, symbolHeight?_terminal hs⟩
  | @node r children hr hroots hvalid =>
      rw [Derivation.height] at hheight ⊢
      obtain ⟨m, hm, hrule⟩ := hk.exists_ruleHeight?_le hroots hvalid (by omega)
      obtain ⟨l, hl, hfinal⟩ := exists_improveBy_le hr hrule
      refine ⟨l, Nat.le_trans hl hm, ?_⟩
      have hnt := isNonTerminal_iff.mpr ⟨r, hr, rfl⟩
      rw [Derivation.root, symbolHeight?, if_pos hnt, hfinal]

/-- A pass without change shows that no further one would find anything. -/
theorem heightsCover_of_unchanged (hflag : (g.improveBy g.rules h).2 = false) (k : ℕ) :
    g.HeightsCover h k := by
  induction k with
  | zero => exact heightsCover_zero g h
  | succ k ih =>
      have hpass := ih.improveBy
      rwa [improveBy_eq_self hflag] at hpass

/-! ### All passes -/

/-- What each pass keeps, all passes keep. -/
theorem settle_induction {P : Heights → Prop} (hpass : ∀ h, P h → P (g.improveBy g.rules h).1)
    (hh : P h) (passes : ℕ) : P (g.settle passes h) := by
  induction passes generalizing h with
  | zero => exact hh
  | succ passes ih =>
      have hnext := hpass h hh
      unfold settle
      split
      · rename_i improved heq
        rw [heq] at hnext
        exact ih hnext
      · rename_i settled heq
        rwa [heq] at hnext

theorem HeightsSound.settle (hh : g.HeightsSound h) (passes : ℕ) :
    g.HeightsSound (g.settle passes h) :=
  settle_induction (fun _ hh => hh.improveBy (List.Subset.refl g.rules)) hh passes

theorem HeightsCover.settle {k : ℕ} (hk : g.HeightsCover h k) (passes : ℕ) :
    g.HeightsCover (g.settle passes h) (k + passes) := by
  induction passes generalizing h k with
  | zero => exact hk
  | succ passes ih =>
      unfold Grammar.settle
      split
      · rename_i improved heq
        have hpass := hk.improveBy
        rw [heq] at hpass
        have hrest := ih hpass
        rwa [Nat.add_assoc, Nat.add_comm 1] at hrest
      · rename_i settled heq
        have hflag : (g.improveBy g.rules h).2 = false := by rw [heq]
        have hself : settled = h := by rw [← improveBy_eq_self hflag, heq]
        rw [hself]
        exact heightsCover_of_unchanged hflag _

theorem heightsSound_empty (g : Grammar) : g.HeightsSound ∅ := by
  intro s n hs
  simp at hs

theorem heightsSound_heights (g : Grammar) : g.HeightsSound g.heights :=
  (heightsSound_empty g).settle _

/-- Where no least height is above those that are covered, everything is covered. -/
theorem HeightsCover.of_leastHeight_le {k : ℕ} (hk : g.HeightsCover h k)
    (hbound : ∀ s n, g.LeastHeight s n → n ≤ k) (l : ℕ) : g.HeightsCover h l := by
  intro d hd _
  obtain ⟨n, hn⟩ := exists_leastHeight hd
  obtain ⟨e, he, hroot, hheight⟩ := hn.exists_derivation
  have hle := hn.le_height d hd rfl
  have hnk := hbound d.root n hn
  obtain ⟨m, hm, hentry⟩ := hk e he (by omega)
  rw [hroot] at hentry
  exact ⟨m, by omega, hentry⟩

theorem heightsCover_heights (g : Grammar) (k : ℕ) : g.HeightsCover g.heights k := by
  have hfuel := (heightsCover_zero g ∅).settle (g.rules.length + 1)
  apply hfuel.of_leastHeight_le
  intro s n hn
  have hrules := hn.le_length_rules
  omega

/-- What the settled heights say of a symbol, terminal or not, is its least height. -/
theorem symbolHeight?_heights_eq_some_iff {s : Symbol} :
    g.symbolHeight? g.heights s = some n ↔ g.LeastHeight s n := by
  constructor
  · intro hn
    refine ⟨(heightsSound_heights g).exists_of_symbolHeight? hn, ?_⟩
    intro d hd hroot
    obtain ⟨m, hm, hentry⟩ := heightsCover_heights g d.height d hd (Nat.le_refl _)
    rw [hroot, hn, Option.some.injEq] at hentry
    omega
  · intro hn
    obtain ⟨d, hd, hroot, hheight⟩ := hn.exists_derivation
    obtain ⟨m, hm, hentry⟩ := heightsCover_heights g d.height d hd (Nat.le_refl _)
    rw [hroot] at hentry
    obtain ⟨e, he, hroot', hheight'⟩ := (heightsSound_heights g).exists_of_symbolHeight? hentry
    have hle := hn.le_height e he hroot'
    have heq : m = n := by omega
    rw [hentry, heq]

/-- At the root of a lowest derivation stands a rule of just its height. -/
theorem exists_rule_of_symbolHeight? {s : Symbol} (hs : g.isNonTerminal s = true)
    (hn : g.symbolHeight? g.heights s = some n) :
    ∃ r ∈ g.rulesFor s, g.ruleHeight? g.heights r = some n := by
  have hleast := symbolHeight?_heights_eq_some_iff.mp hn
  obtain ⟨d, hd, rfl, hheight⟩ := hleast.exists_derivation
  cases hd with
  | terminal hterminal =>
      rw [Derivation.root, hterminal] at hs
      cases hs
  | @node r children hr hroots hvalid =>
      obtain ⟨m, hm, hrule⟩ := (heightsCover_heights g _).exists_ruleHeight?_le hroots hvalid
        (Nat.le_refl _)
      obtain ⟨e, he, hroot, hattained⟩ := (heightsSound_heights g).exists_derivation hr hrule
      have hle := hleast.le_height e he hroot
      rw [Derivation.height] at hheight
      obtain rfl : m = n := by omega
      exact ⟨r, mem_rulesFor.mpr ⟨hr, rfl⟩, hrule⟩

end ChartParser.Grammar
