import ChartParser.Proofs.GenerationHeights
import Mathlib.Data.List.Permutation

/-!
# How many passes the heights take

The passes over the rules are counted here by a relation that knows of no
limit. A pass after which all least heights are covered has only one more pass
behind it, which changes nothing, and the number of non-terminals bounds the
passes that are needed to cover them. So the limit on the passes is never met,
and the heights that are left when they end are the least heights of the
non-terminals that have any.
-/
namespace ChartParser.Grammar

/-- Passing over the rules until a pass changes nothing leads from the first heights to the
second, in this many passes with the last one counted. -/
inductive SettlesIn (g : Grammar) : Heights → ℕ → Heights → Prop
  | last {h : Heights} : (g.improveBy g.rules h).2 = false →
      SettlesIn g h 1 (g.improveBy g.rules h).1
  | more {h h' : Heights} {passes : ℕ} : (g.improveBy g.rules h).2 = true →
      SettlesIn g (g.improveBy g.rules h).1 passes h' → SettlesIn g h (passes + 1) h'

variable {g : Grammar} {h h' : Heights} {passes : ℕ}

theorem SettlesIn.unique (hh : g.SettlesIn h passes h') {passes' : ℕ} {h'' : Heights}
    (hh' : g.SettlesIn h passes' h'') : passes' = passes ∧ h'' = h' := by
  induction hh generalizing passes' with
  | last hflag =>
      cases hh' with
      | last _ => exact ⟨rfl, rfl⟩
      | more hflag' _ => simp [hflag] at hflag'
  | more hflag _ ih =>
      cases hh' with
      | last hflag' => simp [hflag] at hflag'
      | more _ hrest =>
          obtain ⟨hpasses, hheights⟩ := ih hrest
          exact ⟨congrArg (· + 1) hpasses, hheights⟩

/-- With at least so many passes allowed, the limit makes no difference. -/
theorem SettlesIn.settle_eq (hh : g.SettlesIn h passes h') {limit : ℕ} (hlimit : passes ≤ limit) :
    g.settle limit h = h' := by
  induction hh generalizing limit with
  | last hflag =>
      obtain ⟨limit, rfl⟩ := Nat.exists_eq_add_of_le' hlimit
      unfold settle
      split
      · rename_i heq
        simp [heq] at hflag
      · rename_i heq
        rw [heq]
  | more hflag _ ih =>
      obtain ⟨limit, rfl⟩ := Nat.exists_eq_add_of_le' (Nat.le_trans (Nat.le_add_left 1 _) hlimit)
      unfold settle
      split
      · rename_i heq
        rw [heq] at ih
        exact ih (by omega)
      · rename_i heq
        simp [heq] at hflag

/-! ### The number of passes -/

/-- Where every derivation is covered no rule improves on anything. -/
theorem improveBy_unchanged (hsound : g.HeightsSound h) (hcover : ∀ k, g.HeightsCover h k)
    {rules : List Rule} (hrules : rules ⊆ g.rules) : (g.improveBy rules h).2 = false := by
  induction rules with
  | nil => rfl
  | cons r rest ih =>
      obtain ⟨hr, hrest⟩ := List.cons_subset.mp hrules
      have himp : g.improvement? h r = none := by
        rw [improvement?_eq_none_iff]
        intro n hn
        obtain ⟨d, hd, hroot, rfl⟩ := hsound.exists_derivation hr hn
        obtain ⟨m, hm, hentry⟩ := hcover _ d hd (Nat.le_refl _)
        rw [hroot, symbolHeight?, if_pos (isNonTerminal_iff.mpr ⟨r, hr, rfl⟩)] at hentry
        exact ⟨m, hm, hentry⟩
      unfold improveBy
      rw [himp]
      exact ih hrest

/-- Each pass covers one height more, and once all least heights are covered one last pass is
made. -/
theorem exists_settlesIn {bound : ℕ} (hbound : ∀ s n, g.LeastHeight s n → n ≤ bound) {k : ℕ}
    (hk : k ≤ bound) (hsound : g.HeightsSound h) (hcover : g.HeightsCover h k) :
    ∃ passes, passes + k ≤ bound + 1 ∧ ∃ h', g.SettlesIn h passes h' := by
  induction hleft : bound - k generalizing h k with
  | zero =>
      obtain rfl : k = bound := by omega
      have hflag := improveBy_unchanged hsound (hcover.of_leastHeight_le hbound)
        (List.Subset.refl g.rules)
      exact ⟨1, by omega, _, .last hflag⟩
  | succ left ih =>
      cases hflag : (g.improveBy g.rules h).2 with
      | false => exact ⟨1, by omega, _, .last hflag⟩
      | true =>
          obtain ⟨passes, hpasses, h', hrest⟩ := ih (by omega)
            (hsound.improveBy (List.Subset.refl g.rules)) hcover.improveBy (by omega)
          exact ⟨passes + 1, by omega, h', .more hflag hrest⟩

/-- The passes from no heights at all end in the settled heights. -/
theorem exists_settlesIn_heights (g : Grammar) {bound : ℕ}
    (hbound : ∀ s n, g.LeastHeight s n → n ≤ bound) :
    ∃ passes ≤ bound + 1, g.SettlesIn ∅ passes g.heights := by
  have hempty := heightsCover_zero g ∅
  obtain ⟨passes, hpasses, h', hrun⟩ :=
    exists_settlesIn hbound (Nat.zero_le bound) (heightsSound_empty g) hempty
  -- The number of rules, by which `heights` is limited, bounds the same passes.
  obtain ⟨passes', hpasses', h'', hrun'⟩ :=
    exists_settlesIn (fun _ _ hn => hn.le_length_rules) (Nat.zero_le _) (heightsSound_empty g)
      hempty
  obtain ⟨rfl, rfl⟩ := hrun.unique hrun'
  refine ⟨_, hpasses, ?_⟩
  rw [heights, hrun.settle_eq hpasses']
  exact hrun

/-! ### The entries -/

/-- Heights are entered for the heads of rules only. -/
theorem isNonTerminal_of_mem_heights {s : Symbol} (hs : s ∈ g.heights) :
    g.isNonTerminal s = true := by
  have hpass : ∀ h : Heights, (∀ u ∈ h, g.isNonTerminal u = true) →
      ∀ u ∈ (g.improveBy g.rules h).1, g.isNonTerminal u = true := by
    intro h hh
    refine improveBy_induction (P := fun h => ∀ u ∈ h, g.isNonTerminal u = true) ?_ hh
    intro h r n hr _ hh u hu
    rcases Std.HashMap.mem_insert.mp hu with heq | hu
    · exact isNonTerminal_iff.mpr ⟨r, hr, eq_of_beq heq⟩
    · exact hh u hu
  have hheads : ∀ u ∈ g.heights, g.isNonTerminal u = true :=
    settle_induction hpass (by simp) _
  exact hheads s hs

theorem heights_eq_some_iff {s : Symbol} {n : ℕ} :
    g.heights[s]? = some n ↔ g.isNonTerminal s = true ∧ g.LeastHeight s n := by
  rw [← symbolHeight?_heights_eq_some_iff]
  constructor
  · intro hn
    have hmem : s ∈ g.heights := Std.HashMap.mem_iff_isSome_getElem?.mpr (by rw [hn]; rfl)
    have hs := isNonTerminal_of_mem_heights hmem
    exact ⟨hs, by rw [symbolHeight?, if_pos hs, hn]⟩
  · intro hn
    obtain ⟨hs, hn⟩ := hn
    rwa [symbolHeight?, if_pos hs] at hn

theorem mem_heights_iff {s : Symbol} :
    s ∈ g.heights ↔ g.isNonTerminal s = true ∧ g.Productive s := by
  rw [Std.HashMap.mem_iff_isSome_getElem?, Option.isSome_iff_exists]
  constructor
  · intro h
    obtain ⟨n, hn⟩ := h
    obtain ⟨hs, hleast⟩ := heights_eq_some_iff.mp hn
    obtain ⟨d, hd, hroot, _⟩ := hleast.exists_derivation
    exact ⟨hs, d, hd, hroot⟩
  · intro h
    obtain ⟨hs, d, hd, rfl⟩ := h
    obtain ⟨n, hn⟩ := exists_leastHeight hd
    exact ⟨n, heights_eq_some_iff.mpr ⟨hs, hn⟩⟩

/-- A rule has a height where derivations can be put below its right-hand side. -/
theorem isSome_ruleHeight?_heights_iff {r : Rule} (hr : r ∈ g.rules) :
    (g.ruleHeight? g.heights r).isSome = true ↔ ∃ children : List Derivation,
      children.map Derivation.root = r.rhs ∧ (Derivation.node r.lhs children).ValidFor g := by
  rw [Option.isSome_iff_exists]
  constructor
  · intro h
    obtain ⟨n, hn⟩ := h
    obtain ⟨m, hm, _⟩ := Option.map_eq_some_iff.mp hn
    obtain ⟨children, hroots, hvalid, _⟩ := (heightsSound_heights g).exists_row hm
    exact ⟨children, hroots, .node hr hroots hvalid⟩
  · intro h
    obtain ⟨children, hroots, hnode⟩ := h
    obtain ⟨n, _, hn⟩ := (heightsCover_heights g _).exists_ruleHeight?_le hroots
      (fun _ hd => hnode.child hd) (Nat.le_refl _)
    exact ⟨n, hn⟩

/-- The passes over the rules end, at the latest with the one after as many as there are
non-terminals, and always with the settled heights. These have an entry for each non-terminal
with a finite derivation and no other, the height of its lowest derivations. By them a rule has
a height just if it stands at the root of a finite derivation, and some rule of each symbol with
an entry attains it. -/
theorem heights_exact (g : Grammar) :
    (∃ passes ≤ g.nonTerminals.length + 1, ∀ n h, g.SettlesIn ∅ n h ↔ n = passes ∧ h = g.heights) ∧
    (∀ s, s ∈ g.heights ↔ g.isNonTerminal s = true ∧ g.Productive s) ∧
    (∀ s n, g.heights[s]? = some n ↔ g.isNonTerminal s = true ∧ g.LeastHeight s n) ∧
    (∀ r ∈ g.rules, (g.ruleHeight? g.heights r).isSome = true ↔ ∃ children : List Derivation,
      children.map Derivation.root = r.rhs ∧ (Derivation.node r.lhs children).ValidFor g) ∧
    ∀ s, g.isNonTerminal s = true → g.Productive s → ∃ n, g.heights[s]? = some n ∧
      ∃ r ∈ g.rulesFor s, g.ruleHeight? g.heights r = some n := by
  refine ⟨?_, fun _ => mem_heights_iff, fun _ _ => heights_eq_some_iff,
    fun _ => isSome_ruleHeight?_heights_iff, ?_⟩
  · obtain ⟨passes, hpasses, hrun⟩ := exists_settlesIn_heights g fun s n hn =>
      hn.le_length fun u hu => mem_nonTerminals.mpr hu
    refine ⟨passes, hpasses, fun n h => ⟨hrun.unique, ?_⟩⟩
    intro hsame
    obtain ⟨rfl, rfl⟩ := hsame
    exact hrun
  · intro s hs hprod
    have hmem := mem_heights_iff.mpr ⟨hs, hprod⟩
    rw [Std.HashMap.mem_iff_isSome_getElem?, Option.isSome_iff_exists] at hmem
    obtain ⟨n, hn⟩ := hmem
    have hheight : g.symbolHeight? g.heights s = some n := by rw [symbolHeight?, if_pos hs, hn]
    exact ⟨n, hn, exists_rule_of_symbolHeight? hs hheight⟩

/-- A pass in this order finds a way from `S` through `B` before the shorter one through `C`, and
none that ends from `T`. -/
def detour : Grammar where
  name := "detour"
  symbols := [⟨"A"⟩, ⟨"a"⟩, ⟨"B"⟩, ⟨"S"⟩, ⟨"C"⟩, ⟨"T"⟩]
  start := ⟨"S"⟩
  rules := [⟨⟨"A"⟩, [⟨"a"⟩]⟩, ⟨⟨"B"⟩, [⟨"A"⟩, ⟨"A"⟩]⟩, ⟨⟨"S"⟩, [⟨"a"⟩, ⟨"B"⟩]⟩, ⟨⟨"S"⟩, [⟨"C"⟩]⟩,
    ⟨⟨"C"⟩, []⟩, ⟨⟨"T"⟩, [⟨"S"⟩, ⟨"T"⟩]⟩]

/-- The second pass corrects the height of `S` and the third one changes nothing. -/
theorem heights_exact_detour :
    detour.SettlesIn ∅ 3 detour.heights ∧ 3 ≤ detour.nonTerminals.length + 1 ∧
    detour.heights[(⟨"S"⟩ : Symbol)]? = some 2 ∧ detour.LeastHeight ⟨"S"⟩ 2 ∧
    (∃ children : List Derivation, children.map Derivation.root = [⟨"C"⟩] ∧
      (Derivation.node ⟨"S"⟩ children).ValidFor detour) ∧
    (⟨"T"⟩ : Symbol) ∉ detour.heights ∧ ¬detour.Productive ⟨"T"⟩ := by
  obtain ⟨⟨passes, hpasses, hruns⟩, hmem, hentry, hrule, _⟩ := heights_exact detour
  have hthree : ∃ h, detour.SettlesIn ∅ 3 h :=
    ⟨_, .more (by cbv) (.more (by cbv) (.last (by cbv)))⟩
  obtain ⟨h, hrun⟩ := hthree
  obtain ⟨rfl, rfl⟩ := (hruns 3 h).mp hrun
  have hlow : detour.heights[(⟨"S"⟩ : Symbol)]? = some 2 := by cbv
  have hshort : (detour.ruleHeight? detour.heights ⟨⟨"S"⟩, [⟨"C"⟩]⟩).isSome = true := by cbv
  have hnone : (detour.heights[(⟨"T"⟩ : Symbol)]?).isSome = false := by cbv
  have hendless : (⟨"T"⟩ : Symbol) ∉ detour.heights := by
    rw [Std.HashMap.mem_iff_isSome_getElem?, hnone]
    exact Bool.false_ne_true
  refine ⟨hrun, hpasses, hlow, ((hentry _ _).mp hlow).2, ?_, hendless, ?_⟩
  · exact (hrule ⟨⟨"S"⟩, [⟨"C"⟩]⟩ (by decide)).mp hshort
  · intro hprod
    exact hendless ((hmem _).mpr ⟨by decide, hprod⟩)

end ChartParser.Grammar
