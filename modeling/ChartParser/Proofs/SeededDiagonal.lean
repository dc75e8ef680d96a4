import ChartParser.Chart.Parse
import ChartParser.Proofs.FillRecurrence

/-!
# The diagonal of a table

The one-symbol rules put the trees of each token into the cell of that token.
No other cell is touched, and no token looks at another one. The right side of
a rule is compared with the token by name only: whether it heads a rule itself
is not asked, so the statements hold for grammars of any form.
-/
namespace ChartParser.Grammar

theorem mem_tokenTrees {g : Grammar} {token : String} {t : Tree} :
    t ∈ g.tokenTrees token ↔ ∃ a, ⟨a, [⟨token⟩]⟩ ∈ g.rules ∧ t = .unary a (.leaf ⟨token⟩) := by
  simp only [tokenTrees, List.mem_filterMap, Option.bind_eq_some_iff,
    Rule.single?_eq_some_iff]
  constructor
  · intro h
    obtain ⟨⟨a, rhs⟩, hr, ⟨name⟩, rfl, ht⟩ := h
    split_ifs at ht with hname
    obtain rfl : name = token := hname
    exact ⟨a, hr, (Option.some.inj ht).symm⟩
  · intro h
    obtain ⟨a, hr, rfl⟩ := h
    exact ⟨_, hr, ⟨token⟩, rfl, if_pos rfl⟩

theorem seedFrom_cons (g : Grammar) (i : ℕ) (token : String) (tokens : List String) (T : Table) :
    (g.seedFrom i (token :: tokens) T).1 =
      (g.seedFrom (i + 1) tokens (T.insertAll ⟨i, i + 1⟩ (g.tokenTrees token)).1).1 := rfl

@[simp] theorem size_seedFrom (g : Grammar) (i : ℕ) (tokens : List String) (T : Table) :
    (g.seedFrom i tokens T).1.size = T.size := by
  induction tokens generalizing i T with
  | nil => rfl
  | cons token tokens ih => rw [seedFrom_cons, ih, Table.size_insertAll]

theorem coherent_seedFrom (g : Grammar) (i : ℕ) (tokens : List String) {T : Table}
    (hT : T.Coherent) : (g.seedFrom i tokens T).1.Coherent := by
  induction tokens generalizing i T with
  | nil => exact hT
  | cons token tokens ih =>
      rw [seedFrom_cons]
      exact ih (i + 1) (hT.insertAll _ _)

/-- Cells off the diagonal and those before the first position keep their trees. -/
theorem treesAt_seedFrom_of_ne {g : Grammar} {i : ℕ} {tokens : List String} {T : Table} {s : Span}
    (hs : ∀ j, i ≤ j → s ≠ ⟨j, j + 1⟩) :
    (g.seedFrom i tokens T).1.treesAt s = T.treesAt s := by
  induction tokens generalizing i T with
  | nil => rfl
  | cons token tokens ih =>
      rw [seedFrom_cons, ih fun j hj => hs j (by omega),
        Table.treesAt_insertAll_of_ne (hs i (Nat.le_refl i)).symm]

theorem treesAt_seedFrom_diagonal {g : Grammar} {i : ℕ} {tokens : List String} {T : Table}
    (hT : T.Coherent) (hsize : i + tokens.length ≤ T.size) {j : ℕ} (hj : j < tokens.length) :
    (g.seedFrom i tokens T).1.treesAt ⟨i + j, i + j + 1⟩ =
      appendNew (T.treesAt ⟨i + j, i + j + 1⟩) (g.tokenTrees tokens[j]) := by
  induction tokens generalizing i j T with
  | nil => simp at hj
  | cons token tokens ih =>
      rw [List.length_cons] at hj hsize
      have hcov : T.Covers ⟨i, i + 1⟩ := ⟨by simp, by simp only; omega⟩
      rw [seedFrom_cons]
      cases j with
      | zero =>
          simp only [Nat.add_zero, List.getElem_cons_zero]
          rw [treesAt_seedFrom_of_ne, hT.treesAt_insertAll_self hcov]
          intro k hk heq
          have hstart : i = k := congrArg Span.start heq
          omega
      | succ j =>
          have hne : (⟨i, i + 1⟩ : Span) ≠ ⟨i + 1 + j, i + 1 + j + 1⟩ := by
            intro heq
            have hstart : i = i + 1 + j := congrArg Span.start heq
            omega
          have hshift : i + (j + 1) = i + 1 + j := by omega
          simp only [hshift, List.getElem_cons_succ]
          have hrest := ih (i := i + 1) (hT.insertAll ⟨i, i + 1⟩ (g.tokenTrees token))
            (by rw [Table.size_insertAll]; omega) (j := j) (by omega)
          rw [hrest, Table.treesAt_insertAll_of_ne hne]

@[simp] theorem size_seed (g : Grammar) (word : List String) :
    (g.seed word).1.size = word.length :=
  size_seedFrom g 0 word _

theorem coherent_seed (g : Grammar) (word : List String) : (g.seed word).1.Coherent :=
  coherent_seedFrom g 0 word (Table.coherent_empty _)

theorem treesAt_seed_diagonal (g : Grammar) {word : List String} {i : ℕ} (hi : i < word.length) :
    (g.seed word).1.treesAt ⟨i, i + 1⟩ = appendNew [] (g.tokenTrees word[i]) := by
  have h := treesAt_seedFrom_diagonal (g := g) (i := 0) (Table.coherent_empty word.length)
    (by simp [Table.empty]) hi
  simpa only [seed, Nat.zero_add, Table.treesAt_empty] using h

theorem treesAt_seed_of_length_ne_one (g : Grammar) (word : List String) {s : Span}
    (hs : s.length ≠ 1) : (g.seed word).1.treesAt s = [] := by
  rw [seed, treesAt_seedFrom_of_ne, Table.treesAt_empty]
  intro j _ heq
  subst heq
  exact hs (by simp [Span.length])

end ChartParser.Grammar
