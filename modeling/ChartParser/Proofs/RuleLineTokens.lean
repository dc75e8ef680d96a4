import ChartParser.GrammarFile.RuleLine
import ChartParser.Proofs.FileLines
import ChartParser.Proofs.LexedTokens

/-!
# Rule lines and their tokens

A rule line tells the tokens that it was read from: its head, an equals sign,
and its alternatives with a bar between any two of them. There is at least one
alternative, so this goes in both directions. Of the faults only four can be
found on a line by itself; in particular no bar is ever left inside an
alternative.
-/
namespace ChartParser.GrammarFile

section Lists
variable {ε α β : Type} {f : α → Except ε β}

theorem mapM_cons_eq_ok_iff {a : α} {as : List α} {bs : List β} :
    (a :: as).mapM f = .ok bs ↔ ∃ b rest, f a = .ok b ∧ as.mapM f = .ok rest ∧ b :: rest = bs := by
  rw [List.mapM_cons]
  cases f a with
  | error e => simp [bind, Except.bind]
  | ok b =>
      cases as.mapM f with
      | error e => simp [bind, Except.bind]
      | ok rest => simp [bind, Except.bind, pure, Except.pure]

theorem mapM_cons_eq_error_iff {a : α} {as : List α} {e : ε} :
    (a :: as).mapM f = .error e ↔
      f a = .error e ∨ ∃ b, f a = .ok b ∧ as.mapM f = .error e := by
  rw [List.mapM_cons]
  cases f a with
  | error e => simp [bind, Except.bind]
  | ok b =>
      cases as.mapM f with
      | error e => simp [bind, Except.bind]
      | ok rest => simp [bind, Except.bind, pure, Except.pure]

/-- If `f` accepts exactly the values of `back`, then so it does element by element. -/
theorem mapM_eq_ok_iff {back : β → α} (hf : ∀ a b, f a = .ok b ↔ a = back b) {as : List α}
    {bs : List β} : as.mapM f = .ok bs ↔ as = bs.map back := by
  induction as generalizing bs with
  | nil =>
      simp only [List.mapM_nil, pure, Except.pure, Except.ok.injEq]
      rw [eq_comm, eq_comm (a := []), List.map_eq_nil_iff]
  | cons a as ih =>
      simp only [mapM_cons_eq_ok_iff, hf, ih]
      rw [eq_comm, List.map_eq_cons_iff]
      simp only [eq_comm, and_comm, and_left_comm]

theorem exists_of_mapM_eq_error {as : List α} {e : ε} (h : as.mapM f = .error e) :
    ∃ a ∈ as, f a = .error e := by
  induction as with
  | nil => cases h
  | cons a as ih =>
      rcases mapM_cons_eq_error_iff.mp h with ha | ⟨_, _, has⟩
      · exact ⟨a, List.mem_cons_self, ha⟩
      · obtain ⟨a', ha', he⟩ := ih has
        exact ⟨a', List.mem_cons_of_mem a ha', he⟩

theorem subset_intercalate {sep piece : List α} {pieces : List (List α)} (h : piece ∈ pieces) :
    piece ⊆ sep.intercalate pieces := by
  induction pieces with
  | nil => cases h
  | cons first pieces ih =>
      cases pieces with
      | nil =>
          rw [List.intercalate_singleton, List.mem_singleton.mp h]
          exact List.Subset.refl _
      | cons second pieces =>
          rw [List.intercalate_cons_cons]
          rcases List.mem_cons.mp h with rfl | h
          · simp
          · exact List.Subset.trans (ih h) (by simp)

end Lists

/-- An item as it was read. -/
def Item.toToken : Item → Token
  | bare s => .name s
  | quoted s => .quoted s

theorem Item.ofToken_eq_ok_iff {t : Token} {i : Item} :
    ofToken t = .ok i ↔ t = i.toToken := by
  cases t <;> cases i <;> simp [ofToken, toToken]

theorem Item.bar_not_mem_map_toToken (items : List Item) : Token.bar ∉ items.map toToken := by
  intro h
  obtain ⟨i, _, hi⟩ := List.mem_map.mp h
  cases i <;> cases hi

namespace RuleLine

theorem alternativesOf_eq_ok_iff {tokens : List Token} {alternatives : List (List Item)} :
    alternativesOf tokens = .ok alternatives ↔ alternatives ≠ [] ∧
      tokens = [Token.bar].intercalate (alternatives.map (·.map Item.toToken)) := by
  have hitems : ∀ (piece : List Token) (items : List Item),
      piece.mapM Item.ofToken = .ok items ↔ piece = items.map Item.toToken :=
    fun _ _ => mapM_eq_ok_iff fun _ _ => Item.ofToken_eq_ok_iff
  rw [alternativesOf, mapM_eq_ok_iff hitems]
  constructor
  · intro h
    constructor
    · rintro rfl
      exact List.splitOn_ne_nil Token.bar tokens h
    · rw [← h, List.intercalate_splitOn]
  · intro h
    rw [h.2]
    apply List.splitOn_intercalate
    · intro piece hpiece
      obtain ⟨items, _, rfl⟩ := List.mem_map.mp hpiece
      exact Item.bar_not_mem_map_toToken items
    · rw [ne_eq, List.map_eq_nil_iff]
      exact h.1

/-- The tokens of a line that reads as this one. -/
def tokens (l : RuleLine) : List Token :=
  .name l.head :: .equals :: [Token.bar].intercalate (l.alternatives.map (·.map Item.toToken))

theorem ofTokens_eq_ok_iff {number : ℕ} {tokens : List Token} {l : RuleLine} :
    ofTokens number tokens = .ok l ↔
      tokens = l.tokens ∧ l.alternatives ≠ [] ∧ l.number = number := by
  constructor
  · intro h
    unfold ofTokens at h
    split at h
    · obtain ⟨alternatives, halternatives, rfl⟩ := map_eq_ok_iff.mp h
      obtain ⟨hne, htokens⟩ := alternativesOf_eq_ok_iff.mp halternatives
      refine ⟨?_, hne, rfl⟩
      rw [RuleLine.tokens, ← htokens]
    · cases h
    · cases h
  · intro h
    obtain ⟨rfl, hne, rfl⟩ := h
    rw [RuleLine.tokens, ofTokens, alternativesOf_eq_ok_iff.mpr ⟨hne, rfl⟩]
    rfl

theorem ofText_eq_ok_some_iff {number : ℕ} {text : List Char} {l : RuleLine} :
    ofText number text = .ok (some l) ↔
      Token.lex text = .ok l.tokens ∧ l.alternatives ≠ [] ∧ l.number = number := by
  unfold ofText
  cases hlex : Token.lex text with
  | error fault => simp
  | ok tokens =>
      cases tokens with
      | nil => simp [RuleLine.tokens]
      | cons t tokens =>
          dsimp only
          simp only [map_eq_ok_iff, Option.some.injEq, exists_eq_right, ofTokens_eq_ok_iff,
            Except.ok.injEq]

theorem ofText_eq_ok_none_iff {number : ℕ} {text : List Char} :
    ofText number text = .ok none ↔ Token.lex text = .ok [] := by
  unfold ofText
  cases hlex : Token.lex text with
  | error fault => simp
  | ok tokens =>
      cases tokens with
      | nil => simp
      | cons t tokens => simp [map_eq_ok_iff]

/-! ### Names on a line -/

theorem toToken_mem_tokens {l : RuleLine} {items : List Item} (hitems : items ∈ l.alternatives)
    {i : Item} (hi : i ∈ items) : i.toToken ∈ l.tokens := by
  have hsub : items.map Item.toToken ⊆
      [Token.bar].intercalate (l.alternatives.map (·.map Item.toToken)) :=
    subset_intercalate (List.mem_map_of_mem hitems)
  exact List.mem_cons_of_mem _ (List.mem_cons_of_mem _ (hsub (List.mem_map_of_mem hi)))

theorem bareName_head {number : ℕ} {text : List Char} {l : RuleLine}
    (h : ofText number text = .ok (some l)) : BareName l.head :=
  Token.wellFormed_of_lex (ofText_eq_ok_some_iff.mp h).1 (.name l.head) List.mem_cons_self

theorem wellFormed_item {number : ℕ} {text : List Char} {l : RuleLine}
    (h : ofText number text = .ok (some l)) {items : List Item} (hitems : items ∈ l.alternatives)
    {i : Item} (hi : i ∈ items) : i.toToken.WellFormed text :=
  Token.wellFormed_of_lex (ofText_eq_ok_some_iff.mp h).1 _ (toToken_mem_tokens hitems hi)

/-! ### Faults of a line -/

/-- The faults that a line can have by itself. -/
def syntaxFaults : List Fault :=
  [.unmatchedQuote, .missingNonTerminal, .missingEquals, .unexpectedEquals]

theorem lex_eq_error {text : List Char} {fault : Fault} (h : Token.lex text = .error fault) :
    fault = .unmatchedQuote := by
  fun_induction Token.lex text with
  | case1 => cases h
  | case2 rest ih => exact ih (map_eq_error_iff.mp h)
  | case3 rest _ ih => exact ih (map_eq_error_iff.mp h)
  | case4 rest e _ _ hread =>
      unfold Token.readQuoted at hread
      dsimp only at hread
      split at hread
      · cases hread
        cases h
        rfl
      · cases hread
  | case5 rest token _ _ _ ih => exact ih (map_eq_error_iff.mp h)
  | case6 => cases h
  | case7 c rest _ _ _ _ _ ih => exact ih h
  | case8 c rest _ _ _ _ _ ih => exact ih (map_eq_error_iff.mp h)

theorem alternativesOf_eq_error {tokens : List Token} {fault : Fault}
    (h : alternativesOf tokens = .error fault) : fault = .unexpectedEquals := by
  obtain ⟨piece, hpiece, herror⟩ := exists_of_mapM_eq_error h
  obtain ⟨t, ht, htoken⟩ := exists_of_mapM_eq_error herror
  cases t with
  | equals =>
      cases htoken
      rfl
  | bar => exact absurd ht (Text.not_mem_of_mem_splitOn hpiece)
  | name text => cases htoken
  | quoted text => cases htoken

theorem ofTokens_eq_error {number : ℕ} {tokens : List Token} {fault : Fault}
    (h : ofTokens number tokens = .error fault) :
    fault ∈ [.missingNonTerminal, .missingEquals, .unexpectedEquals] := by
  unfold ofTokens at h
  split at h
  · rw [alternativesOf_eq_error (map_eq_error_iff.mp h)]
    simp
  · cases h
    simp
  · cases h
    simp

theorem mem_syntaxFaults_of_ofText {number : ℕ} {text : List Char} {fault : Fault}
    (h : ofText number text = .error fault) : fault ∈ syntaxFaults := by
  unfold ofText at h
  split at h
  · next hlex =>
    cases h
    rw [lex_eq_error hlex]
    exact List.mem_cons_self
  · cases h
  · exact List.mem_cons_of_mem _ (ofTokens_eq_error (map_eq_error_iff.mp h))

end RuleLine

end ChartParser.GrammarFile
