import ChartParser.Proofs.RuleLineTokens
import Mathlib.Data.List.Basic

/-!
# The verdict on a line

What a line is taken for is decided by its tokens in a fixed order of questions:
whether there are any, whether the first is a name, whether the second is an
equals sign, and whether there is another equals sign after that. Bars raise no
question. They only cut what follows the equals sign into alternatives, and
every cut has an alternative on both sides, if an empty one.
-/
namespace ChartParser.GrammarFile

section Lists
variable {α : Type} {sep : α} {pieces : List (List α)}

theorem exists_mem_of_mem_intercalate {a : α} (ha : a ∈ [sep].intercalate pieces)
    (hne : a ≠ sep) : ∃ piece ∈ pieces, a ∈ piece := by
  induction pieces with
  | nil => cases ha
  | cons piece pieces ih =>
      cases pieces with
      | nil =>
          rw [List.intercalate_singleton] at ha
          exact ⟨piece, List.mem_cons_self, ha⟩
      | cons next pieces =>
          rw [List.intercalate_cons_cons, List.mem_append, List.mem_append,
            List.mem_singleton] at ha
          rcases ha with (ha | ha) | ha
          · exact ⟨piece, List.mem_cons_self, ha⟩
          · exact absurd ha hne
          · obtain ⟨p, hp, hap⟩ := ih ha
            exact ⟨p, List.mem_cons_of_mem piece hp, hap⟩

/-- Pieces with a separator between any two of them are more by one than the separators. -/
theorem length_eq_count_intercalate [DecidableEq α] (hne : pieces ≠ [])
    (hsep : ∀ piece ∈ pieces, sep ∉ piece) :
    pieces.length = ([sep].intercalate pieces).count sep + 1 := by
  induction pieces with
  | nil => exact absurd rfl hne
  | cons piece pieces ih =>
      have hpiece : piece.count sep = 0 := List.count_eq_zero.mpr (hsep piece List.mem_cons_self)
      cases pieces with
      | nil => rw [List.intercalate_singleton, hpiece, List.length_singleton]
      | cons next pieces =>
          have hrest := ih (List.cons_ne_nil _ _)
            fun p hp => hsep p (List.mem_cons_of_mem piece hp)
          rw [List.intercalate_cons_cons, List.length_cons, hrest, List.count_append,
            List.count_append, hpiece, List.count_singleton_self]
          omega

end Lists

namespace RuleLine
variable {number : ℕ} {tokens : List Token}

/-! ### Alternatives -/

theorem length_alternativesOf {alternatives : List (List Item)}
    (h : alternativesOf tokens = .ok alternatives) :
    alternatives.length = tokens.count .bar + 1 := by
  obtain ⟨hne, htokens⟩ := alternativesOf_eq_ok_iff.mp h
  have hpieces : alternatives.map (·.map Item.toToken) ≠ [] := by
    rwa [ne_eq, List.map_eq_nil_iff]
  rw [htokens, ← length_eq_count_intercalate hpieces, List.length_map]
  intro piece hpiece
  obtain ⟨items, _, rfl⟩ := List.mem_map.mp hpiece
  exact Item.bar_not_mem_map_toToken items

theorem equals_not_mem_of_alternativesOf {alternatives : List (List Item)}
    (h : alternativesOf tokens = .ok alternatives) : .equals ∉ tokens := by
  intro hequals
  rw [(alternativesOf_eq_ok_iff.mp h).2] at hequals
  obtain ⟨piece, hpiece, hmem⟩ := exists_mem_of_mem_intercalate hequals (by simp)
  obtain ⟨items, _, rfl⟩ := List.mem_map.mp hpiece
  obtain ⟨i, _, hi⟩ := List.mem_map.mp hmem
  cases i with
  | bare name => cases hi
  | quoted name => cases hi

/-- Cutting at bars fails for the sake of an equals sign, and only for that. -/
theorem alternativesOf_eq_error_iff {fault : Fault} :
    alternativesOf tokens = .error fault ↔ .equals ∈ tokens ∧ fault = .unexpectedEquals := by
  constructor
  · intro h
    have hfault := alternativesOf_eq_error h
    subst hfault
    obtain ⟨piece, hpiece, herror⟩ := exists_of_mapM_eq_error h
    obtain ⟨t, ht, htoken⟩ := exists_of_mapM_eq_error herror
    have hmem : t ∈ tokens := by
      have hsub : piece ⊆ [Token.bar].intercalate (tokens.splitOn .bar) := subset_intercalate hpiece
      rw [List.intercalate_splitOn] at hsub
      exact hsub ht
    cases t with
    | equals => exact ⟨hmem, rfl⟩
    | bar => cases htoken
    | name text => cases htoken
    | quoted text => cases htoken
  · intro h
    obtain ⟨hequals, rfl⟩ := h
    cases h : alternativesOf tokens with
    | error fault => rw [alternativesOf_eq_error h]
    | ok alternatives => exact absurd hequals (equals_not_mem_of_alternativesOf h)

/-! ### The questions in their order -/

theorem ofTokens_of_no_name (h : ∀ head, tokens.head? ≠ some (.name head)) :
    ofTokens number tokens = .error .missingNonTerminal := by
  unfold ofTokens
  split
  · exact absurd rfl (h _)
  · exact absurd rfl (h _)
  · rfl

theorem ofTokens_of_no_equals {head : String} (h : tokens.head? ≠ some .equals) :
    ofTokens number (.name head :: tokens) = .error .missingEquals := by
  unfold ofTokens
  split
  · next heq =>
    cases heq
    exact absurd rfl h
  · rfl
  · next _ hno =>  exact absurd rfl (hno _ _)

theorem ofTokens_name_equals (head : String) : ofTokens number (.name head :: .equals :: tokens) =
    (alternativesOf tokens).map fun alternatives => { head, alternatives, number } := rfl

/-- A row of tokens has no name in front, or a name without an equals sign, or both. -/
theorem head_cases (tokens : List Token) : (∀ head, tokens.head? ≠ some (.name head)) ∨
    (∃ head rest, tokens = .name head :: rest ∧ rest.head? ≠ some .equals) ∨
    ∃ head rest, tokens = .name head :: .equals :: rest := by
  rcases tokens with _ | ⟨t, rest⟩
  · simp
  · cases t with
    | name head =>
        by_cases hequals : rest.head? = some .equals
        · obtain ⟨after, rfl⟩ := List.head?_eq_some_iff.mp hequals
          exact Or.inr (Or.inr ⟨head, after, rfl⟩)
        · exact Or.inr (Or.inl ⟨head, rest, rfl, hequals⟩)
    | equals => simp
    | bar => simp
    | quoted text => simp

theorem ofTokens_verdict (number : ℕ) (tokens : List Token) :
    (ofTokens number tokens = .error .missingNonTerminal ↔
      ∀ head, tokens.head? ≠ some (.name head)) ∧
    (ofTokens number tokens = .error .missingEquals ↔
      (∃ head, tokens.head? = some (.name head)) ∧ tokens[1]? ≠ some .equals) ∧
    (ofTokens number tokens = .error .unexpectedEquals ↔
      (∃ head, tokens.head? = some (.name head)) ∧ tokens[1]? = some .equals ∧
        .equals ∈ tokens.drop 2) ∧
    ((∃ l, ofTokens number tokens = .ok l) ↔
      (∃ head, tokens.head? = some (.name head)) ∧ tokens[1]? = some .equals ∧
        .equals ∉ tokens.drop 2) := by
  rcases head_cases tokens with hname | ⟨head, rest, rfl, hequals⟩ | ⟨head, rest, rfl⟩
  · rw [ofTokens_of_no_name hname]
    simp [hname]
  · rw [ofTokens_of_no_equals hequals]
    rw [List.head?_eq_getElem?] at hequals
    simp [hequals]
  · rw [ofTokens_name_equals]
    by_cases hmem : .equals ∈ rest
    · rw [alternativesOf_eq_error_iff.mpr ⟨hmem, rfl⟩]
      simp [Except.map, hmem]
    · cases halternatives : alternativesOf rest with
      | error fault => exact absurd (alternativesOf_eq_error_iff.mp halternatives).1 hmem
      | ok alternatives => simp [Except.map, hmem]

/-! ### The verdict -/

theorem ofText_of_lex {line : List Char} (hlex : Token.lex line = .ok tokens) (hne : tokens ≠ []) :
    ofText number line = (ofTokens number tokens).map some := by
  obtain ⟨t, rest, rfl⟩ := List.exists_cons_of_ne_nil hne
  simp only [ofText, hlex]

theorem ofText_eq_unmatchedQuote_iff {line : List Char} :
    ofText number line = .error .unmatchedQuote ↔ ∃ fault, Token.lex line = .error fault := by
  unfold ofText
  constructor
  · intro h
    split at h
    · next fault hlex => exact ⟨fault, hlex⟩
    · cases h
    · have hfault := ofTokens_eq_error (map_eq_error_iff.mp h)
      simp at hfault
  · intro h
    obtain ⟨fault, hlex⟩ := h
    rw [lex_eq_error hlex] at hlex
    simp only [hlex]

/-- A rule line says again what was read: its head, and its alternatives with bars between. -/
theorem tokens_of_ofText {line : List Char} (hlex : Token.lex line = .ok tokens) {l : RuleLine}
    (h : ofText number line = .ok (some l)) :
    l.number = number ∧ tokens.head? = some (.name l.head) ∧
      [Token.bar].intercalate (l.alternatives.map (·.map Item.toToken)) = tokens.drop 2 ∧
      l.alternatives.length = (tokens.drop 2).count .bar + 1 := by
  obtain ⟨hline, hne, hnumber⟩ := ofText_eq_ok_some_iff.mp h
  obtain rfl : tokens = l.tokens := Except.ok.inj (hlex.symm.trans hline)
  have hlength := length_alternativesOf (alternativesOf_eq_ok_iff.mpr ⟨hne, rfl⟩)
  exact ⟨hnumber, rfl, rfl, hlength⟩

/-- A line is refused for an open quote, or else passed over for want of tokens, or else refused
because it begins with no name, or else because no equals sign comes next, or else because another
one comes later. Any other line is a rule line, with the first token for its head and what
follows the equals sign, cut at every bar, for its alternatives. No bar is ever left in an
alternative. -/
theorem ofText_verdict (number : ℕ) (line : List Char) :
    (ofText number line = .error .unmatchedQuote ↔ ∃ fault, Token.lex line = .error fault) ∧
    (∀ tokens, Token.lex line = .ok tokens →
      (ofText number line = .ok none ↔ tokens = []) ∧
      (ofText number line = .error .missingNonTerminal ↔
        tokens ≠ [] ∧ ∀ head, tokens.head? ≠ some (.name head)) ∧
      (ofText number line = .error .missingEquals ↔
        (∃ head, tokens.head? = some (.name head)) ∧ tokens[1]? ≠ some .equals) ∧
      (ofText number line = .error .unexpectedEquals ↔
        (∃ head, tokens.head? = some (.name head)) ∧ tokens[1]? = some .equals ∧
          .equals ∈ tokens.drop 2) ∧
      ((∃ l, ofText number line = .ok (some l)) ↔
        (∃ head, tokens.head? = some (.name head)) ∧ tokens[1]? = some .equals ∧
          .equals ∉ tokens.drop 2) ∧
      ∀ l, ofText number line = .ok (some l) →
        l.number = number ∧ tokens.head? = some (.name l.head) ∧
          [Token.bar].intercalate (l.alternatives.map (·.map Item.toToken)) = tokens.drop 2 ∧
          l.alternatives.length = (tokens.drop 2).count .bar + 1) ∧
    ofText number line ≠ .error .unsplitAlternatives := by
  refine ⟨ofText_eq_unmatchedQuote_iff, ?_, ?_⟩
  · intro tokens hlex
    have hnone : ofText number line = .ok none ↔ tokens = [] := by
      rw [ofText_eq_ok_none_iff, hlex, Except.ok.injEq]
    obtain ⟨hname, hequals, hanother, hrule⟩ := ofTokens_verdict number tokens
    by_cases hnil : tokens = []
    · have hpassed := hnone.mpr hnil
      refine ⟨hnone, ?_, ?_, ?_, ?_, fun _ => tokens_of_ofText hlex⟩
      · simp [hpassed, hnil]
      · simp [hpassed, hnil]
      · simp [hpassed, hnil]
      · simp [hpassed, hnil]
    · have htext : ofText number line = (ofTokens number tokens).map some :=
        ofText_of_lex hlex hnil
      refine ⟨hnone, ?_, ?_, ?_, ?_, fun _ => tokens_of_ofText hlex⟩
      · rw [htext, map_eq_error_iff, hname]
        exact (and_iff_right hnil).symm
      · rw [htext, map_eq_error_iff, hequals]
      · rw [htext, map_eq_error_iff, hanother]
      · rw [htext, ← hrule]
        simp only [map_eq_ok_iff, Option.some.injEq, exists_eq_right]
  · intro h
    have hfault := mem_syntaxFaults_of_ofText h
    simp [syntaxFaults] at hfault

/-- A rule line with two empty alternatives and a quoted equals sign, and two lines that have more
than one thing wrong with them. -/
theorem ofText_verdict_lines :
    (∃ l, ofText 1 "S = A | | \"=\" |".toList = .ok (some l) ∧ l.head = "S" ∧
      l.alternatives.length = 4) ∧
    ofText 2 "\"S\" A = B = C".toList = .error .missingNonTerminal ∧
    ofText 3 "S A = B = C".toList = .error .missingEquals := by
  have hrule : Token.lex "S = A | | \"=\" |".toList =
      .ok [.name "S", .equals, .name "A", .bar, .bar, .quoted "=", .bar] := by with_unfolding_all rfl
  have hquoted : Token.lex "\"S\" A = B = C".toList = .ok [.quoted "S", .name "A", .equals,
      .name "B", .equals, .name "C"] := by with_unfolding_all rfl
  have hnames : Token.lex "S A = B = C".toList = .ok [.name "S", .name "A", .equals, .name "B",
      .equals, .name "C"] := by with_unfolding_all rfl
  refine ⟨?_, ?_, ?_⟩
  · obtain ⟨_, _, _, _, hexists, hcontent⟩ := (ofText_verdict 1 _).2.1 _ hrule
    obtain ⟨l, hl⟩ := hexists.mpr ⟨⟨"S", rfl⟩, rfl, by decide⟩
    obtain ⟨_, hhead, _, hlength⟩ := hcontent l hl
    exact ⟨l, hl, by simpa using hhead.symm, hlength⟩
  · exact ((ofText_verdict 2 _).2.1 _ hquoted).2.1.mpr (by simp)
  · exact ((ofText_verdict 3 _).2.1 _ hnames).2.2.1.mpr (by simp)

end RuleLine

end ChartParser.GrammarFile
