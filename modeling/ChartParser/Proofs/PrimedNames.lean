import ChartParser.Grammar.Fresh
import ChartParser.Proofs.LoadedGrammar
import Mathlib.Data.Finset.Card

/-!
# Primed names

A fresh name has as few primes as the vocabulary allows. How many these are is
bounded by the number of symbols in the vocabulary, since every name with fewer
primes is one of them. Bases and symbols may carry primes of their own, and a
vocabulary may list a symbol twice. That a fresh symbol is in no rule either is
due to loading, after which the vocabulary covers the rules.
-/
namespace ChartParser.Grammar

/-- The name followed by primes. -/
def primed (name : String) (k : ℕ) : String := name ++ .ofList (List.replicate k '\'')

@[simp] theorem primed_zero (name : String) : primed name 0 = name := by
  simp [primed]

theorem primed_push (name : String) (k : ℕ) :
    primed (name.push '\'') k = primed name (k + 1) := by
  apply String.toList_inj.mp
  simp [primed, List.replicate_succ]

@[simp] theorem length_primed (name : String) (k : ℕ) :
    (primed name k).length = name.length + k := by
  simp [primed]

theorem primed_injective (name : String) : Function.Injective (primed name) := by
  intro j k h
  have hlength := congrArg String.length h
  simpa only [length_primed, Nat.add_left_cancel_iff] using hlength

theorem exists_freshName (used : List String) (name : String) :
    ∃ k, freshName used name = primed name k ∧ ∀ j < k, primed name j ∈ used := by
  fun_induction freshName used name with
  | case1 name hused ih =>
      obtain ⟨k, hk, hfewer⟩ := ih
      refine ⟨k + 1, by rw [hk, primed_push], ?_⟩
      intro j hj
      cases j with
      | zero => rwa [primed_zero]
      | succ j =>
          rw [← primed_push]
          exact hfewer j (by omega)
  | case2 name _ => exact ⟨0, (primed_zero name).symm, by simp⟩

theorem freshSymbol_not_mem (g : Grammar) (base : String) : g.freshSymbol base ∉ g.symbols :=
  fun h => freshName_not_mem _ base (Symbol.name_mem_map.mpr h)

theorem exists_freshSymbol (g : Grammar) (base : String) :
    ∃ k, g.freshSymbol base = ⟨primed base k⟩ ∧ ∀ j < k, ⟨primed base j⟩ ∈ g.symbols := by
  obtain ⟨k, hk, hfewer⟩ := exists_freshName (g.symbols.map Symbol.name) base
  exact ⟨k, congrArg Symbol.mk hk, fun j hj => Symbol.name_mem_map.mp (hfewer j hj)⟩

/-- Names with different numbers of primes are different members of the vocabulary. -/
theorem le_card_symbols {g : Grammar} {base : String} {k : ℕ}
    (h : ∀ j < k, ⟨primed base j⟩ ∈ g.symbols) : k ≤ g.symbols.toFinset.card := by
  have hinjective : Function.Injective fun j => Symbol.mk (primed base j) :=
    fun _ _ heq => primed_injective base (Symbol.mk.inj heq)
  have hsubset : (Finset.range k).image (fun j => Symbol.mk (primed base j)) ⊆
      g.symbols.toFinset := by
    intro s hs
    obtain ⟨j, hj, rfl⟩ := Finset.mem_image.mp hs
    exact List.mem_toFinset.mpr (h j (Finset.mem_range.mp hj))
  have hcard := Finset.card_le_card hsubset
  rwa [Finset.card_image_of_injective _ hinjective, Finset.card_range] at hcard

/-! ### Creating symbols repeatedly -/

/-- The grammar with one symbol more in its vocabulary. -/
def withSymbol (g : Grammar) (s : Symbol) : Grammar :=
  { g with symbols := g.symbols ++ [s] }

/-- Symbols created one after the other from one base, each put into the vocabulary before the
next one is created. -/
def freshSymbols (g : Grammar) (base : String) : ℕ → List Symbol
  | 0 => []
  | n + 1 => g.freshSymbol base :: (g.withSymbol (g.freshSymbol base)).freshSymbols base n

theorem mem_symbols_withSymbol {g : Grammar} {s t : Symbol} :
    t ∈ (g.withSymbol s).symbols ↔ t ∈ g.symbols ∨ t = s := by
  rw [withSymbol, List.mem_append, List.mem_singleton]

theorem length_freshSymbols (g : Grammar) (base : String) (n : ℕ) :
    (g.freshSymbols base n).length = n := by
  induction n generalizing g with
  | zero => rfl
  | succ n ih => rw [freshSymbols, List.length_cons, ih]

theorem not_mem_of_mem_freshSymbols {g : Grammar} {base : String} {n : ℕ} {s : Symbol}
    (hs : s ∈ g.freshSymbols base n) : s ∉ g.symbols := by
  induction n generalizing g with
  | zero => cases hs
  | succ n ih =>
      rcases List.mem_cons.mp hs with rfl | hs
      · exact g.freshSymbol_not_mem base
      · intro hmem
        exact ih hs (mem_symbols_withSymbol.mpr (Or.inl hmem))

/-- What was left out below a created symbol was in the vocabulary before the first one. -/
theorem exists_of_mem_freshSymbols {g : Grammar} {base : String} {n : ℕ} {s : Symbol}
    (hs : s ∈ g.freshSymbols base n) : ∃ k, s = ⟨primed base k⟩ ∧
      ∀ j < k, ⟨primed base j⟩ ∈ g.symbols ∨ ⟨primed base j⟩ ∈ g.freshSymbols base n := by
  induction n generalizing g with
  | zero => cases hs
  | succ n ih =>
      rcases List.mem_cons.mp hs with rfl | hs
      · obtain ⟨k, hk, hfewer⟩ := g.exists_freshSymbol base
        exact ⟨k, hk, fun j hj => Or.inl (hfewer j hj)⟩
      · obtain ⟨k, hk, hfewer⟩ := ih hs
        refine ⟨k, hk, fun j hj => ?_⟩
        rw [freshSymbols, List.mem_cons, ← or_assoc, ← mem_symbols_withSymbol]
        exact hfewer j hj

theorem pairwise_freshSymbols (g : Grammar) (base : String) (n : ℕ) :
    (g.freshSymbols base n).Pairwise fun s t => s.name.length < t.name.length := by
  induction n generalizing g with
  | zero => exact List.Pairwise.nil
  | succ n ih =>
      refine List.pairwise_cons.mpr ⟨?_, ih _⟩
      intro t ht
      obtain ⟨k, hk, hfewer⟩ := g.exists_freshSymbol base
      obtain ⟨m, rfl, _⟩ := exists_of_mem_freshSymbols ht
      have hnew := not_mem_of_mem_freshSymbols ht
      rw [mem_symbols_withSymbol, not_or, hk] at hnew
      -- Fewer primes than the first symbol has make a name of the vocabulary.
      have hle : ¬m < k := fun hm => hnew.1 (hfewer m hm)
      have hne : m ≠ k := fun heq => hnew.2 (by rw [heq])
      rw [hk, length_primed, length_primed]
      omega

/-- A fresh symbol is named by the base and some primes, no more of them than there are symbols
in the vocabulary. It is not in the vocabulary, and each name with fewer primes is. In a loaded
grammar it occurs in no rule. Symbols created repeatedly from one base have longer and longer
names, and none is left out that the vocabulary did not have. -/
theorem freshSymbol_minimal (g : Grammar) (base : String) :
    (∃ k ≤ g.symbols.toFinset.card, g.freshSymbol base = ⟨primed base k⟩ ∧
      ⟨primed base k⟩ ∉ g.symbols ∧ ∀ j < k, ⟨primed base j⟩ ∈ g.symbols) ∧
    (∀ path text, GrammarFile.ofText path text = .ok g →
      (∀ r ∈ g.rules, g.freshSymbol base ≠ r.lhs ∧ g.freshSymbol base ∉ r.rhs) ∧
      g.isNonTerminal (g.freshSymbol base) = false) ∧
    ∀ n, (g.freshSymbols base n).length = n ∧
      (g.freshSymbols base n).Pairwise (fun s t => s.name.length < t.name.length) ∧
      (g.freshSymbols base n).Nodup ∧
      ∀ s ∈ g.freshSymbols base n, s ∉ g.symbols ∧ ∃ k, s = ⟨primed base k⟩ ∧
        ∀ j < k, ⟨primed base j⟩ ∈ g.symbols ∨ ⟨primed base j⟩ ∈ g.freshSymbols base n := by
  refine ⟨?_, ?_, ?_⟩
  · obtain ⟨k, hk, hfewer⟩ := g.exists_freshSymbol base
    exact ⟨k, le_card_symbols hfewer, hk, hk ▸ g.freshSymbol_not_mem base, hfewer⟩
  · intro path text h
    have hrules : ∀ r ∈ g.rules, g.freshSymbol base ≠ r.lhs ∧ g.freshSymbol base ∉ r.rhs := by
      intro r hr
      rw [ne_eq, ← not_or]
      intro hs
      exact g.freshSymbol_not_mem base ((GrammarFile.mem_symbols_of_ofText h).mpr ⟨r, hr, hs⟩)
    refine ⟨hrules, ?_⟩
    rw [← Bool.not_eq_true, isNonTerminal_iff]
    intro hhead
    obtain ⟨r, hr, hlhs⟩ := hhead
    exact (hrules r hr).1 hlhs.symm
  · intro n
    have hpairwise := g.pairwise_freshSymbols base n
    refine ⟨g.length_freshSymbols base n, hpairwise, ?_, ?_⟩
    · exact hpairwise.imp fun hlt heq => Nat.ne_of_lt hlt (congrArg _ (congrArg _ heq))
    · intro s hs
      exact ⟨not_mem_of_mem_freshSymbols hs, exists_of_mem_freshSymbols hs⟩

/-- Names that carry primes already, with a gap between them. -/
def gappedText : String := "S = S'' | \"a\"\nS'' = \"b\""

def gapped : Grammar where
  name := "gapped"
  symbols := [⟨"S"⟩, ⟨"S''"⟩, ⟨"a"⟩, ⟨"b"⟩]
  start := ⟨"S"⟩
  rules := [⟨⟨"S"⟩, [⟨"S''"⟩]⟩, ⟨⟨"S"⟩, [⟨"a"⟩]⟩, ⟨⟨"S''"⟩, [⟨"b"⟩]⟩]

/-- The rule lines of that text. -/
def gappedLines : List GrammarFile.RuleLine :=
  [⟨"S", [[.bare "S''"], [.quoted "a"]], 1⟩, ⟨"S''", [[.quoted "b"]], 2⟩]

theorem ofText_gappedText : GrammarFile.ofText "gapped.bnf" gappedText = .ok gapped := by
  have hfaults : GrammarFile.lineFaults "gapped.bnf" (GrammarFile.textLines gappedText) = [] := by
    with_unfolding_all rfl
  have hmisused : GrammarFile.misusedItems (GrammarFile.textLines gappedText) = [] := by with_unfolding_all rfl
  have hlines : GrammarFile.ruleLines (GrammarFile.textLines gappedText) = gappedLines := by with_unfolding_all rfl
  have hassemble : GrammarFile.assemble "gapped.bnf" "S" gappedLines = gapped := by decide +kernel
  exact GrammarFile.ofText_of_ruleLines hfaults hmisused hlines hassemble

/-- One prime fills the gap, and the next symbol passes over the name behind it. -/
theorem freshSymbol_minimal_gapped :
    GrammarFile.ofText "gapped.bnf" gappedText = .ok gapped ∧
    gapped.freshSymbol "S" = ⟨"S'"⟩ ∧
    (∀ r ∈ gapped.rules, ⟨"S'"⟩ ≠ r.lhs ∧ ⟨"S'"⟩ ∉ r.rhs) ∧
    gapped.isNonTerminal ⟨"S'"⟩ = false ∧
    gapped.freshSymbols "S" 3 = [⟨"S'"⟩, ⟨"S'''"⟩, ⟨"S''''"⟩] ∧
    ∀ s ∈ gapped.freshSymbols "S" 3, s ∉ gapped.symbols := by
  have hfirst : gapped.freshSymbol "S" = ⟨"S'"⟩ := by cbv
  have hcreated : gapped.freshSymbols "S" 3 = [⟨"S'"⟩, ⟨"S'''"⟩, ⟨"S''''"⟩] := by cbv
  obtain ⟨_, hloaded, hseries⟩ := freshSymbol_minimal gapped "S"
  obtain ⟨hrules, hhead⟩ := hloaded _ _ ofText_gappedText
  rw [hfirst] at hrules hhead
  obtain ⟨_, _, _, hnew⟩ := hseries 3
  exact ⟨ofText_gappedText, hfirst, hrules, hhead, hcreated, fun s hs => (hnew s hs).1⟩

end ChartParser.Grammar
