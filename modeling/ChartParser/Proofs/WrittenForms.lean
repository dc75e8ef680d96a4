import ChartParser.Proofs.LoadedGrammar
import ChartParser.Proofs.NormalFormRules

/-!
# The normal form as it is written

The check for the normal form sees names and asks which of them head a rule;
quotes are forgotten by then. In a file that loads, bare names are heads of
rules and quoted names are not, all over the file. So the check can be made
with the eye: what it says of a rule is told by the form of its alternative.
-/
namespace ChartParser.GrammarFile

/-- The alternatives of a text in the order of writing, each with the name that it defines. -/
def writtenAlternatives (text : String) : List (String × List Item) :=
  (ruleLines (textLines text)).flatMap fun l => l.alternatives.map (l.head, ·)

/-- The rule that an alternative stands for. -/
def alternativeRule (x : String × List Item) : Rule :=
  ⟨⟨x.1⟩, x.2.map fun item => ⟨item.name⟩⟩

/-- One quoted text, or two bare names. -/
def NormalItems (items : List Item) : Prop :=
  (∃ x, items = [.quoted x]) ∨ ∃ x y, items = [.bare x, .bare y]

/-- What is wrong with an alternative of any other form. -/
inductive MisformedItems : List Item → Violation → Prop
  | none : MisformedItems [] .emptyRightSide
  | bareAlone (x : String) : MisformedItems [.bare x] (.nonTerminalInUnaryRule ⟨x⟩)
  | quotedFirst (x : String) (i : Item) :
      MisformedItems [.quoted x, i] (.terminalInBinaryRule ⟨x⟩)
  | quotedSecond (x y : String) :
      MisformedItems [.bare x, .quoted y] (.terminalInBinaryRule ⟨y⟩)
  | long {items : List Item} : 2 < items.length → MisformedItems items (.tooLong items.length)

/-! ### One alternative -/

section Alternative
variable {g : Grammar} {head : String} {items : List Item}
  (hbare : ∀ x, .bare x ∈ items → g.isNonTerminal ⟨x⟩ = true)
  (hquoted : ∀ x, .quoted x ∈ items → g.isNonTerminal ⟨x⟩ = false)
include hbare hquoted

theorem normalRule_alternative :
    g.NormalRule (alternativeRule (head, items)) ↔ NormalItems items := by
  have eq_bare : ∀ i ∈ items, g.isNonTerminal ⟨i.name⟩ = true → i = .bare i.name := by
    intro i hi htrue
    cases i with
    | bare x => rfl
    | quoted x =>
        rw [Item.name, hquoted x hi] at htrue
        cases htrue
  constructor
  · intro h
    rcases h with ⟨a, ha, hterminal⟩ | ⟨b, c, hbc, hb, hc⟩
    · obtain ⟨i, rfl, rfl⟩ := List.map_eq_singleton_iff.mp ha
      cases i with
      | bare x =>
          rw [Item.name, hbare x List.mem_cons_self] at hterminal
          cases hterminal
      | quoted x => exact Or.inl ⟨x, rfl⟩
    · obtain ⟨i, rest, rfl, rfl, hrest⟩ := List.map_eq_cons_iff.mp hbc
      obtain ⟨j, rfl, rfl⟩ := List.map_eq_singleton_iff.mp hrest
      have hi := eq_bare i (by simp) hb
      have hj := eq_bare j (by simp) hc
      exact Or.inr ⟨i.name, j.name, by rw [← hi, ← hj]⟩
  · intro h
    rcases h with ⟨x, rfl⟩ | ⟨x, y, rfl⟩
    · exact Or.inl ⟨⟨x⟩, rfl, hquoted x List.mem_cons_self⟩
    · exact Or.inr ⟨⟨x⟩, ⟨y⟩, rfl, hbare x (by simp), hbare y (by simp)⟩

/-- Of two items the first quoted one is blamed, as the others head rules. -/
theorem misformedItems_of_violationOf? {v : Violation}
    (h : g.violationOf? (alternativeRule (head, items)) = some v) : MisformedItems items v := by
  match items with
  | [] =>
      cases h
      exact .none
  | [.bare x] =>
      have hx := hbare x List.mem_cons_self
      simp only [Grammar.violationOf?, alternativeRule, List.map_cons, List.map_nil, Item.name,
        hx, if_true, Option.some.injEq] at h
      rw [← h]
      exact .bareAlone x
  | [.quoted x] =>
      have hx := hquoted x List.mem_cons_self
      simp [Grammar.violationOf?, alternativeRule, Item.name, hx] at h
  | [.quoted x, i] =>
      have hx := hquoted x List.mem_cons_self
      simp only [Grammar.violationOf?, alternativeRule, List.map_cons, List.map_nil, Item.name,
        List.find?_cons, hx, Bool.not_false, Option.map_some, Option.some.injEq] at h
      rw [← h]
      exact .quotedFirst x i
  | [.bare x, .bare y] =>
      have hx := hbare x List.mem_cons_self
      have hy := hbare y (by simp)
      simp [Grammar.violationOf?, alternativeRule, Item.name, hx, hy] at h
  | [.bare x, .quoted y] =>
      have hx := hbare x List.mem_cons_self
      have hy := hquoted y (by simp)
      simp only [Grammar.violationOf?, alternativeRule, List.map_cons, List.map_nil, Item.name,
        List.find?_cons, hx, hy, Bool.not_true, Bool.not_false, Option.map_some,
        Option.some.injEq] at h
      rw [← h]
      exact .quotedSecond x y
  | i :: j :: k :: rest =>
      have hlength : ((i :: j :: k :: rest).map fun item => Symbol.mk item.name).length =
          (i :: j :: k :: rest).length := List.length_map _
      cases h
      exact hlength ▸ MisformedItems.long (by simp)

end Alternative

/-! ### The first alternative of another form -/

theorem rules_eq_map_alternativeRule {path text : String} {g : Grammar}
    (h : ofText path text = .ok g) :
    g.rules = (writtenAlternatives text).map alternativeRule := by
  rw [rules_of_ofText h, writtenAlternatives, List.map_flatMap]
  refine List.flatMap_congr fun l _ => ?_
  rw [List.map_map]
  rfl

theorem mem_writtenItems_of_alternative {text : String} {x : String × List Item}
    (hx : x ∈ writtenAlternatives text) {i : Item} (hi : i ∈ x.2) : i ∈ writtenItems text := by
  obtain ⟨l, hl, hx⟩ := List.mem_flatMap.mp hx
  obtain ⟨items, hitems, rfl⟩ := List.mem_map.mp hx
  exact mem_writtenItems.mpr ⟨l, hl, items, hitems, hi⟩

/-- The normal form of a loaded grammar is seen in its file: every alternative is one quoted text
or two bare names. Otherwise the violation that is reported is that of the first alternative of
any other form. -/
theorem inNormalForm_of_ofText {path text : String} {g : Grammar} (h : ofText path text = .ok g) :
    g.rules = (writtenAlternatives text).map alternativeRule ∧
    (g.inNormalForm = true ↔ ∀ x ∈ writtenAlternatives text, NormalItems x.2) ∧
    (g.inNormalForm = false → ∃ before x after v,
      writtenAlternatives text = before ++ x :: after ∧ (∀ y ∈ before, NormalItems y.2) ∧
        MisformedItems x.2 v ∧ g.firstViolation? = some ⟨alternativeRule x, v⟩) := by
  have hrules := rules_eq_map_alternativeRule h
  have hbare : ∀ x ∈ writtenAlternatives text, ∀ name, .bare name ∈ x.2 →
      g.isNonTerminal ⟨name⟩ = true :=
    fun x hx name hname => isNonTerminal_of_bare h (mem_writtenItems_of_alternative hx hname)
  have hquoted : ∀ x ∈ writtenAlternatives text, ∀ name, .quoted name ∈ x.2 →
      g.isNonTerminal ⟨name⟩ = false :=
    fun x hx name hname => isNonTerminal_of_quoted h (mem_writtenItems_of_alternative hx hname)
  have hnormal : ∀ x ∈ writtenAlternatives text,
      (g.violationOf? (alternativeRule x) = none ↔ NormalItems x.2) := by
    intro x hx
    rw [Grammar.violationOf?_eq_none_iff]
    exact normalRule_alternative (hbare x hx) (hquoted x hx)
  refine ⟨hrules, ?_, ?_⟩
  · rw [Grammar.inNormalForm, Option.isNone_iff_eq_none, Grammar.firstViolation?, hrules,
      List.findSome?_eq_none_iff, List.forall_mem_map]
    simp only [Option.map_eq_none_iff]
    exact forall₂_congr hnormal
  · intro hfalse
    rw [Grammar.inNormalForm, Option.isNone_eq_false_iff, Option.isSome_iff_exists] at hfalse
    obtain ⟨e, he⟩ := hfalse
    have hsplit := he
    rw [Grammar.firstViolation?, hrules, List.findSome?_eq_some_iff] at hsplit
    obtain ⟨front, r, back, hfront, hviolation, hnone⟩ := hsplit
    obtain ⟨before, rest, hwritten, rfl, hrest⟩ := List.map_eq_append_iff.mp hfront
    obtain ⟨x, after, rfl, rfl, rfl⟩ := List.map_eq_cons_iff.mp hrest
    obtain ⟨v, hv, rfl⟩ := Option.map_eq_some_iff.mp hviolation
    have hx : x ∈ writtenAlternatives text := by simp [hwritten]
    refine ⟨before, x, after, v, hwritten, ?_, ?_, he⟩
    · intro y hy
      have hmem : y ∈ writtenAlternatives text := by simp [hwritten, hy]
      have hpassed := hnone _ (List.mem_map_of_mem hy)
      exact (hnormal y hmem).mp (Option.map_eq_none_iff.mp hpassed)
    · exact misformedItems_of_violationOf? (hbare x hx) (hquoted x hx) hv

/-- The first alternative of the assignments has three items, and the empty one after it is not
looked at. -/
theorem inNormalForm_of_ofText_assignments :
    ofText "assign.bnf" assignmentText = .ok assignments ∧ assignments.inNormalForm = false ∧
    (¬∀ x ∈ writtenAlternatives assignmentText, NormalItems x.2) ∧
    ∃ before x after, writtenAlternatives assignmentText = before ++ x :: after ∧
      (∀ y ∈ before, NormalItems y.2) ∧ MisformedItems x.2 (.tooLong 3) ∧
      assignments.firstViolation? = some ⟨alternativeRule x, .tooLong 3⟩ := by
  have hfirst : assignments.firstViolation?.map NotNormalForm.violation = some (.tooLong 3) := by
    decide
  have hfalse : assignments.inNormalForm = false := by decide
  obtain ⟨_, hiff, hsome⟩ := inNormalForm_of_ofText ofText_assignmentText
  obtain ⟨before, x, after, v, hwritten, hbefore, hx, he⟩ := hsome hfalse
  obtain rfl : v = .tooLong 3 := by
    rw [he] at hfirst
    exact Option.some.inj hfirst
  refine ⟨ofText_assignmentText, hfalse, ?_, before, x, after, hwritten, hbefore, hx, he⟩
  intro hall
  rw [hiff.mpr hall] at hfalse
  cases hfalse

end ChartParser.GrammarFile
