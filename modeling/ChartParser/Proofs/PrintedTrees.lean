import ChartParser.CommandLine.Session
import ChartParser.Proofs.NormalFormGate
import ChartParser.Proofs.ParseOutcome

/-!
# Reading printed trees back

Both printed forms say what the tree was, as long as no name contains a
character of the layout. In brackets a tree ends where a comma or a blank
follows, so no tree is the beginning of another one. With a line for each node
the depth is seen from the blanks in front, and how many children a node has
shows only where a line comes that is not as deep. Names may be empty.
-/
namespace ChartParser

/-- The first parts agree when their members have a property that what follows them lacks. -/
theorem append_inj_of_head {α : Type} {P : α → Prop} {s s' x y : List α} (hs : ∀ a ∈ s, P a)
    (hs' : ∀ a ∈ s', P a) (hx : ∀ a ∈ x.head?, ¬P a) (hy : ∀ a ∈ y.head?, ¬P a)
    (h : s ++ x = s' ++ y) : s = s' ∧ x = y := by
  induction s generalizing s' with
  | nil =>
      cases s' with
      | nil => exact ⟨rfl, h⟩
      | cons b s' =>
          rw [List.nil_append] at h
          exact absurd (hs' b List.mem_cons_self) (hx b (by rw [h]; rfl))
  | cons a s ih =>
      cases s' with
      | nil =>
          rw [List.nil_append] at h
          exact absurd (hs a List.mem_cons_self) (hy a (by rw [← h]; rfl))
      | cons b s' =>
          rw [List.cons_append, List.cons_append, List.cons.injEq] at h
          have hrest := ih (fun c hc => hs c (List.mem_cons_of_mem a hc))
            (fun c hc => hs' c (List.mem_cons_of_mem b hc)) h.2
          exact ⟨by rw [h.1, hrest.1], hrest.2⟩

theorem Grammar.nodup_trees_of_parse {g : Grammar} {word : List String} {o : Outcome}
    (h : g.parse word = .ok o) : o.trees.Nodup := by
  have hg : g.firstViolation? = none := by
    rw [Option.eq_none_iff_forall_ne_some]
    intro e he
    rw [parse_eq_error_iff.mpr he] at h
    cases h
  obtain ⟨o', ho', _, _, htrees⟩ := parse_eq_ok hg word
  obtain rfl := Except.ok.inj (h.symm.trans ho')
  rw [htrees]
  exact (coherent_wordTable g word).nodup_parses g

/-- The name has none of the characters that lay out a printed tree. -/
def Symbol.Plain (a : Symbol) : Prop := ∀ c ∈ a.name.toList, c ∉ ['[', ']', ',', ' ', '\n']

instance (a : Symbol) : Decidable a.Plain := List.decidableBAll _ a.name.toList

namespace Tree

theorem eq_of_children_eq {t u : Tree} (hlabel : t.label = u.label)
    (hchildren : t.children = u.children) : t = u := by
  cases t <;> cases u <;> simp_all [label, children]

/-- Induction over trees in which the children are a list. -/
theorem induction_children {P : Tree → Prop} (step : ∀ t, (∀ c ∈ t.children, P c) → P t)
    (t : Tree) : P t := by
  induction t with
  | leaf a => exact step _ (by simp [children])
  | unary a t ih => exact step _ (by simpa [children] using ih)
  | binary a l r ihl ihr => exact step _ (by simpa [children] using And.intro ihl ihr)

/-- The labels of all nodes, a node before its children. -/
def labels : Tree → List Symbol
  | leaf a => [a]
  | unary a t => a :: t.labels
  | binary a l r => a :: (l.labels ++ r.labels)

def Plain (t : Tree) : Prop := ∀ a ∈ t.labels, a.Plain

instance (t : Tree) : Decidable t.Plain := List.decidableBAll _ t.labels

theorem plain_iff {t : Tree} : t.Plain ↔ t.label.Plain ∧ ∀ c ∈ t.children, c.Plain := by
  cases t <;> simp [Plain, labels, label, children, or_imp, forall_and]

/-! ### In brackets -/

/-- Nothing, or a comma or blank and anything after it, as it follows a name or a tree. -/
def Interrupts (rest : List Char) : Prop := ∀ c ∈ rest.head?, c = ',' ∨ c = ' '

theorem name_append_inj {a b : Symbol} (ha : a.Plain) (hb : b.Plain) {x y : List Char}
    (hx : Interrupts x) (hy : Interrupts y) (h : a.name.toList ++ x = b.name.toList ++ y) :
    a = b ∧ x = y := by
  have hmark : ∀ {z : List Char}, Interrupts z →
      ∀ c ∈ z.head?, ¬c ∉ ['[', ']', ',', ' ', '\n'] := by
    intro z hz c hc
    rcases hz c hc with rfl | rfl
    · decide
    · decide
  have hsplit := append_inj_of_head ha hb (hmark hx) (hmark hy) h
  exact ⟨congrArg Symbol.mk (String.toList_inj.mp hsplit.1), hsplit.2⟩

theorem name_append_ne_bracket {a : Symbol} (ha : a.Plain) {x : List Char} (hx : Interrupts x)
    (rest : List Char) : a.name.toList ++ x ≠ '[' :: rest := by
  intro h
  cases hname : a.name.toList with
  | nil =>
      rw [hname, List.nil_append] at h
      have hhead := hx '[' (by rw [h]; rfl)
      simp at hhead
  | cons c name =>
      rw [hname, List.cons_append, List.cons.injEq] at h
      have hc := ha c (by rw [hname]; exact List.mem_cons_self)
      simp [h.1] at hc

/-- What stands after the name in a pair of brackets: the children, the closing bracket and
whatever comes next. -/
def bracketTail (ts : List Tree) (rest : List Char) : List Char :=
  ts.flatMap (fun t => ',' :: ' ' :: t.render.toList) ++ ' ' :: ']' :: rest

theorem bracketTail_nil (rest : List Char) : bracketTail [] rest = ' ' :: ']' :: rest := rfl

theorem bracketTail_cons (t : Tree) (ts : List Tree) (rest : List Char) :
    bracketTail (t :: ts) rest = ',' :: ' ' :: (t.render.toList ++ bracketTail ts rest) := by
  simp [bracketTail]

theorem interrupts_bracketTail (ts : List Tree) (rest : List Char) :
    Interrupts (bracketTail ts rest) := by
  cases ts with
  | nil => simp [bracketTail_nil, Interrupts]
  | cons t ts => simp [bracketTail_cons, Interrupts]

theorem render_append_of_leaf {t : Tree} (h : t.children = []) (rest : List Char) :
    t.render.toList ++ rest = t.label.name.toList ++ rest := by
  cases t <;> simp_all [children, render, label]

theorem render_append_of_node {t : Tree} (h : t.children ≠ []) (rest : List Char) :
    t.render.toList ++ rest =
      '[' :: ' ' :: (t.label.name.toList ++ bracketTail t.children rest) := by
  cases t <;> simp_all [children, render, label, bracketTail]

/-- The children of a node are counted by their commas. -/
theorem bracketTail_inj {ts us : List Tree} {x y : List Char} (hus : ∀ u ∈ us, u.Plain)
    (ih : ∀ t ∈ ts, ∀ u : Tree, u.Plain → ∀ x y, Interrupts x → Interrupts y →
      t.render.toList ++ x = u.render.toList ++ y → t = u ∧ x = y)
    (h : bracketTail ts x = bracketTail us y) : ts = us ∧ x = y := by
  induction ts generalizing us with
  | nil =>
      cases us with
      | nil => simpa [bracketTail_nil] using h
      | cons u us => simp [bracketTail_nil, bracketTail_cons] at h
  | cons t ts ihts =>
      cases us with
      | nil => simp [bracketTail_nil, bracketTail_cons] at h
      | cons u us =>
          rw [List.forall_mem_cons] at hus ih
          simp only [bracketTail_cons, List.cons.injEq, true_and] at h
          have hfirst := ih.1 u hus.1 _ _ (interrupts_bracketTail _ _)
            (interrupts_bracketTail _ _) h
          have hothers := ihts hus.2 ih.2 hfirst.2
          exact ⟨by rw [hfirst.1, hothers.1], hothers.2⟩

/-- A tree in brackets is read in one way only, whatever comes after it. -/
theorem render_append_inj {t : Tree} (ht : t.Plain) {u : Tree} (hu : u.Plain) {x y : List Char}
    (hx : Interrupts x) (hy : Interrupts y) (h : t.render.toList ++ x = u.render.toList ++ y) :
    t = u ∧ x = y := by
  induction t using induction_children generalizing u x y with
  | step t ih =>
      rw [plain_iff] at ht hu
      by_cases htleaf : t.children = []
      · rw [render_append_of_leaf htleaf] at h
        by_cases huleaf : u.children = []
        · rw [render_append_of_leaf huleaf] at h
          have hname := name_append_inj ht.1 hu.1 hx hy h
          exact ⟨eq_of_children_eq hname.1 (htleaf.trans huleaf.symm), hname.2⟩
        · rw [render_append_of_node huleaf] at h
          exact absurd h (name_append_ne_bracket ht.1 hx _)
      · rw [render_append_of_node htleaf] at h
        by_cases huleaf : u.children = []
        · rw [render_append_of_leaf huleaf] at h
          exact absurd h.symm (name_append_ne_bracket hu.1 hy _)
        · rw [render_append_of_node huleaf, List.cons.injEq, List.cons.injEq] at h
          have hname := name_append_inj ht.1 hu.1 (interrupts_bracketTail _ _)
            (interrupts_bracketTail _ _) h.2.2
          have hchildren := bracketTail_inj hu.2
            (fun c hc v hv x y hx hy => ih c hc (ht.2 c hc) hv hx hy) hname.2
          exact ⟨eq_of_children_eq hname.1 hchildren.1, hchildren.2⟩

theorem eq_of_render_eq {t u : Tree} (ht : t.Plain) (hu : u.Plain) (h : t.render = u.render) :
    t = u := by
  have hnone : Interrupts [] := by simp [Interrupts]
  exact (render_append_inj ht hu hnone hnone (congrArg (·.toList ++ []) h)).1

/-! ### On lines -/

theorem indented_inj {a b : Symbol} (ha : a.Plain) (hb : b.Plain) {d e : ℕ}
    (h : indented d a = indented e b) : d = e ∧ a = b := by
  have hblank : ∀ k, ∀ c ∈ List.replicate k ' ', c = ' ' := fun _ _ => List.eq_of_mem_replicate
  have hname : ∀ {c : Symbol}, c.Plain → ∀ x ∈ c.name.toList.head?, ¬x = ' ' := by
    intro c hc x hx heq
    have hplain := hc x (List.mem_of_mem_head? hx)
    simp [heq] at hplain
  have hchars := congrArg String.toList h
  simp only [indented, String.toList_append, String.toList_ofList] at hchars
  have hsplit := append_inj_of_head (hblank _) (hblank _) (hname ha) (hname hb) hchars
  have hlength := congrArg List.length hsplit.1
  simp only [List.length_replicate] at hlength
  exact ⟨by omega, congrArg Symbol.mk (String.toList_inj.mp hsplit.2)⟩

/-- Nothing, or lines of which the first is no deeper than the bound. -/
def Ascends (d : ℕ) (rest : List String) : Prop :=
  ∀ line ∈ rest.head?, ∃ e ≤ d, ∃ a : Symbol, a.Plain ∧ line = indented e a

theorem outline_eq (d : ℕ) (t : Tree) :
    outline d t = indented d t.label :: t.children.flatMap (outline (d + 1)) := by
  cases t <;> simp [outline, label, children]

theorem head?_outline_append (d : ℕ) (t : Tree) (rest : List String) :
    (outline d t ++ rest).head? = some (indented d t.label) := by
  rw [outline_eq]
  rfl

theorem Plain.not_ascends {t : Tree} (ht : t.Plain) (d : ℕ) (rest : List String) :
    ¬Ascends d (outline (d + 1) t ++ rest) := by
  intro h
  obtain ⟨e, he, a, ha, hline⟩ := h _ (head?_outline_append (d + 1) t rest)
  have hdepth := (indented_inj (plain_iff.mp ht).1 ha hline).1
  omega

theorem ascends_flatMap_outline {ts : List Tree} (hts : ∀ t ∈ ts, t.Plain) {d : ℕ}
    {rest : List String} (h : Ascends d rest) :
    Ascends (d + 1) (ts.flatMap (outline (d + 1)) ++ rest) := by
  intro line hline
  cases ts with
  | nil =>
      obtain ⟨e, he, hform⟩ := h line hline
      exact ⟨e, Nat.le_succ_of_le he, hform⟩
  | cons t ts =>
      rw [List.flatMap_cons, List.append_assoc, head?_outline_append, Option.mem_some_iff] at hline
      exact ⟨d + 1, Nat.le_refl _, t.label, (plain_iff.mp (hts t List.mem_cons_self)).1,
        hline.symm⟩

/-- The children of a node are those up to the first line that is not deeper than the node. -/
theorem flatMap_outline_inj {ts us : List Tree} (hts : ∀ t ∈ ts, t.Plain)
    (hus : ∀ u ∈ us, u.Plain) {d : ℕ} {x y : List String} (hx : Ascends d x) (hy : Ascends d y)
    (ih : ∀ t ∈ ts, ∀ u : Tree, u.Plain → ∀ x y, Ascends (d + 1) x → Ascends (d + 1) y →
      outline (d + 1) t ++ x = outline (d + 1) u ++ y → t = u ∧ x = y)
    (h : ts.flatMap (outline (d + 1)) ++ x = us.flatMap (outline (d + 1)) ++ y) :
    ts = us ∧ x = y := by
  induction ts generalizing us with
  | nil =>
      cases us with
      | nil => exact ⟨rfl, h⟩
      | cons u us =>
          rw [List.flatMap_nil, List.nil_append, List.flatMap_cons, List.append_assoc] at h
          rw [h] at hx
          exact absurd hx ((hus u List.mem_cons_self).not_ascends d _)
  | cons t ts ihts =>
      rw [List.flatMap_cons, List.append_assoc] at h
      cases us with
      | nil =>
          rw [List.flatMap_nil, List.nil_append] at h
          rw [← h] at hy
          exact absurd hy ((hts t List.mem_cons_self).not_ascends d _)
      | cons u us =>
          rw [List.flatMap_cons, List.append_assoc] at h
          rw [List.forall_mem_cons] at hts hus ih
          have hfirst := ih.1 u hus.1 _ _ (ascends_flatMap_outline hts.2 hx)
            (ascends_flatMap_outline hus.2 hy) h
          have hothers := ihts hts.2 hus.2 ih.2 hfirst.2
          exact ⟨by rw [hfirst.1, hothers.1], hothers.2⟩

/-- The lines of a tree are read in one way only, as long as no deeper line comes after them. -/
theorem outline_append_inj {t : Tree} (ht : t.Plain) {u : Tree} (hu : u.Plain) {d : ℕ}
    {x y : List String} (hx : Ascends d x) (hy : Ascends d y)
    (h : outline d t ++ x = outline d u ++ y) : t = u ∧ x = y := by
  induction t using induction_children generalizing u d x y with
  | step t ih =>
      rw [plain_iff] at ht hu
      rw [outline_eq, outline_eq, List.cons_append, List.cons_append, List.cons.injEq] at h
      have hlabel := (indented_inj ht.1 hu.1 h.1).2
      have hchildren := flatMap_outline_inj ht.2 hu.2 hx hy
        (fun c hc v hv x y hx hy => ih c hc (ht.2 c hc) hv hx hy) h.2
      exact ⟨eq_of_children_eq hlabel hchildren.1, hchildren.2⟩

theorem feed_not_mem_indented {a : Symbol} (ha : a.Plain) (d : ℕ) :
    '\n' ∉ (indented d a).toList := by
  simp only [indented, String.toList_append, String.toList_ofList, List.mem_append,
    List.mem_replicate, not_or]
  refine ⟨by simp, fun hmem => ?_⟩
  have hplain := ha '\n' hmem
  simp at hplain

theorem Plain.feed_not_mem_outline {t : Tree} (ht : t.Plain) (d : ℕ) :
    ∀ line ∈ outline d t, '\n' ∉ line.toList := by
  induction t using induction_children generalizing d with
  | step t ih =>
      rw [plain_iff] at ht
      rw [outline_eq, List.forall_mem_cons]
      refine ⟨feed_not_mem_indented ht.1 d, ?_⟩
      intro line hline
      obtain ⟨c, hc, hmem⟩ := List.mem_flatMap.mp hline
      exact ih c hc (ht.2 c hc) (d + 1) line hmem

theorem splitOn_pretty {t : Tree} (ht : t.Plain) :
    t.pretty.toList.splitOn '\n' = (t.outline 0).map String.toList := by
  rw [pretty, String.toList_intercalate]
  apply List.splitOn_intercalate
  · rw [List.forall_mem_map]
    exact ht.feed_not_mem_outline 0
  · rw [outline_eq]
    exact List.cons_ne_nil _ _

theorem eq_of_pretty_eq {t u : Tree} (ht : t.Plain) (hu : u.Plain) (h : t.pretty = u.pretty) :
    t = u := by
  have hlines : t.outline 0 = u.outline 0 := by
    have hinjective : Function.Injective String.toList := fun _ _ => String.toList_inj.mp
    apply List.map_injective_iff.mpr hinjective
    rw [← splitOn_pretty ht, ← splitOn_pretty hu, h]
  have hnone : Ascends 0 [] := by simp [Ascends]
  exact (outline_append_inj ht hu hnone hnone (congrArg (· ++ []) hlines)).1

/-- Trees whose names are plain are told apart by either printed form. So what is printed for a
word, one text for each of its derivations, differs from each other, in both modes of output. -/
theorem printed_forms_injective :
    (∀ t u : Tree, t.Plain → u.Plain →
      (t.render = u.render ↔ t = u) ∧ (t.pretty = u.pretty ↔ t = u)) ∧
    ∀ (g : Grammar) (word : List String) (o : Outcome), g.parse word = .ok o →
      (∀ t ∈ o.trees, t.Plain) → ∀ (options : Options) (shown : String),
        Block.treeLines options ⟨shown, o⟩ =
          o.trees.map (fun t => if options.pretty then t.pretty else t.render) ∧
        (Block.treeLines options ⟨shown, o⟩).Nodup := by
  constructor
  · intro t u ht hu
    exact ⟨⟨eq_of_render_eq ht hu, congrArg render⟩, ⟨eq_of_pretty_eq ht hu, congrArg pretty⟩⟩
  · intro g word o ho hplain options shown
    have hnodup := Grammar.nodup_trees_of_parse ho
    refine ⟨rfl, hnodup.map_on fun t ht u hu h => ?_⟩
    split_ifs at h
    · exact eq_of_pretty_eq (hplain t ht) (hplain u hu) h
    · exact eq_of_render_eq (hplain t ht) (hplain u hu) h

/-- The names of a derivation tree are names of the rules. -/
theorem ValidFor.plain {g : Grammar} (hg : ∀ r ∈ g.rules, r.lhs.Plain ∧ ∀ a ∈ r.rhs, a.Plain)
    {t : Tree} (ht : t.ValidFor g) : t.Plain := by
  induction ht with
  | unary hrule =>
      have hnames := hg _ hrule
      simp only [Plain, labels, List.forall_mem_cons]
      exact ⟨hnames.1, hnames.2 _ List.mem_cons_self, by simp⟩
  | binary hrule _ _ ihl ihr =>
      simp only [Plain, labels, List.forall_mem_cons, List.forall_mem_append]
      exact ⟨(hg _ hrule).1, ihl, ihr⟩

/-- The two ways to bracket three operands. -/
theorem printed_forms_injective_operators :
    let first := Grammar.joined "C" "c"
      (Grammar.joined "B" "b" Grammar.operand Grammar.operand) Grammar.operand
    let second := Grammar.joined "B" "b" Grammar.operand
      (Grammar.joined "C" "c" Grammar.operand Grammar.operand)
    first.Plain ∧ second.Plain ∧ first.render ≠ second.render ∧ first.pretty ≠ second.pretty ∧
    ∃ o, Grammar.operators.parse ["a", "b", "a", "c", "a"] = .ok o ∧ (∀ t ∈ o.trees, t.Plain) ∧
      first ∈ o.trees ∧ second ∈ o.trees ∧
      ∀ options shown, Block.treeLines options ⟨shown, o⟩ =
          o.trees.map (fun t => if options.pretty then t.pretty else t.render) ∧
        (Block.treeLines options ⟨shown, o⟩).Nodup := by
  intro first second
  have hnames : ∀ r ∈ Grammar.operators.rules, r.lhs.Plain ∧ ∀ a ∈ r.rhs, a.Plain := by
    decide
  have hfirst : first.ValidFor Grammar.operators :=
    Grammar.validFor_joined (by decide) (by decide) (Grammar.validFor_joined (by decide)
      (by decide) Grammar.validFor_operand Grammar.validFor_operand rfl rfl)
      Grammar.validFor_operand rfl rfl
  have hsecond : second.ValidFor Grammar.operators :=
    Grammar.validFor_joined (by decide) (by decide) Grammar.validFor_operand
      (Grammar.validFor_joined (by decide) (by decide) Grammar.validFor_operand
        Grammar.validFor_operand rfl rfl) rfl rfl
  have hne : first ≠ second := by decide
  have hforms := printed_forms_injective.1 first second (hfirst.plain hnames)
    (hsecond.plain hnames)
  obtain ⟨o, ho, _, _, htrees⟩ := Grammar.parse_eq_ok (g := Grammar.operators) (by decide)
    ["a", "b", "a", "c", "a"]
  have hmem : ∀ t, t ∈ o.trees ↔ t.ValidFor Grammar.operators ∧ t.label = ⟨"S"⟩ ∧
      t.leaves = ["a", "b", "a", "c", "a"] := by
    intro t
    rw [htrees]
    exact Grammar.mem_parses_wordTable
  have hplain : ∀ t ∈ o.trees, t.Plain := fun t ht => ((hmem t).mp ht).1.plain hnames
  exact ⟨hfirst.plain hnames, hsecond.plain hnames, fun h => hne (hforms.1.mp h),
    fun h => hne (hforms.2.mp h), o, ho, hplain, (hmem first).mpr ⟨hfirst, rfl, rfl⟩,
    (hmem second).mpr ⟨hsecond, rfl, rfl⟩, printed_forms_injective.2 _ _ o ho hplain⟩

end Tree

end ChartParser
