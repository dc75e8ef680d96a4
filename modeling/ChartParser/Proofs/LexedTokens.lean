import ChartParser.GrammarFile.Token
import Mathlib.Data.List.TakeWhile

/-!
# What the tokens of a line are

From a line come names that no blank and no mark interrupts and quoted texts
without a quote in them, both made of characters of the line. In the other
direction each kind of token is read back from the way it is written, whatever
follows it; a name has to be followed by something that ends it.
-/
namespace ChartParser.GrammarFile

theorem map_eq_ok_iff {ε α β : Type} {f : α → β} {e : Except ε α} {b : β} :
    e.map f = .ok b ↔ ∃ a, e = .ok a ∧ f a = b := by
  cases e with
  | error fault => simp [Except.map]
  | ok a => simp [Except.map]

theorem map_eq_error_iff {ε α β : Type} {f : α → β} {e : Except ε α} {fault : ε} :
    e.map f = .error fault ↔ e = .error fault := by
  cases e with
  | error fault => simp [Except.map]
  | ok a => simp [Except.map]

/-- A text that can stand for a symbol without quotes. -/
structure BareName (text : String) : Prop where
  ne_empty : text ≠ ""
  no_blank : ∀ c ∈ text.toList, Text.isBlank c = false
  no_mark : ∀ c ∈ text.toList, c ∉ ['=', '|', '"', ';']

theorem BareName.not_mem_of_isBlank {text : String} (h : BareName text) {c : Char}
    (hc : Text.isBlank c = true) : c ∉ text.toList := by
  intro hmem
  have hblank := h.no_blank c hmem
  rw [hc] at hblank
  cases hblank

namespace Token

theorem endsName_eq_false_iff {c : Char} :
    endsName c = false ↔ Text.isBlank c = false ∧ c ∉ ['=', '|', '"', ';'] := by
  simp only [endsName, Bool.or_eq_false_iff, beq_eq_false_iff_ne, ne_eq, List.mem_cons,
    List.not_mem_nil, or_false, not_or, and_assoc]

theorem bareName_iff {text : String} :
    BareName text ↔ text.toList ≠ [] ∧ ∀ c ∈ text.toList, endsName c = false := by
  simp only [endsName_eq_false_iff]
  constructor
  · intro h
    exact ⟨fun hnil => h.ne_empty (String.toList_eq_nil_iff.mp hnil),
      fun c hc => ⟨h.no_blank c hc, h.no_mark c hc⟩⟩
  · intro h
    exact ⟨fun hempty => h.1 (String.toList_eq_nil_iff.mpr hempty), fun c hc => (h.2 c hc).1,
      fun c hc => (h.2 c hc).2⟩

instance (text : String) : Decidable (BareName text) :=
  decidable_of_iff (text.toList ≠ [] ∧ text.toList.all (!endsName ·) = true)
    (by simp [bareName_iff])

/-- What can be said of a token on a line of the given characters. -/
def WellFormed (line : List Char) : Token → Prop
  | equals | bar => True
  | name text => BareName text
  | quoted text => '"' ∉ text.toList ∧ text.toList ⊆ line

theorem WellFormed.mono {line line' : List Char} (hsub : line ⊆ line') {t : Token}
    (h : t.WellFormed line) : t.WellFormed line' := by
  cases t with
  | equals => trivial
  | bar => trivial
  | name text => exact h
  | quoted text => exact ⟨h.1, List.Subset.trans h.2 hsub⟩

/-! ### Reading a single token -/

theorem readQuoted_subset (cs : List Char) : (readQuoted cs).2 ⊆ cs := by
  have htail : cs.tail.dropWhile (· ≠ '"') ⊆ cs :=
    ((List.dropWhile_sublist _).trans (List.tail_sublist cs)).subset
  unfold readQuoted
  dsimp only
  split
  · exact List.nil_subset cs
  · next hrest =>
    rw [hrest] at htail
    exact List.Subset.trans (List.subset_cons_self _ _) htail

theorem wellFormed_of_readQuoted {cs : List Char} {t : Token}
    (h : (readQuoted cs).1 = .ok t) : t.WellFormed cs := by
  unfold readQuoted at h
  dsimp only at h
  split at h
  · cases h
  · cases h
    rw [WellFormed, String.toList_ofList]
    constructor
    · intro hquote
      have := List.mem_takeWhile_imp hquote
      simp at this
    · exact ((List.takeWhile_sublist _).trans (List.tail_sublist cs)).subset

theorem readName_subset (cs : List Char) : (readName cs).2 ⊆ cs :=
  (List.dropWhile_sublist _).subset

theorem wellFormed_of_readName {c : Char} (cs : List Char) (hc : endsName c = false) :
    ((readName (c :: cs)).1).WellFormed (c :: cs) := by
  rw [readName, WellFormed, bareName_iff, String.toList_ofList]
  constructor
  · rw [List.takeWhile_cons_of_pos (by simp [hc])]
    exact List.cons_ne_nil _ _
  · intro d hd
    have := List.mem_takeWhile_imp hd
    simpa using this

theorem readQuoted_quoted {text : String} (htext : '"' ∉ text.toList) (rest : List Char) :
    readQuoted ('"' :: (text.toList ++ '"' :: rest)) = (.ok (.quoted text), rest) := by
  have hbody : ∀ c ∈ text.toList, decide (c ≠ '"') = true := by
    intro c hc
    exact decide_eq_true fun heq => htext (heq ▸ hc)
  have htake : (text.toList ++ '"' :: rest).takeWhile (fun c => decide (c ≠ '"')) =
      text.toList := by
    rw [List.takeWhile_append_of_pos hbody]
    simp
  have hdrop : (text.toList ++ '"' :: rest).dropWhile (fun c => decide (c ≠ '"')) =
      '"' :: rest := by
    rw [List.dropWhile_append_of_pos hbody]
    simp
  simp only [readQuoted, List.tail_cons, hdrop, htake, String.ofList_toList]

theorem readName_name {text : String} (htext : BareName text) {rest : List Char}
    (hrest : ∀ c ∈ rest.head?, endsName c = true) :
    readName (text.toList ++ rest) = (.name text, rest) := by
  have hname : ∀ c ∈ text.toList, (!endsName c) = true := by
    intro c hc
    rw [(bareName_iff.mp htext).2 c hc]
    rfl
  have hstop : rest.takeWhile (!endsName ·) = [] ∧ rest.dropWhile (!endsName ·) = rest := by
    cases rest with
    | nil => exact ⟨rfl, rfl⟩
    | cons c rest =>
        have hc : endsName c = true := hrest c rfl
        simp [hc]
  rw [readName, List.takeWhile_append_of_pos hname, List.dropWhile_append_of_pos hname, hstop.1,
    hstop.2, List.append_nil, String.ofList_toList]

/-! ### Reading a line -/

theorem forall_wellFormed_cons {line rest : List Char} (hsub : rest ⊆ line) {t : Token}
    {tokens : List Token} (ht : t.WellFormed line) (h : ∀ u ∈ tokens, u.WellFormed rest) :
    ∀ u ∈ t :: tokens, u.WellFormed line := by
  intro u hu
  rcases List.mem_cons.mp hu with rfl | hu
  · exact ht
  · exact (h u hu).mono hsub

theorem wellFormed_of_lex {line : List Char} {tokens : List Token}
    (h : lex line = .ok tokens) : ∀ t ∈ tokens, t.WellFormed line := by
  fun_induction lex line generalizing tokens with
  | case1 =>
      cases h
      simp
  | case2 rest ih =>
      obtain ⟨others, hothers, rfl⟩ := map_eq_ok_iff.mp h
      exact forall_wellFormed_cons (List.subset_cons_self _ _) trivial (ih hothers)
  | case3 rest _ ih =>
      obtain ⟨others, hothers, rfl⟩ := map_eq_ok_iff.mp h
      exact forall_wellFormed_cons (List.subset_cons_self _ _) trivial (ih hothers)
  | case4 => cases h
  | case5 rest token _ _ htoken ih =>
      obtain ⟨others, hothers, rfl⟩ := map_eq_ok_iff.mp h
      exact forall_wellFormed_cons (readQuoted_subset _) (wellFormed_of_readQuoted htoken)
        (ih hothers)
  | case6 =>
      cases h
      simp
  | case7 c rest _ _ _ _ _ ih =>
      intro t ht
      exact (ih h t ht).mono (List.subset_cons_self _ _)
  | case8 c rest hequals hbar hquote hcomment hblank ih =>
      obtain ⟨others, hothers, rfl⟩ := map_eq_ok_iff.mp h
      have hc : endsName c = false := by simp_all [endsName]
      exact forall_wellFormed_cons (readName_subset _) (wellFormed_of_readName rest hc)
        (ih hothers)

theorem lex_blank {c : Char} (hc : Text.isBlank c = true) (rest : List Char) :
    lex (c :: rest) = lex rest := by
  have hmark : ∀ d ∈ ['=', '|', '"', ';'], c ≠ d := by
    intro d hd heq
    have hd' : Text.isBlank d = false := by
      simp only [List.mem_cons, List.not_mem_nil, or_false] at hd
      rcases hd with rfl | rfl | rfl | rfl <;> rfl
    rw [heq, hd'] at hc
    cases hc
  rw [lex, if_neg (hmark _ (by simp)), if_neg (hmark _ (by simp)), if_neg (hmark _ (by simp)),
    if_neg (hmark _ (by simp)), if_pos hc]

theorem lex_equals (rest : List Char) : lex ('=' :: rest) = (lex rest).map (.equals :: ·) := by
  rw [lex, if_pos rfl]

theorem lex_quoted {text : String} (htext : '"' ∉ text.toList) (rest : List Char) :
    lex ('"' :: (text.toList ++ '"' :: rest)) = (lex rest).map (.quoted text :: ·) := by
  rw [lex, if_neg (by decide), if_neg (by decide), if_pos rfl]
  simp only [readQuoted_quoted htext]

theorem lex_name {text : String} (htext : BareName text) {rest : List Char}
    (hrest : ∀ c ∈ rest.head?, endsName c = true) :
    lex (text.toList ++ rest) = (lex rest).map (.name text :: ·) := by
  have hread := readName_name htext hrest
  obtain ⟨hne, hchars⟩ := bareName_iff.mp htext
  obtain ⟨c, cs, hcons⟩ := List.exists_cons_of_ne_nil hne
  have hc : endsName c = false := hchars c (by rw [hcons]; exact List.mem_cons_self)
  rw [hcons, List.cons_append] at hread ⊢
  obtain ⟨hblank, hmark⟩ := endsName_eq_false_iff.mp hc
  simp only [List.mem_cons, List.not_mem_nil, or_false, not_or] at hmark
  obtain ⟨hequals, hbar, hquote, hcomment⟩ := hmark
  rw [lex, if_neg hequals, if_neg hbar, if_neg hquote, if_neg hcomment, hblank, hread]
  rfl

end Token

end ChartParser.GrammarFile
