import ChartParser.Proofs.WrittenLines
import Mathlib.Algebra.Ring.Parity
import Mathlib.Data.List.Chain

/-!
# Laying tokens out on a line

The lines from which tokens are read are the ways to lay these tokens out: each
after some blanks, which may be missing except between two bare names, then
blanks again and perhaps a comment. A line from which none are read has a quote
left open, and that can be seen by counting: quotes open and close by turns, and
only a semicolon after as many closing as opening ones begins a comment.
-/
namespace ChartParser.GrammarFile

namespace Token

/-- The characters that a token is written in. -/
def chars : Token → List Char
  | equals => ['=']
  | bar => ['|']
  | name text => text.toList
  | quoted text => '"' :: (text.toList ++ ['"'])

def isName : Token → Bool
  | name _ => true
  | _ => false

/-- The token can be told from what stands next to it once it is written. -/
def Legible : Token → Prop
  | equals | bar => True
  | name text => BareName text
  | quoted text => '"' ∉ text.toList

instance : DecidablePred Legible
  | equals | bar => .isTrue trivial
  | name text => inferInstanceAs (Decidable (BareName text))
  | quoted text => inferInstanceAs (Decidable ('"' ∉ text.toList))

theorem WellFormed.legible {line : List Char} {t : Token} (h : t.WellFormed line) : t.Legible := by
  cases t with
  | equals => trivial
  | bar => trivial
  | name text => exact h
  | quoted text => exact h.1

end Token

/-- A way to write tokens on a line. -/
structure Layout where
  /-- The tokens, each with the blanks before it. -/
  pieces : List (List Char × Token)
  /-- The blanks after the last token. -/
  last : List Char
  /-- What stands after the semicolon, if the line ends in a comment. -/
  comment? : Option (List Char)

namespace Layout

def tokens (l : Layout) : List Token := l.pieces.map Prod.snd

/-- What follows the last token. -/
def ending (l : Layout) : List Char :=
  l.last ++ l.comment?.elim [] (';' :: ·)

def line (l : Layout) : List Char :=
  l.pieces.flatMap (fun p => p.1 ++ p.2.chars) ++ l.ending

/-- Only blanks are put between the tokens, and between two bare names at least one. -/
structure Proper (l : Layout) : Prop where
  blank_last : ∀ c ∈ l.last, Text.isBlank c = true
  blank : ∀ p ∈ l.pieces, ∀ c ∈ p.1, Text.isBlank c = true
  apart : l.pieces.IsChain fun p q => p.2.isName = true → q.2.isName = true → q.1 ≠ []

/-- The layout with one more piece in front. -/
def cons (p : List Char × Token) (l : Layout) : Layout := { l with pieces := p :: l.pieces }

theorem line_cons (p : List Char × Token) (l : Layout) :
    (l.cons p).line = p.1 ++ (p.2.chars ++ l.line) := by
  rw [line, cons, List.flatMap_cons]
  simp only [List.append_assoc, line, ending]

theorem proper_cons_iff {p : List Char × Token} {l : Layout} :
    (l.cons p).Proper ↔ (∀ c ∈ p.1, Text.isBlank c = true) ∧
      (p.2.isName = true → ∀ q ∈ l.pieces.head?, q.2.isName = true → q.1 ≠ []) ∧ l.Proper := by
  constructor
  · intro h
    obtain ⟨hp, hpieces⟩ := List.forall_mem_cons.mp h.blank
    obtain ⟨hfirst, hrest⟩ := List.isChain_cons.mp h.apart
    exact ⟨hp, fun hname q hq => hfirst q hq hname, h.blank_last, hpieces, hrest⟩
  · intro h
    obtain ⟨hp, hfirst, hl⟩ := h
    refine ⟨hl.blank_last, List.forall_mem_cons.mpr ⟨hp, hl.blank⟩, ?_⟩
    exact List.isChain_cons.mpr ⟨fun q hq hname => hfirst hname q hq, hl.apart⟩

theorem proper_done_iff {last : List Char} {comment? : Option (List Char)} :
    (⟨[], last, comment?⟩ : Layout).Proper ↔ ∀ c ∈ last, Text.isBlank c = true :=
  ⟨Proper.blank_last, fun h => ⟨h, by simp, .nil⟩⟩

/-- The line begins with an end for a name unless it begins with a name itself. -/
theorem endsName_head_line_iff {l : Layout} (hl : l.Proper) (hlegible : ∀ t ∈ l.tokens, t.Legible) :
    (∀ c ∈ l.line.head?, Token.endsName c = true) ↔
      ∀ q ∈ l.pieces.head?, q.2.isName = true → q.1 ≠ [] := by
  obtain ⟨pieces, last, comment?⟩ := l
  cases pieces with
  | nil =>
      refine iff_of_true ?_ (by simp)
      cases last with
      | nil => cases comment? <;> simp [line, ending, Token.endsName]
      | cons d last =>
          have hd := hl.blank_last d List.mem_cons_self
          simp [line, ending, Token.endsName_of_isBlank hd]
  | cons q pieces =>
      change (∀ c ∈ (cons q ⟨pieces, last, comment?⟩).line.head?, _) ↔ _
      rw [line_cons]
      obtain ⟨spaces, t⟩ := q
      cases spaces with
      | cons d spaces =>
          have hd := hl.blank _ List.mem_cons_self d List.mem_cons_self
          simp [Token.endsName_of_isBlank hd]
      | nil =>
          have ht := hlegible t List.mem_cons_self
          cases t with
          | equals => simp [Token.chars, Token.endsName, Token.isName]
          | bar => simp [Token.chars, Token.endsName, Token.isName]
          | quoted text => simp [Token.chars, Token.endsName, Token.isName]
          | name text =>
              obtain ⟨hne, hchars⟩ := Token.bareName_iff.mp ht
              obtain ⟨d, ds, hcons⟩ := List.exists_cons_of_ne_nil hne
              have hd := hchars d (by rw [hcons]; exact List.mem_cons_self)
              simp [Token.chars, Token.isName, hcons, hd]

end Layout

/-! ### Layouts and written lines -/

theorem Token.Written.blanks {line : List Char} {tokens : List Token} (h : Written line tokens)
    {spaces : List Char} (hspaces : ∀ c ∈ spaces, Text.isBlank c = true) :
    Written (spaces ++ line) tokens := by
  induction spaces with
  | nil => exact h
  | cons c spaces ih =>
      have hrest := ih fun d hd => hspaces d (List.mem_cons_of_mem c hd)
      exact .blank (hspaces c List.mem_cons_self) hrest

namespace Layout

theorem Proper.written {l : Layout} (hl : l.Proper) (hlegible : ∀ t ∈ l.tokens, t.Legible) :
    Token.Written l.line l.tokens := by
  obtain ⟨pieces, last, comment?⟩ := l
  induction pieces with
  | nil =>
      have hending : Token.Written (comment?.elim [] (';' :: ·)) [] := by
        cases comment? with
        | none => exact .nil
        | some text => exact .comment text
      exact hending.blanks hl.blank_last
  | cons p pieces ih =>
      obtain ⟨hp, hfirst, hrest⟩ := (proper_cons_iff (l := ⟨pieces, last, comment?⟩)).mp hl
      obtain ⟨ht, htokens⟩ := List.forall_mem_cons.mp hlegible
      have hwritten := ih hrest htokens
      change Token.Written (cons p ⟨pieces, last, comment?⟩).line
        (p.2 :: tokens ⟨pieces, last, comment?⟩)
      rw [line_cons]
      refine Token.Written.blanks ?_ hp
      obtain ⟨spaces, t⟩ := p
      cases t with
      | equals => exact .equals hwritten
      | bar => exact .bar hwritten
      | quoted text =>
          have hquoted := Token.Written.quoted ht hwritten
          simpa [Token.chars] using hquoted
      | name text =>
          have hstop := (endsName_head_line_iff hrest htokens).mpr (hfirst rfl)
          exact .name ht hstop hwritten

end Layout

theorem Token.Written.legible {line : List Char} {tokens : List Token} (h : Written line tokens) :
    ∀ t ∈ tokens, t.Legible :=
  fun t ht => (wellFormed_of_lex h.lex t ht).legible

theorem Token.Written.exists_layout {line : List Char} {tokens : List Token}
    (h : Written line tokens) : ∃ l : Layout, l.Proper ∧ l.tokens = tokens ∧ l.line = line := by
  induction h with
  | nil => exact ⟨⟨[], [], none⟩, Layout.proper_done_iff.mpr (by simp), rfl, rfl⟩
  | comment text => exact ⟨⟨[], [], some text⟩, Layout.proper_done_iff.mpr (by simp), rfl, rfl⟩
  | @blank c line tokens hc _ ih =>
      obtain ⟨⟨pieces, last, comment?⟩, hl, rfl, rfl⟩ := ih
      cases pieces with
      | nil =>
          have hlast : ∀ d ∈ c :: last, Text.isBlank d = true :=
            List.forall_mem_cons.mpr ⟨hc, hl.blank_last⟩
          exact ⟨⟨[], c :: last, comment?⟩, Layout.proper_done_iff.mpr hlast, rfl, rfl⟩
      | cons p pieces =>
          obtain ⟨hp, hrest⟩ := (Layout.proper_cons_iff (l := ⟨pieces, last, comment?⟩)).mp hl
          have hspaces : ∀ d ∈ c :: p.1, Text.isBlank d = true :=
            List.forall_mem_cons.mpr ⟨hc, hp⟩
          exact ⟨Layout.cons (c :: p.1, p.2) ⟨pieces, last, comment?⟩,
            Layout.proper_cons_iff.mpr ⟨hspaces, hrest⟩, rfl, rfl⟩
  | equals _ ih =>
      obtain ⟨l, hl, rfl, rfl⟩ := ih
      exact ⟨l.cons ([], .equals), Layout.proper_cons_iff.mpr ⟨by simp, nofun, hl⟩, rfl,
        Layout.line_cons _ _⟩
  | bar _ ih =>
      obtain ⟨l, hl, rfl, rfl⟩ := ih
      exact ⟨l.cons ([], .bar), Layout.proper_cons_iff.mpr ⟨by simp, nofun, hl⟩, rfl,
        Layout.line_cons _ _⟩
  | @quoted text _ _ _ _ ih =>
      obtain ⟨l, hl, rfl, rfl⟩ := ih
      refine ⟨l.cons ([], .quoted text), Layout.proper_cons_iff.mpr ⟨by simp, nofun, hl⟩, rfl, ?_⟩
      rw [Layout.line_cons]
      simp [Token.chars]
  | @name text _ _ _ hstop hwritten ih =>
      obtain ⟨l, hl, rfl, rfl⟩ := ih
      have hfirst := (Layout.endsName_head_line_iff hl hwritten.legible).mp hstop
      exact ⟨l.cons ([], .name text), Layout.proper_cons_iff.mpr ⟨by simp, fun _ => hfirst, hl⟩,
        rfl, Layout.line_cons _ _⟩

/-! ### Quotes that are left open -/

namespace Token

/-- The quotes are odd in number, and no semicolon comes after an even number of them. -/
structure LeftOpen (line : List Char) : Prop where
  odd : Odd (line.count '"')
  no_comment : ∀ before after, line = before ++ ';' :: after → ¬Even (before.count '"')

/-- After a part in which the quotes come in pairs and that has semicolons only within a pair,
the count begins anew. -/
theorem leftOpen_append_iff {front : List Char} (heven : Even (front.count '"'))
    (hfront : ∀ before after, front = before ++ ';' :: after → ¬Even (before.count '"'))
    (rest : List Char) : LeftOpen (front ++ rest) ↔ LeftOpen rest := by
  have hcount : ∀ part : List Char,
      Even ((front ++ part).count '"') ↔ Even (part.count '"') := by
    intro part
    rw [List.count_append, Nat.even_add, iff_true_left heven]
  constructor
  · intro h
    refine ⟨?_, ?_⟩
    · rw [← Nat.not_even_iff_odd, ← hcount, Nat.not_even_iff_odd]
      exact h.odd
    · intro before after hrest
      rw [← hcount]
      exact h.no_comment (front ++ before) after (by rw [hrest, List.append_assoc])
  · intro h
    refine ⟨?_, ?_⟩
    · rw [← Nat.not_even_iff_odd, hcount, Nat.not_even_iff_odd]
      exact h.odd
    · intro before after hline
      rcases List.append_eq_append_iff.mp hline with
        ⟨between, rfl, hrest⟩ | ⟨between, hbefore, hafter⟩
      · rw [hcount]
        exact h.no_comment between after hrest
      · cases between with
        | nil =>
            -- The semicolon opens the rest, with none of its quotes before it.
            rw [List.append_nil] at hbefore
            subst hbefore
            have hnone := h.no_comment [] after hafter.symm
            exact absurd Even.zero hnone
        | cons c between =>
            obtain ⟨rfl, rfl⟩ := List.cons.inj hafter
            exact hfront before between hbefore

/-- Characters that are neither quotes nor semicolons do not count. -/
theorem leftOpen_append_plain_iff {front : List Char} (hfront : ∀ c ∈ front, c ∉ ['"', ';'])
    (rest : List Char) : LeftOpen (front ++ rest) ↔ LeftOpen rest := by
  have hquote : '"' ∉ front := fun h => hfront _ h (by simp)
  have hcomment : ';' ∉ front := fun h => hfront _ h (by simp)
  refine leftOpen_append_iff ?_ ?_ rest
  · rw [List.count_eq_zero_of_not_mem hquote]
    exact Even.zero
  · intro before after heq
    exact absurd (by rw [heq]; simp) hcomment

theorem leftOpen_quoted_iff {text : List Char} (htext : '"' ∉ text) (rest : List Char) :
    LeftOpen ('"' :: (text ++ '"' :: rest)) ↔ LeftOpen rest := by
  have hsplit : '"' :: (text ++ '"' :: rest) = ('"' :: (text ++ ['"'])) ++ rest := by simp
  rw [hsplit]
  refine leftOpen_append_iff ?_ ?_ rest
  · simp [List.count_eq_zero_of_not_mem htext]
  · intro before after heq
    cases before with
    | nil => simp at heq
    | cons c before =>
        obtain ⟨rfl, hrest⟩ := List.cons.inj heq
        rcases List.append_eq_append_iff.mp hrest with ⟨between, _, hend⟩ | ⟨between, rfl, _⟩
        · cases between <;> simp at hend
        · have hnone : '"' ∉ before := fun h => htext (List.mem_append_left between h)
          simp [List.count_eq_zero_of_not_mem hnone]

theorem leftOpen_quote {text : List Char} (htext : '"' ∉ text) : LeftOpen ('"' :: text) := by
  constructor
  · simp [List.count_eq_zero_of_not_mem htext]
  · intro before after heq
    cases before with
    | nil => simp at heq
    | cons c before =>
        obtain ⟨rfl, rfl⟩ := List.cons.inj heq
        have hnone : '"' ∉ before := fun h => htext (List.mem_append_left _ h)
        simp [List.count_eq_zero_of_not_mem hnone]

/-- The count agrees with the reader, which skips a quoted text as a whole and never looks into a
comment. -/
theorem lex_eq_error_iff {line : List Char} :
    Token.lex line = .error .unmatchedQuote ↔ LeftOpen line := by
  have hplain : ∀ (c : Char) (cs : List Char), c ∉ ['"', ';'] →
      (LeftOpen cs ↔ LeftOpen (c :: cs)) := by
    intro c cs hc
    have hfront : ∀ d ∈ [c], d ∉ ['"', ';'] := by simpa using hc
    exact (leftOpen_append_plain_iff hfront cs).symm
  fun_induction Token.lex line with
  | case1 => exact iff_of_false (by simp) fun h => Nat.not_odd_zero h.odd
  | case2 rest ih => exact (map_eq_error_iff.trans ih).trans (hplain '=' rest (by decide))
  | case3 rest _ ih => exact (map_eq_error_iff.trans ih).trans (hplain '|' rest (by decide))
  | case4 rest fault _ _ hread =>
      have hnone := readQuoted_cons_eq_error hread
      have hlex := lex_open hnone
      rw [Token.lex, if_neg (by decide), if_neg (by decide), if_pos rfl, hread] at hlex
      exact iff_of_true hlex (leftOpen_quote hnone)
  | case5 rest token _ _ hread ih =>
      obtain ⟨text, htext, _, hrest⟩ := readQuoted_cons_eq_ok hread
      have hquoted := leftOpen_quoted_iff htext (readQuoted ('"' :: rest)).2
      rw [← hrest] at hquoted
      exact (map_eq_error_iff.trans ih).trans hquoted.symm
  | case6 text => exact iff_of_false (by simp) fun h => h.no_comment [] text rfl Even.zero
  | case7 c rest hequals hbar hquote hcomment hblank ih =>
      exact ih.trans (hplain c rest (by simp [hquote, hcomment]))
  | case8 c rest hequals hbar hquote hcomment hblank ih =>
      have hc : endsName c = false := by simp_all [endsName]
      obtain ⟨text, htext, _, hline, _⟩ := readName_cons rest hc
      have hplain : ∀ d ∈ text.toList, d ∉ ['"', ';'] := by
        intro d hd hmark
        exact htext.no_mark d hd (List.mem_cons_of_mem _ (List.mem_cons_of_mem _ hmark))
      have hname := leftOpen_append_plain_iff hplain (readName (c :: rest)).2
      rw [← hline] at hname
      exact (map_eq_error_iff.trans ih).trans hname.symm

end Token

/-- The tokens of a line are those of which it is a layout, and a line without tokens to read is
one in which a quote is left open. -/
theorem lex_exact (line : List Char) :
    (∀ tokens, Token.lex line = .ok tokens ↔ (∀ t ∈ tokens, t.Legible) ∧
      ∃ l : Layout, l.Proper ∧ l.tokens = tokens ∧ l.line = line) ∧
    ∀ fault, Token.lex line = .error fault ↔ fault = .unmatchedQuote ∧ Token.LeftOpen line := by
  constructor
  · intro tokens
    rw [Token.lex_eq_ok_iff]
    constructor
    · intro h
      exact ⟨h.legible, h.exists_layout⟩
    · intro h
      obtain ⟨hlegible, l, hl, rfl, rfl⟩ := h
      exact hl.written hlegible
  · intro fault
    constructor
    · intro h
      obtain rfl := RuleLine.lex_eq_error h
      exact ⟨rfl, Token.lex_eq_error_iff.mp h⟩
    · intro h
      obtain ⟨rfl, hopen⟩ := h
      exact Token.lex_eq_error_iff.mpr hopen

def markedLayout : Layout where
  pieces := [([], .name "S"), ([], .equals), ([], .quoted "a;"), ([' '], .bar),
    (['\t'], .name "T"), ([' '], .name "U")]
  last := []
  comment? := some "\" x".toList

/-- A semicolon within quotes, a quote within a comment, and a quote that nothing closes. -/
theorem lex_exact_marks :
    Token.lex "S=\"a;\" |\tT U;\" x".toList =
      .ok [.name "S", .equals, .quoted "a;", .bar, .name "T", .name "U"] ∧
    Token.lex "S = \"a ; b".toList = .error .unmatchedQuote := by
  constructor
  · have hproper : markedLayout.Proper :=
      ⟨by simp [markedLayout], by simp [markedLayout, Text.isBlank], by decide⟩
    exact ((lex_exact _).1 _).mpr ⟨by decide, markedLayout, hproper, rfl, by decide⟩
  · have hopen : Token.LeftOpen ("S = ".toList ++ '"' :: "a ; b".toList) :=
      (Token.leftOpen_append_plain_iff (by simp) _).mpr (Token.leftOpen_quote (by decide))
    exact ((lex_exact _).2 _).mpr ⟨rfl, hopen⟩

end ChartParser.GrammarFile
