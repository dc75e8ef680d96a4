import ChartParser.Proofs.RuleLineTokens

/-!
# Lines as they are written

A line from which tokens can be read is these tokens written one after the
other, with blanks wherever one likes, and a comment at its end if there is
one. So reading can be interrupted where no quote is open and no name goes on:
blanks put there change nothing, nor does a comment put at the end. Blanks at
the end of a line change nothing even if a quote was left open.
-/
namespace ChartParser.GrammarFile.Token

/-- The line is written in these tokens. A name ends at a character that cannot be part of it. -/
inductive Written : List Char → List Token → Prop
  | nil : Written [] []
  | comment (text : List Char) : Written (';' :: text) []
  | blank {c : Char} {line : List Char} {tokens : List Token} : Text.isBlank c = true →
      Written line tokens → Written (c :: line) tokens
  | equals {line : List Char} {tokens : List Token} : Written line tokens →
      Written ('=' :: line) (.equals :: tokens)
  | bar {line : List Char} {tokens : List Token} : Written line tokens →
      Written ('|' :: line) (.bar :: tokens)
  | quoted {text : String} {line : List Char} {tokens : List Token} : '"' ∉ text.toList →
      Written line tokens → Written ('"' :: (text.toList ++ '"' :: line)) (.quoted text :: tokens)
  | name {text : String} {line : List Char} {tokens : List Token} : BareName text →
      (∀ c ∈ line.head?, endsName c = true) → Written line tokens →
      Written (text.toList ++ line) (.name text :: tokens)

theorem lex_bar (rest : List Char) : lex ('|' :: rest) = (lex rest).map (.bar :: ·) := by
  rw [lex, if_neg (by decide), if_pos rfl]

theorem lex_comment (text : List Char) : lex (';' :: text) = .ok [] := by
  rw [lex, if_neg (by decide), if_neg (by decide), if_neg (by decide), if_pos rfl]

theorem readQuoted_cons_eq_ok {c : Char} {cs : List Char} {t : Token}
    (h : (readQuoted (c :: cs)).1 = .ok t) : ∃ text : String, '"' ∉ text.toList ∧
      t = .quoted text ∧ cs = text.toList ++ '"' :: (readQuoted (c :: cs)).2 := by
  have hsplit := List.takeWhile_append_dropWhile (p := (· ≠ '"')) (l := cs)
  have hstop : ∀ d ∈ (cs.dropWhile (· ≠ '"')).head?, d = '"' := by
    intro d hd
    have := List.head?_dropWhile_not (· ≠ '"') cs
    rw [hd] at this
    simpa using this
  unfold readQuoted at h ⊢
  dsimp only [List.tail_cons] at h ⊢
  split at h
  · cases h
  · next d rest hdrop =>
    cases h
    rw [hdrop] at hsplit hstop
    obtain rfl := hstop d rfl
    refine ⟨_, ?_, rfl, ?_⟩
    · rw [String.toList_ofList]
      intro hmem
      have := List.mem_takeWhile_imp hmem
      simp at this
    · rw [String.toList_ofList]
      exact hsplit.symm

theorem readQuoted_cons_eq_error {c : Char} {cs : List Char} {fault : Fault}
    (h : (readQuoted (c :: cs)).1 = .error fault) : '"' ∉ cs := by
  unfold readQuoted at h
  dsimp only [List.tail_cons] at h
  split at h
  · next hdrop =>
    intro hmem
    have := List.dropWhile_eq_nil_iff.mp hdrop '"' hmem
    simp at this
  · cases h

theorem readName_cons {c : Char} (cs : List Char) (hc : endsName c = false) :
    ∃ text : String, BareName text ∧ (readName (c :: cs)).1 = .name text ∧
      c :: cs = text.toList ++ (readName (c :: cs)).2 ∧
      ∀ d ∈ (readName (c :: cs)).2.head?, endsName d = true := by
  have hname := wellFormed_of_readName cs hc
  refine ⟨_, hname, rfl, ?_, ?_⟩
  · rw [String.toList_ofList]
    exact List.takeWhile_append_dropWhile.symm
  · intro d hd
    have := List.head?_dropWhile_not (!endsName ·) (c :: cs)
    rw [readName] at hd
    rw [hd] at this
    simpa using this

theorem Written.lex {line : List Char} {tokens : List Token} (h : Written line tokens) :
    lex line = .ok tokens := by
  induction h with
  | nil => rw [Token.lex]
  | comment text => exact lex_comment text
  | blank hc _ ih => rw [lex_blank hc, ih]
  | equals _ ih =>
      rw [lex_equals, ih]
      rfl
  | bar _ ih =>
      rw [lex_bar, ih]
      rfl
  | quoted htext _ ih =>
      rw [lex_quoted htext, ih]
      rfl
  | name htext hrest _ ih =>
      rw [lex_name htext hrest, ih]
      rfl

theorem written_of_lex {line : List Char} {tokens : List Token} (h : Token.lex line = .ok tokens) :
    Written line tokens := by
  fun_induction Token.lex line generalizing tokens with
  | case1 =>
      cases h
      exact .nil
  | case2 rest ih =>
      obtain ⟨others, hothers, rfl⟩ := map_eq_ok_iff.mp h
      exact .equals (ih hothers)
  | case3 rest _ ih =>
      obtain ⟨others, hothers, rfl⟩ := map_eq_ok_iff.mp h
      exact .bar (ih hothers)
  | case4 => cases h
  | case5 rest token _ _ htoken ih =>
      obtain ⟨others, hothers, rfl⟩ := map_eq_ok_iff.mp h
      obtain ⟨text, htext, rfl, hrest⟩ := readQuoted_cons_eq_ok htoken
      rw [hrest]
      exact .quoted htext (ih hothers)
  | case6 text =>
      cases h
      exact .comment text
  | case7 c rest _ _ _ _ hblank ih => exact .blank hblank (ih h)
  | case8 c rest hequals hbar hquote hcomment hblank ih =>
      obtain ⟨others, hothers, rfl⟩ := map_eq_ok_iff.mp h
      have hc : endsName c = false := by simp_all [endsName]
      obtain ⟨text, htext, hname, hline, hstop⟩ := readName_cons rest hc
      rw [hname]
      exact hline ▸ .name htext hstop (ih hothers)

theorem lex_eq_ok_iff {line : List Char} {tokens : List Token} :
    Token.lex line = .ok tokens ↔ Written line tokens :=
  ⟨written_of_lex, Written.lex⟩

/-! ### Reading a line in parts -/

/-- No name goes on from the first part into the second. -/
def Separate (front back : List Char) : Prop :=
  ∀ c ∈ front.getLast?, endsName c = false → ∀ d ∈ back.head?, endsName d = true

theorem Separate.of_suffix {line front back : List Char} (h : Separate front back)
    (hsuffix : line <:+ front) : Separate line back := by
  obtain ⟨before, rfl⟩ := hsuffix
  intro c hc
  exact h c (List.mem_getLast?_append_of_mem_getLast? hc)

theorem separate_nil (front : List Char) : Separate front [] :=
  fun _ _ _ _ hd => (Option.not_mem_none _ hd).elim

/-- What reads as nothing before `back` reads as nothing in the midst of a line. -/
theorem Written.lex_insert {front : List Char} {tokens : List Token} (h : Written front tokens)
    {middle back : List Char} (hmiddle : Token.lex (middle ++ back) = Token.lex back)
    (hfirst : ∀ c ∈ middle.head?, endsName c = true) (hsep : Separate front back) :
    Token.lex (front ++ (middle ++ back)) = Token.lex (front ++ back) := by
  induction h with
  | nil => exact hmiddle
  | comment text => rw [List.cons_append, List.cons_append, lex_comment, lex_comment]
  | blank hc _ ih =>
      rw [List.cons_append, List.cons_append, lex_blank hc, lex_blank hc,
        ih (hsep.of_suffix (List.suffix_cons _ _))]
  | equals _ ih =>
      rw [List.cons_append, List.cons_append, lex_equals, lex_equals,
        ih (hsep.of_suffix (List.suffix_cons _ _))]
  | bar _ ih =>
      rw [List.cons_append, List.cons_append, lex_bar, lex_bar,
        ih (hsep.of_suffix (List.suffix_cons _ _))]
  | @quoted text line _ htext _ ih =>
      have hsuffix : line <:+ '"' :: (text.toList ++ '"' :: line) :=
        ((List.suffix_cons _ _).trans (List.suffix_append _ _)).trans (List.suffix_cons _ _)
      simp only [List.cons_append, List.append_assoc, lex_quoted htext,
        ih (hsep.of_suffix hsuffix)]
  | @name text line _ htext hline _ ih =>
      obtain ⟨hne, hchars⟩ := bareName_iff.mp htext
      -- Without more of the line the name stands last, so that `back` ends it.
      have hback : line = [] → ∀ d ∈ back.head?, endsName d = true := by
        rintro rfl
        rw [List.append_nil] at hsep
        exact hsep _ (List.getLast?_eq_some_getLast hne) (hchars _ (List.getLast_mem hne))
      have hends : ∀ d ∈ (line ++ back).head?, endsName d = true := by
        cases line with
        | nil => exact hback rfl
        | cons d line => exact hline
      have hends' : ∀ d ∈ (line ++ (middle ++ back)).head?, endsName d = true := by
        cases line with
        | nil =>
            cases middle with
            | nil => exact hback rfl
            | cons d middle => exact hfirst
        | cons d line => exact hline
      rw [List.append_assoc, List.append_assoc, lex_name htext hends, lex_name htext hends',
        ih (hsep.of_suffix (List.suffix_append _ _))]

theorem endsName_of_isBlank {c : Char} (h : Text.isBlank c = true) : endsName c = true := by
  simp [endsName, h]

theorem lex_blanks {spaces : List Char} (h : ∀ c ∈ spaces, Text.isBlank c = true)
    (rest : List Char) : Token.lex (spaces ++ rest) = Token.lex rest := by
  induction spaces with
  | nil => rfl
  | cons c spaces ih =>
      have hspaces := ih fun d hd => h d (List.mem_cons_of_mem c hd)
      rw [List.cons_append, lex_blank (h c List.mem_cons_self), hspaces]

/-- Blanks where no name goes on are not noticed. -/
theorem Written.lex_insert_blanks {front : List Char} {tokens : List Token}
    (h : Written front tokens) {spaces : List Char} (hspaces : ∀ c ∈ spaces, Text.isBlank c = true)
    {back : List Char} (hsep : Separate front back) :
    Token.lex (front ++ (spaces ++ back)) = Token.lex (front ++ back) := by
  refine h.lex_insert (lex_blanks hspaces back) ?_ hsep
  intro c hc
  exact endsName_of_isBlank (hspaces c (List.mem_of_mem_head? hc))

theorem lex_open {cs : List Char} (h : '"' ∉ cs) :
    Token.lex ('"' :: cs) = .error .unmatchedQuote := by
  cases hread : (readQuoted ('"' :: cs)).1 with
  | error fault =>
      have hlex : Token.lex ('"' :: cs) = .error fault := by
        rw [Token.lex, if_neg (by decide), if_neg (by decide), if_pos rfl, hread]
      rw [hlex, RuleLine.lex_eq_error hlex]
  | ok t =>
      obtain ⟨text, _, _, hcs⟩ := readQuoted_cons_eq_ok hread
      exact absurd (by rw [hcs]; simp) h

/-- A quote that was left open stays open as long as no other comes. -/
theorem lex_append_of_error {line : List Char} {fault : Fault} (h : Token.lex line = .error fault)
    {rest : List Char} (hrest : '"' ∉ rest) : Token.lex (line ++ rest) = .error fault := by
  obtain rfl := RuleLine.lex_eq_error h
  fun_induction Token.lex line with
  | case1 => cases h
  | case2 cs ih => rw [List.cons_append, lex_equals, map_eq_error_iff, ih (map_eq_error_iff.mp h)]
  | case3 cs _ ih => rw [List.cons_append, lex_bar, map_eq_error_iff, ih (map_eq_error_iff.mp h)]
  | case4 cs e _ _ hread =>
      have hopen : '"' ∉ cs ++ rest := by
        rw [List.mem_append, not_or]
        exact ⟨readQuoted_cons_eq_error hread, hrest⟩
      exact lex_open hopen
  | case5 cs token _ _ hread ih =>
      obtain ⟨text, htext, _, hcs⟩ := readQuoted_cons_eq_ok hread
      rw [hcs, List.cons_append, List.append_assoc, List.cons_append, lex_quoted htext,
        map_eq_error_iff, ih (map_eq_error_iff.mp h)]
  | case6 => cases h
  | case7 c cs _ _ _ _ hblank ih => rw [List.cons_append, lex_blank hblank, ih h]
  | case8 c cs hequals hbar hquote hcomment hblank ih =>
      have hc : endsName c = false := by simp_all [endsName]
      obtain ⟨text, htext, _, hline, hstop⟩ := readName_cons cs hc
      have hrem := map_eq_error_iff.mp h
      generalize (readName (c :: cs)).2 = remaining at *
      -- Something remains after the name, since the end of a line is no open quote.
      have hends : ∀ d ∈ (remaining ++ rest).head?, endsName d = true := by
        cases remaining with
        | nil => rw [Token.lex] at hrem; cases hrem
        | cons d remaining => exact hstop
      rw [hline, List.append_assoc, lex_name htext hends, map_eq_error_iff, ih hrem]

theorem lex_append_blanks (line : List Char) {spaces : List Char}
    (h : ∀ c ∈ spaces, Text.isBlank c = true) : Token.lex (line ++ spaces) = Token.lex line := by
  cases hlex : Token.lex line with
  | error fault =>
      have hquote : '"' ∉ spaces := fun hmem => Bool.noConfusion (h _ hmem)
      exact lex_append_of_error hlex hquote
  | ok tokens =>
      have hinsert := (written_of_lex hlex).lex_insert_blanks h (separate_nil line)
      rw [List.append_nil, List.append_nil] at hinsert
      rw [hinsert, hlex]

/-! ### Lines that are read in the same way -/

/-- A line can be interrupted between these parts: no quote is open and no name goes on. -/
structure Boundary (front back : List Char) : Prop where
  closed : ∃ tokens, Token.lex front = .ok tokens
  separate : Separate front back

/-- The second line is the first with more blanks at a boundary, or with a comment after all
that it holds. -/
inductive LineEdit : List Char → List Char → Prop
  | blanks {front back : List Char} (h : Boundary front back) (spaces : List Char) :
      (∀ c ∈ spaces, Text.isBlank c = true) → LineEdit (front ++ back) (front ++ (spaces ++ back))
  | comment {line : List Char} {tokens : List Token} (h : Token.lex line = .ok tokens)
      (text : List Char) : LineEdit line (line ++ ';' :: text)

theorem LineEdit.lex_eq {line line' : List Char} (h : LineEdit line line') :
    Token.lex line' = Token.lex line := by
  cases h with
  | blanks h spaces hspaces =>
      obtain ⟨tokens, hclosed⟩ := h.closed
      exact (written_of_lex hclosed).lex_insert_blanks hspaces h.separate
  | comment h text =>
      have hcomment : Token.lex (';' :: text ++ []) = Token.lex [] := by
        rw [List.cons_append, lex_comment, Token.lex]
      have hfirst : ∀ c ∈ (';' :: text).head?, endsName c = true := by
        intro c hc
        rw [← Option.some.inj hc]
        rfl
      have hinsert := (written_of_lex h).lex_insert hcomment hfirst (separate_nil line)
      rwa [List.append_nil, List.append_nil] at hinsert

end ChartParser.GrammarFile.Token
