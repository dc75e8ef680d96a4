import ChartParser.Proofs.TokenLines
import Mathlib.Logic.Relation

/-!
# Edits that change only line numbers

A text may be given more blank lines and comment lines, more blanks between
the tokens of a line, a comment after a line that is complete, or the other
kind of line ends. No such edit, done or undone, changes what is read of the
lines that hold anything, so the text loads as before but for the numbers of
its lines.
-/
namespace ChartParser.GrammarFile

/-- A return before each feed. -/
def withReturns (cs : List Char) : List Char :=
  cs.flatMap fun c => if c = '\n' then ['\r', '\n'] else [c]

/-- One edit of a text, whose lines are what its feeds separate. -/
inductive Edit : String → String → Prop
  | insertLine {text text' : String} {before after : List (List Char)} {line : List Char} :
      text.toList.splitOn '\n' = before ++ after →
      text'.toList.splitOn '\n' = before ++ line :: after →
      mayHoldRule line = false → Edit text text'
  | changeLine {text text' : String} {before after : List (List Char)} {line line' : List Char} :
      text.toList.splitOn '\n' = before ++ line :: after →
      text'.toList.splitOn '\n' = before ++ line' :: after →
      Token.LineEdit line line' → Edit text text'
  | returns {text text' : String} : text'.toList = withReturns text.toList → Edit text text'

/-! ### Tokens between feeds -/

theorem blank_return : ∀ c ∈ ['\r'], Text.isBlank c = true := by
  intro c hc
  rw [List.mem_singleton.mp hc]
  rfl

theorem lex_dropReturn (line : List Char) :
    Token.lex (Text.dropReturn '\r' line) = Token.lex line := by
  rw [Text.dropReturn]
  split_ifs with h
  · have hline : line.dropLast ++ ['\r'] = line := List.dropLast_append_getLast? '\r' h
    rw [← Token.lex_append_blanks line.dropLast blank_return, hline]
  · rfl

/-- Neither a return at the end of a line nor an empty last line counts for the tokens. -/
theorem numberedTokens_eq (text : String) : numberedTokens text =
    (((text.toList.splitOn '\n').map Token.lex).zipIdx 1).filter (Reading.holdsToken ·.1) := by
  have hne : text.toList.splitOn '\n' ≠ [] := List.splitOn_ne_nil '\n' text.toList
  obtain ⟨front, last, hpieces⟩ := (List.eq_nil_or_concat _).resolve_left hne
  have hfront : (front.map (Text.dropReturn '\r')).map Token.lex = front.map Token.lex := by
    rw [List.map_map]
    exact List.map_congr_left fun line _ => lex_dropReturn line
  have hlast : ∀ number,
      ((([last].filter (!·.isEmpty)).map Token.lex).zipIdx number).filter (Reading.holdsToken ·.1) =
        (([last].map Token.lex).zipIdx number).filter (Reading.holdsToken ·.1) := by
    intro number
    cases last with
    | nil =>
        rw [List.map_singleton, Token.lex]
        rfl
    | cons c last => rfl
  rw [numberedTokens, Text.lines, hpieces, List.concat_eq_append, List.dropLast_concat,
    List.getLast?_concat, Option.toList_some, List.map_append, hfront, List.zipIdx_append,
    List.filter_append, hlast, ← List.filter_append, ← List.zipIdx_append, ← List.map_append]

theorem lineTokens_eq (text : String) : lineTokens text =
    ((text.toList.splitOn '\n').map Token.lex).filter Reading.holdsToken := by
  rw [← map_fst_numberedTokens, numberedTokens_eq,
    ← List.zipIdx_map_fst 1 ((text.toList.splitOn '\n').map Token.lex), List.filter_map,
    List.zipIdx_map_fst]
  rfl

theorem withReturns_append (cs ds : List Char) :
    withReturns (cs ++ ds) = withReturns cs ++ withReturns ds :=
  List.flatMap_append

theorem withReturns_of_not_mem {line : List Char} (h : '\n' ∉ line) : withReturns line = line := by
  have hchars : ∀ c ∈ line, (if c = '\n' then ['\r', '\n'] else [c]) = [c] := by
    intro c hc
    rw [if_neg]
    rintro rfl
    exact h hc
  rw [withReturns, List.flatMap_congr hchars]
  exact List.flatMap_singleton' line

/-- By induction on the pieces: all but the last gain a return, which is a blank at their end. -/
theorem map_lex_withReturns {pieces : List (List Char)} (hne : pieces ≠ [])
    (hfeed : ∀ piece ∈ pieces, '\n' ∉ piece) :
    ((withReturns (['\n'].intercalate pieces)).splitOn '\n').map Token.lex =
      pieces.map Token.lex := by
  induction pieces with
  | nil => exact absurd rfl hne
  | cons piece pieces ih =>
      have hpiece : '\n' ∉ piece := hfeed piece List.mem_cons_self
      cases pieces with
      | nil =>
          rw [List.intercalate_singleton, withReturns_of_not_mem hpiece,
            List.splitOn_eq_singleton hpiece]
      | cons next pieces =>
          have hrest := ih (List.cons_ne_nil _ _)
            fun p hp => hfeed p (List.mem_cons_of_mem piece hp)
          have hreturn : '\n' ∉ piece ++ ['\r'] := by simpa using hpiece
          have hfirst : withReturns (piece ++ ['\n']) = piece ++ ['\r'] ++ ['\n'] := by
            rw [withReturns_append, withReturns_of_not_mem hpiece, List.append_assoc]
            rfl
          rw [List.intercalate_cons_cons, withReturns_append, hfirst, List.append_assoc,
            List.singleton_append, List.splitOn_append_cons_self_of_not_mem hreturn, List.map_cons,
            List.map_cons, hrest, Token.lex_append_blanks piece blank_return]

/-! ### Edits keep the tokens -/

theorem Edit.lineTokens_eq {text text' : String} (h : Edit text text') :
    lineTokens text = lineTokens text' := by
  rw [GrammarFile.lineTokens_eq, GrammarFile.lineTokens_eq]
  cases h with
  | insertLine hsplit hsplit' hline =>
      rw [hsplit, hsplit']
      simp only [List.map_append, List.map_cons, List.filter_append]
      rw [lex_of_mayHoldRule_eq_false hline]
      rfl
  | changeLine hsplit hsplit' hline =>
      rw [hsplit, hsplit']
      simp only [List.map_append, List.map_cons, hline.lex_eq]
  | returns hreturns =>
      have hpieces := map_lex_withReturns (List.splitOn_ne_nil '\n' text.toList)
        fun piece hpiece => Text.not_mem_of_mem_splitOn hpiece
      rw [List.intercalate_splitOn] at hpieces
      rw [hreturns, hpieces]

theorem lineTokens_eq_of_edits {text text' : String} (h : Relation.EqvGen Edit text text') :
    lineTokens text = lineTokens text' := by
  induction h with
  | rel _ _ hedit => exact hedit.lineTokens_eq
  | refl _ => rfl
  | symm _ _ _ ih => exact ih.symm
  | trans _ _ _ _ _ ih ih' => exact ih.trans ih'

/-! ### What a load depends on -/

/-- The lines that are passed over are those without a token, for a line that begins otherwise
gives one or leaves a quote open. -/
theorem mayHoldRule_eq_false_iff {line : List Char} :
    mayHoldRule line = false ↔ Token.lex line = .ok [] := by
  constructor
  · exact lex_of_mayHoldRule_eq_false
  · intro h
    rw [← lex_dropWhile_isBlank] at h
    have hfirst := List.head?_dropWhile_not Text.isBlank line
    unfold mayHoldRule
    split
    · rfl
    · next c rest hcons =>
      rw [hcons] at h hfirst
      have hwritten := Token.written_of_lex h
      generalize hline : c :: rest = line at hwritten
      cases hwritten with
      | nil => cases hline
      | comment text =>
          cases hline
          rfl
      | blank hblank _ =>
          cases hline
          simp [hblank] at hfirst

/-- What a text loads to depends on the tokens of its lines alone, and a change of the lines that
keeps these tokens shows at most in the numbers of the lines that errors are reported at, each
of which is the number of the line to blame. -/
theorem ofText_of_lineTokens (path : String) :
    (∀ line, mayHoldRule line = false ↔ Token.lex line = .ok []) ∧
    (∀ line number, readLine path number (.ok line) =
      (RuleLine.ofText number line).mapError (⟨⟨path, number⟩, ·⟩)) ∧
    (∀ text text', lineTokens text = lineTokens text' → SameLoad path text text') ∧
    (∀ text text', Relation.EqvGen Edit text text' → SameLoad path text text') ∧
    ∀ text errors, ofText path text = .error errors → ∀ e ∈ errors, PlacedAtLine path text e := by
  refine ⟨fun _ => mayHoldRule_eq_false_iff, fun line number => readLine_ok path number line,
    ?_, ?_, fun _ _ herrors _ he => placedAtLine_of_ofText herrors he⟩
  · intro text text' h
    exact sameLoad_of_lineTokens_eq h path
  · intro text text' h
    exact sameLoad_of_lineTokens_eq (lineTokens_eq_of_edits h) path

/-- A quote is left open on the second of these lines. -/
def openText : String := "S = A \"a\"\nA = \"b\n"

/-- The same lines among notes. -/
def notedText : String := "; notes\n\nS=A\t\"a\"; first\r\n \r\nA = \"b\r\n"

theorem ofText_of_lineTokens_noted :
    Edit openText (.ofList (withReturns openText.toList)) ∧
    SameLoad "g.bnf" openText (.ofList (withReturns openText.toList)) ∧
    ofText "g.bnf" openText = .error [⟨⟨"g.bnf", 2⟩, .unmatchedQuote⟩] ∧
    ofText "g.bnf" notedText = .error [⟨⟨"g.bnf", 5⟩, .unmatchedQuote⟩] := by
  obtain ⟨_, _, htokens, hedits, _⟩ := ofText_of_lineTokens "g.bnf"
  have hedit : Edit openText (.ofList (withReturns openText.toList)) :=
    .returns String.toList_ofList
  have hfaults : lineFaults "g.bnf" (textLines openText) =
      [⟨⟨"g.bnf", 2⟩, .unmatchedQuote⟩] := by with_unfolding_all rfl
  have hload : ofText "g.bnf" openText = .error [⟨⟨"g.bnf", 2⟩, .unmatchedQuote⟩] := by
    rw [ofText, ← textLines, ofLines_eq, hfaults]
    rfl
  refine ⟨hedit, hedits _ _ (.rel _ _ hedit), hload, ?_⟩
  have hopen : numberedTokens openText =
      [(.ok [.name "S", .equals, .name "A", .quoted "a"], 1), (.error .unmatchedQuote, 2)] := by
    with_unfolding_all rfl
  have hspread : numberedTokens notedText =
      [(.ok [.name "S", .equals, .name "A", .quoted "a"], 3), (.error .unmatchedQuote, 5)] := by
    with_unfolding_all rfl
  have hsame : lineTokens openText = lineTokens notedText := by
    rw [← map_fst_numberedTokens, ← map_fst_numberedTokens, hopen, hspread]
    rfl
  obtain ⟨move, _, hmove, hnoted⟩ := htokens _ _ hsame
  rw [tokenNumbers, tokenNumbers, hopen, hspread] at hmove
  obtain ⟨_, hsecond⟩ : move 1 = 3 ∧ move 2 = 5 := by simpa using hmove
  rw [hnoted, hload, Except.mapError, List.map_singleton, Located.renumber, hsecond]

end ChartParser.GrammarFile
