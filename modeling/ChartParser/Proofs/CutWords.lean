import ChartParser.CommandLine.Options
import ChartParser.Proofs.FileLines

/-!
# Cutting words into tokens

Tokens put together are cut into the same tokens again if each of them is one
that cutting can yield: not empty and without blanks where blanks separate the
tokens, and one character where nothing does. No row in which another token
stands comes back as it was. The tokens of a word are the only ones that can be
put together to it, with blanks around them where blanks separate the tokens.
-/
namespace ChartParser

namespace Text

/-- The characters stand together as one word. -/
def IsWord (cs : List Char) : Prop := cs ≠ [] ∧ ∀ c ∈ cs, isBlank c = false

instance (cs : List Char) : Decidable (IsWord cs) :=
  decidable_of_iff (cs ≠ [] ∧ cs.all (!isBlank ·) = true) (by simp [IsWord])

theorem words_append_blank {c : Char} (hc : isBlank c = true) (front rest : List Char) :
    words (front ++ c :: rest) = words front ++ words rest := by
  rw [words, List.splitOnP_append_cons _ _ hc, List.filter_append]
  rfl

theorem IsWord.words_eq {cs : List Char} (h : IsWord cs) : words cs = [cs] := by
  rw [words, List.splitOnP_eq_singleton h.2]
  simp [h.1]

theorem isWord_of_mem_words {cs word : List Char} (h : word ∈ words cs) : IsWord word := by
  obtain ⟨hsplit, hne⟩ := List.mem_filter.mp h
  exact ⟨by simpa using hne, eq_false_of_mem_splitOnP hsplit⟩

theorem words_intercalate_space {pieces : List (List Char)}
    (h : ∀ p ∈ pieces, IsWord p) : words ([' '].intercalate pieces) = pieces := by
  induction pieces with
  | nil => rfl
  | cons p pieces ih =>
      obtain ⟨hp, hrest⟩ := List.forall_mem_cons.mp h
      cases pieces with
      | nil => rw [List.intercalate_singleton, hp.words_eq]
      | cons p' pieces =>
          rw [List.intercalate_cons_cons, List.append_assoc, List.singleton_append,
            words_append_blank (by decide), hp.words_eq, ih hrest, List.singleton_append]

/-- The text consists of the words, in this order, and of blanks around them. No two words are
without a blank between them. -/
inductive Spaced : List (List Char) → List Char → Prop
  | nil : Spaced [] []
  | blank {words : List (List Char)} {c : Char} {rest : List Char} :
      isBlank c = true → Spaced words rest → Spaced words (c :: rest)
  | word {word : List Char} {words : List (List Char)} {rest : List Char} :
      IsWord word → (∀ c ∈ rest.head?, isBlank c = true) → Spaced words rest →
      Spaced (word :: words) (word ++ rest)

theorem Spaced.eq_words {pieces : List (List Char)} {text : List Char}
    (h : Spaced pieces text) : pieces = words text := by
  induction h with
  | nil => rfl
  | @blank _ c rest hc _ ih => exact ih.trans (words_append_blank hc [] rest).symm
  | @word word _ rest hword hblank _ ih =>
      cases rest with
      | nil =>
          rw [List.append_nil, hword.words_eq, ih]
          rfl
      | cons c rest =>
          have hc : isBlank c = true := hblank c rfl
          have hrest : words (c :: rest) = words rest := words_append_blank hc [] rest
          rw [words_append_blank hc, hword.words_eq, ih, hrest, List.singleton_append]

theorem exists_spaced (text : List Char) : ∃ pieces, Spaced pieces text := by
  induction text with
  | nil => exact ⟨[], .nil⟩
  | cons c rest ih =>
      obtain ⟨pieces, h⟩ := ih
      by_cases hc : isBlank c = true
      · exact ⟨pieces, .blank hc h⟩
      · rw [Bool.not_eq_true] at hc
        have hsingle : IsWord [c] := ⟨List.cons_ne_nil _ _, List.forall_mem_singleton.mpr hc⟩
        -- The character begins a new word, unless a word stands behind it already.
        cases h with
        | nil => exact ⟨[[c]], .word hsingle nofun .nil⟩
        | blank hblank hrest =>
            exact ⟨_, .word hsingle (fun _ hd => Option.some.inj hd ▸ hblank) (.blank hblank hrest)⟩
        | word hword hblank hrest =>
            have hlonger : IsWord (c :: _) :=
              ⟨List.cons_ne_nil _ _, List.forall_mem_cons.mpr ⟨hc, hword.2⟩⟩
            exact ⟨_, .word hlonger hblank hrest⟩

theorem spaced_iff {pieces : List (List Char)} {text : List Char} :
    Spaced pieces text ↔ pieces = words text := by
  constructor
  · exact Spaced.eq_words
  · intro h
    obtain ⟨pieces', h'⟩ := exists_spaced text
    rwa [h, ← h'.eq_words]

end Text

namespace Options
variable {o : Options}

/-- The word consists of the tokens: of its characters, or of words with blanks around them. -/
def Cut (o : Options) (word : String) (tokens : List String) : Prop :=
  if o.wordsAreTokens then Text.Spaced (tokens.map String.toList) word.toList
  else String.join tokens = word ∧ ∀ t ∈ tokens, t.length = 1

/-- What is cut out of a word as one token: a character, or characters between blanks. -/
def Atomic (o : Options) (token : String) : Prop :=
  if o.wordsAreTokens then Text.IsWord token.toList else token.length = 1

instance (o : Options) (token : String) : Decidable (o.Atomic token) :=
  inferInstanceAs (Decidable (if o.wordsAreTokens then Text.IsWord token.toList else _))

theorem atomic_of_mem_tokens {word token : String} (h : token ∈ o.tokens word) :
    o.Atomic token := by
  unfold tokens at h
  unfold Atomic
  split_ifs with hmode
  · rw [if_pos hmode, List.mem_map] at h
    obtain ⟨cs, hcs, rfl⟩ := h
    rw [String.toList_ofList]
    exact Text.isWord_of_mem_words hcs
  · rw [if_neg hmode, List.mem_map] at h
    obtain ⟨c, _, rfl⟩ := h
    simp

theorem eq_singleton_of_length_eq_one {token : String} (h : token.length = 1) :
    ∃ c, token = String.singleton c := by
  rw [← String.length_toList, List.length_eq_one_iff] at h
  obtain ⟨c, hc⟩ := h
  exact ⟨c, String.toList_inj.mp (by rw [hc, String.toList_singleton])⟩

/-- Tokens of one character each are the characters of their row. -/
theorem map_singleton_join {tokens : List String} (h : ∀ t ∈ tokens, t.length = 1) :
    (String.join tokens).toList.map String.singleton = tokens := by
  induction tokens with
  | nil => rfl
  | cons t tokens ih =>
      obtain ⟨ht, hrest⟩ := List.forall_mem_cons.mp h
      obtain ⟨c, rfl⟩ := eq_singleton_of_length_eq_one ht
      rw [String.join_cons, String.toList_append, List.map_append, ih hrest,
        String.toList_singleton]
      rfl

theorem toList_join_map_singleton (cs : List Char) :
    (String.join (cs.map String.singleton)).toList = cs := by
  induction cs with
  | nil => rfl
  | cons c cs ih =>
      rw [List.map_cons, String.join_cons, String.toList_append, ih, String.toList_singleton]
      rfl

theorem intercalate_empty (tokens : List String) : "".intercalate tokens = String.join tokens := by
  induction tokens with
  | nil => rfl
  | cons t tokens ih =>
      cases tokens with
      | nil => simp [String.join_cons]
      | cons t' tokens =>
          rw [String.intercalate_cons_cons, String.append_empty, ih, String.join_cons,
            String.join_cons, String.join_cons]

theorem cut_iff {word : String} {tokens : List String} :
    o.Cut word tokens ↔ tokens = o.tokens word := by
  unfold Cut Options.tokens
  split_ifs with hmode
  · rw [Text.spaced_iff]
    constructor
    · intro h
      rw [← h, List.map_map]
      simp
    · intro h
      rw [h, List.map_map]
      simp
  · constructor
    · intro h
      rw [← h.1, map_singleton_join h.2]
    · intro h
      rw [h]
      refine ⟨String.toList_inj.mp (toList_join_map_singleton _), ?_⟩
      simp

theorem tokens_join_of_atomic {tokens : List String} (h : ∀ t ∈ tokens, o.Atomic t) :
    o.tokens (o.join tokens) = tokens := by
  unfold Options.tokens join
  unfold Atomic at h
  split_ifs at h ⊢ with hmode
  · have hpieces : ∀ p ∈ tokens.map String.toList, Text.IsWord p := List.forall_mem_map.mpr h
    have hwords := Text.words_intercalate_space hpieces
    rw [String.toList_intercalate, show " ".toList = [' '] from rfl, hwords]
    simp
  · rw [intercalate_empty, map_singleton_join h]

theorem tokens_join_eq_iff (o : Options) (tokens : List String) :
    o.tokens (o.join tokens) = tokens ↔ ∀ t ∈ tokens, o.Atomic t := by
  constructor
  · intro h t ht
    rw [← h] at ht
    exact atomic_of_mem_tokens ht
  · exact tokens_join_of_atomic

theorem tokens_congr {o o' : Options} (hmode : o'.wordsAreTokens = o.wordsAreTokens)
    (word : String) : o'.tokens word = o.tokens word := by
  rw [Options.tokens, Options.tokens, hmode]

end Options

end ChartParser
