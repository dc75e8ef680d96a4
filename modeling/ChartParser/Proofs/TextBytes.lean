import ChartParser.GrammarFile.Load
import Mathlib.Data.List.Basic

/-!
# A text and its bytes

A byte below 128 occurs in the encoding of no character but the one of that
number, whose encoding it is. Lines may therefore be cut before they are
decoded, as they are where bytes are read, or afterwards: a text loads as its
bytes do. A line of bytes can be decoded exactly if it is the encoding of a text.
-/
namespace ChartParser

namespace Text

/-- The bytes of a text. -/
def encode (cs : List Char) : List UInt8 := cs.flatMap String.utf8EncodeChar

theorem encode_cons (c : Char) (cs : List Char) :
    encode (c :: cs) = String.utf8EncodeChar c ++ encode cs := rfl

theorem encode_concat (cs : List Char) (c : Char) :
    encode (cs ++ [c]) = encode cs ++ String.utf8EncodeChar c := by
  rw [encode, List.flatMap_append, List.flatMap_singleton, encode]

@[simp] theorem isEmpty_encode (cs : List Char) : (encode cs).isEmpty = cs.isEmpty := by
  cases cs with
  | nil => rfl
  | cons c cs => simp [encode_cons]

theorem data_toUTF8 (text : String) : text.toUTF8.data.toList = encode text.toList := by
  have h : (String.ofList text.toList).toUTF8.data.toList = encode text.toList := by
    rw [String.toUTF8_eq_toByteArray, String.toByteArray_ofList, List.utf8Encode,
      List.data_toByteArray, List.toList_toArray, encode]
  rwa [String.ofList_toList] at h

theorem toNat_of_mem_utf8EncodeChar {c : Char} {b : UInt8} (h : b ∈ String.utf8EncodeChar c) :
    b.toNat = c.toNat ∨ 128 ≤ b.toNat := by
  have hval : c.val.toNat = c.toNat := rfl
  simp only [String.utf8EncodeChar, hval] at h
  split_ifs at h
  all_goals simp only [List.mem_cons, List.not_mem_nil, or_false] at h
  · rw [h, UInt8.toNat_ofNat']
    omega
  · right
    rcases h with rfl | rfl
    all_goals rw [UInt8.toNat_ofNat']; omega
  · right
    rcases h with rfl | rfl | rfl
    all_goals rw [UInt8.toNat_ofNat']; omega
  · right
    rcases h with rfl | rfl | rfl | rfl
    all_goals rw [UInt8.toNat_ofNat']; omega

theorem splitOn_append_of_not_mem {α : Type} [DecidableEq α] {sep : α} {front : List α}
    (h : sep ∉ front) (rest : List α) :
    (front ++ rest).splitOn sep = (rest.splitOn sep).modifyHead (front ++ ·) := by
  induction front with
  | nil => exact (congrFun List.modifyHead_id _).symm
  | cons a front ih =>
      rw [List.mem_cons, not_or] at h
      have ha : ¬(a == sep) = true := fun heq => h.1 (beq_iff_eq.mp heq).symm
      rw [List.cons_append, List.splitOn_cons_eq_if_modifyHead, if_neg ha, ih h.2,
        List.modifyHead_modifyHead]
      rfl

section Ascii
variable {d : Char} (hd : d.toNat < 128)
include hd

theorem utf8EncodeChar_of_lt : String.utf8EncodeChar d = [UInt8.ofNat d.toNat] := by
  have hval : d.val.toNat ≤ 127 := Nat.le_of_lt_succ hd
  simp only [String.utf8EncodeChar, if_pos hval]
  rfl

theorem mem_utf8EncodeChar_iff {c : Char} :
    UInt8.ofNat d.toNat ∈ String.utf8EncodeChar c ↔ c = d := by
  constructor
  · intro h
    have hbyte : (UInt8.ofNat d.toNat).toNat = d.toNat := by
      rw [UInt8.toNat_ofNat']
      omega
    rcases toNat_of_mem_utf8EncodeChar h with hsame | hlarge
    · exact Char.toNat_inj.mp (hsame.symm.trans hbyte)
    · omega
  · intro h
    rw [h, utf8EncodeChar_of_lt hd]
    exact List.mem_singleton_self _

theorem splitOn_encode (cs : List Char) :
    (encode cs).splitOn (UInt8.ofNat d.toNat) = (cs.splitOn d).map encode := by
  induction cs with
  | nil => simp [encode]
  | cons c cs ih =>
      rw [encode_cons, List.splitOn_cons_eq_if_modifyHead]
      by_cases hc : c = d
      · rw [hc, utf8EncodeChar_of_lt hd, List.singleton_append,
          List.splitOn_cons_eq_if_modifyHead, ih]
        simp [encode]
      · have hnot : UInt8.ofNat d.toNat ∉ String.utf8EncodeChar c :=
          fun h => hc ((mem_utf8EncodeChar_iff hd).mp h)
        obtain ⟨first, others, hsplit⟩ := List.exists_cons_of_ne_nil (List.splitOn_ne_nil d cs)
        rw [splitOn_append_of_not_mem hnot, ih, if_neg (by simpa using hc), hsplit]
        rfl

theorem dropReturn_encode (line : List Char) :
    dropReturn (UInt8.ofNat d.toNat) (encode line) = encode (dropReturn d line) := by
  rcases List.eq_nil_or_concat line with rfl | ⟨init, c, rfl⟩
  · rfl
  · have hlast : (encode init ++ String.utf8EncodeChar c).getLast? =
        (String.utf8EncodeChar c).getLast? :=
      List.getLast?_append_of_ne_nil _ String.utf8EncodeChar_ne_nil
    rw [List.concat_eq_append, encode_concat, dropReturn, dropReturn, hlast]
    by_cases hc : c = d
    · rw [hc, utf8EncodeChar_of_lt hd]
      simp
    · have hnot : (String.utf8EncodeChar c).getLast? ≠ some (UInt8.ofNat d.toNat) :=
        fun h => hc ((mem_utf8EncodeChar_iff hd).mp (List.mem_of_getLast? h))
      rw [if_neg hnot, if_neg (by simpa using hc), encode_concat]

end Ascii

theorem lines_encode {feed ret : Char} (hfeed : feed.toNat < 128) (hret : ret.toNat < 128)
    (cs : List Char) : lines (UInt8.ofNat feed.toNat) (UInt8.ofNat ret.toNat) (encode cs) =
      (lines feed ret cs).map encode := by
  have hended : ∀ pieces : List (List Char),
      (pieces.map encode).map (dropReturn (UInt8.ofNat ret.toNat)) =
        (pieces.map (dropReturn ret)).map encode := by
    intro pieces
    simp only [List.map_map]
    exact List.map_congr_left fun line _ => dropReturn_encode hret line
  simp only [lines]
  rw [splitOn_encode hfeed, List.map_append, ← List.map_dropLast, hended, List.getLast?_map]
  cases (cs.splitOn feed).getLast? with
  | none => rfl
  | some line => cases line <;> simp

end Text

namespace GrammarFile

theorem decodeLine_encode (cs : List Char) : decodeLine (Text.encode cs) = .ok cs := by
  have hbytes : (⟨(Text.encode cs).toArray⟩ : ByteArray) = (String.ofList cs).toByteArray := by
    rw [String.toByteArray_ofList]
    exact ByteArray.ext List.data_toByteArray.symm
  have hvalid : (String.ofList cs).toByteArray.IsValidUTF8 := (String.ofList cs).isValidUTF8
  rw [decodeLine, hbytes, String.fromUTF8?, dif_pos hvalid]
  exact congrArg Except.ok String.toList_ofList

/-- A line is decoded to the text whose bytes it is. -/
theorem decodeLine_eq_ok_iff {line : List UInt8} {cs : List Char} :
    decodeLine line = .ok cs ↔ line = Text.encode cs := by
  constructor
  · intro h
    unfold decodeLine String.fromUTF8? at h
    split at h
    · next text htext =>
      split_ifs at htext with hvalid
      obtain rfl := Option.some.inj htext
      rw [← Except.ok.inj h, ← Text.data_toUTF8]
      rfl
    · cases h
  · intro h
    rw [h, decodeLine_encode]

theorem eq_malformedText_of_decodeLine {line : List UInt8} {cause : FileFault}
    (h : decodeLine line = .error cause) : cause = .malformedText := by
  unfold decodeLine at h
  split at h
  · cases h
  · exact (Except.error.inj h).symm

/-- What is no text fails, and for this reason only. -/
theorem decodeLine_eq_error_iff {line : List UInt8} {cause : FileFault} :
    decodeLine line = .error cause ↔ cause = .malformedText ∧ ∀ cs, line ≠ Text.encode cs := by
  constructor
  · intro h
    refine ⟨eq_malformedText_of_decodeLine h, fun cs hline => ?_⟩
    rw [decodeLine_eq_ok_iff.mpr hline] at h
    cases h
  · intro h
    obtain ⟨rfl, hnone⟩ := h
    cases hline : decodeLine line with
    | error cause => rw [eq_malformedText_of_decodeLine hline]
    | ok cs => exact absurd (decodeLine_eq_ok_iff.mp hline) (hnone cs)

/-- The lines of the bytes of a text are the lines of the text. -/
theorem map_decodeLine_lines_encode (cs : List Char) :
    (Text.lines 10 13 (Text.encode cs)).map decodeLine =
      (Text.lines '\n' '\r' cs).map .ok := by
  have hfeed : '\n'.toNat < 128 := by decide
  have hret : '\r'.toNat < 128 := by decide
  have hlines : Text.lines 10 13 (Text.encode cs) =
      (Text.lines '\n' '\r' cs).map Text.encode :=
    Text.lines_encode hfeed hret cs
  have hdecode : decodeLine ∘ Text.encode = .ok := funext decodeLine_encode
  rw [hlines, List.map_map, hdecode]

/-- A text and its bytes give the same grammar or the same errors. -/
theorem ofBytes_toUTF8 (path text : String) :
    ofBytes path text.toUTF8.data.toList = ofText path text := by
  rw [ofBytes, ofText, Text.data_toUTF8, map_decodeLine_lines_encode]

end GrammarFile

end ChartParser
