import Mathlib.Tactic.IntervalCases
import Repertoire.Proofs.Text.Offset
import Repertoire.Text.Utf8

/-!
# Boundaries of characters

All bytes of a character but the first continue it, and no character starts with such a byte. So one
byte tells whether there is a boundary in front of it. An offset in front of the end of a text lies
within one of its characters, maybe at the front of that character. A search that goes back byte by
byte stops there.
-/

namespace Repertoire.Text

open String (utf8Len)

variable {text : String} {front back : List Char} {c : Char} {offset i : ℕ}

/-- The bytes that continue a character are all but its first. -/
theorem isContinuation_getElem (c : Char) (hi : i < (String.utf8EncodeChar c).length) :
    isContinuation (String.utf8EncodeChar c)[i] = true ↔ i ≠ 0 := by
  revert hi
  -- one case for each number of bytes, where every byte has its own range
  fun_cases String.utf8EncodeChar c
  all_goals
    intro hi
    simp only [List.length_cons, List.length_nil] at hi
    interval_cases i <;> simp [isContinuation, UInt8.le_iff_toNat_le] <;> omega

/-- An offset in front of the end lies within a character. -/
theorem exists_char_at {cs : List Char} (h : offset < utf8Len cs) :
    ∃ front c back i, cs = front ++ c :: back ∧ i < c.utf8Size ∧ offset = utf8Len front + i := by
  induction cs generalizing offset with
  | nil => simp at h
  | cons c cs ih =>
    rw [String.utf8Len_cons] at h
    by_cases hin : offset < c.utf8Size
    · exact ⟨[], c, cs, offset, rfl, hin, by simp⟩
    · have hbehind : offset - c.utf8Size < utf8Len cs := by omega
      obtain ⟨front, d, back, i, rfl, hi, hoffset⟩ := ih hbehind
      refine ⟨c :: front, d, back, i, rfl, hi, ?_⟩
      rw [String.utf8Len_cons]
      omega

/-- The bytes of an array are those of the list that it was made of. -/
theorem toByteArray_getElem? (bytes : List UInt8) : bytes.toByteArray[i]? = bytes[i]? := by
  simp [getElem?_def, List.getElem_toByteArray]

/-- A text has as many bytes as its characters have. -/
theorem length_flatMap_utf8EncodeChar (cs : List Char) :
    (cs.flatMap String.utf8EncodeChar).length = utf8Len cs := by
  rw [← String.utf8ByteSize_ofList, ← List.size_toByteArray]
  rfl

/-- The bytes behind the front of a text are those of the next character. -/
theorem toUTF8_getElem? (htext : text.toList = front ++ c :: back) (hi : i < c.utf8Size) :
    text.toUTF8[utf8Len front + i]? = (String.utf8EncodeChar c)[i]? := by
  have hbytes : text.toUTF8 = (text.toList.flatMap String.utf8EncodeChar).toByteArray := by
    rw [← List.utf8Encode, ← String.toByteArray_ofList, String.ofList_toList]
    rfl
  rw [hbytes, htext, List.flatMap_append, List.flatMap_cons, toByteArray_getElem?,
    ← length_flatMap_utf8EncodeChar, List.getElem?_append_right (by omega), Nat.add_sub_cancel_left,
    List.getElem?_append_left (by rwa [String.length_utf8EncodeChar])]

/-- Within a character, the only boundary is at its front. -/
theorem isBoundary_within (htext : text.toList = front ++ c :: back) (hi : i < c.utf8Size) :
    isBoundary text (utf8Len front + i) = true ↔ i = 0 := by
  have hlen : i < (String.utf8EncodeChar c).length := by rwa [String.length_utf8EncodeChar]
  have hbyte := isContinuation_getElem c hlen
  rw [isBoundary, toUTF8_getElem? htext hi, List.getElem?_eq_getElem hlen]
  simp only [Bool.or_eq_true, beq_iff_eq, Bool.not_eq_true']
  constructor
  · rintro (hfront | hbreak)
    · omega
    · by_contra hne
      rw [hbyte.mpr hne] at hbreak
      contradiction
  · intro hzero
    exact .inr (Bool.eq_false_iff.mpr fun hcontinues => hbyte.mp hcontinues hzero)

/-- From the end of a text on, the only boundary is the end. -/
theorem isBoundary_behind (h : text.utf8ByteSize ≤ offset) :
    isBoundary text offset = true ↔ offset = text.utf8ByteSize := by
  have hnone : text.toUTF8[offset]? = none := getElem?_neg _ _ (not_lt.mpr h)
  rw [isBoundary, hnone]
  simp only [Bool.or_eq_true, beq_iff_eq]
  omega

/-- The boundaries of a text are the offsets at which it can be cut. -/
theorem isBoundary_iff : isBoundary text offset = true ↔ cutAtByte? offset text.toList ≠ none := by
  rw [Option.ne_none_iff_exists']
  constructor
  · intro hboundary
    by_cases hin : offset < utf8Len text.toList
    · obtain ⟨front, c, back, i, htext, hi, rfl⟩ := exists_char_at hin
      rw [isBoundary_within htext hi] at hboundary
      exact ⟨(front, c :: back), cutAtByte?_eq_some_iff.mpr ⟨htext, by omega⟩⟩
    · rw [String.utf8Len_toList] at hin
      obtain rfl := (isBoundary_behind (not_lt.mp hin)).mp hboundary
      exact ⟨(text.toList, []), cutAtByte?_eq_some_iff.mpr ⟨by simp, text.utf8Len_toList⟩⟩
  · rintro ⟨⟨front, back⟩, hcut⟩
    obtain ⟨htext, rfl⟩ := cutAtByte?_eq_some_iff.mp hcut
    cases back with
    | nil =>
      rw [List.append_nil] at htext
      rw [← htext, String.utf8Len_toList]
      exact (isBoundary_behind le_rfl).mpr rfl
    | cons c back => exact (isBoundary_within htext c.utf8Size_pos).mpr rfl

/-- At a boundary there is nothing to search for. -/
theorem boundaryUpTo?_of_isBoundary (h : isBoundary text offset = true) :
    boundaryUpTo? text offset = some offset := by
  cases offset with
  | zero => rw [boundaryUpTo?, if_pos h]
  | succ offset => rw [boundaryUpTo?, if_pos h]

/-- A search from within a character ends at the front of that character. -/
theorem boundaryUpTo?_within (htext : text.toList = front ++ c :: back) (hi : i < c.utf8Size) :
    boundaryUpTo? text (utf8Len front + i) = some (utf8Len front) := by
  induction i with
  | zero => exact boundaryUpTo?_of_isBoundary ((isBoundary_within htext hi).mpr rfl)
  | succ i ih =>
    have hinside : ¬isBoundary text (utf8Len front + i + 1) = true :=
      mt (isBoundary_within htext hi).mp (Nat.succ_ne_zero i)
    rw [← Nat.add_assoc, boundaryUpTo?, if_neg hinside, ih (by omega)]

/-- A text can be cut at a boundary, which keeps the characters in front of it. -/
theorem keepBytes?_front (htext : text.toList = front ++ back) :
    keepBytes? text (utf8Len front) = some (String.ofList front) := by
  have hboundary : isBoundary text (utf8Len front) = true := by
    rw [isBoundary_iff, cutAtByte?_eq_some_iff.mpr ⟨htext, rfl⟩]
    exact Option.some_ne_none _
  obtain rfl : text = String.ofList front ++ String.ofList back := by
    rw [← String.ofList_append, ← htext, String.ofList_toList]
  have hwhole : ¬(String.ofList front ++ String.ofList back).utf8ByteSize < utf8Len front := by
    rw [String.utf8ByteSize_append, String.utf8ByteSize_ofList]
    omega
  have hbytes : (String.ofList front ++ String.ofList back).toUTF8.extract 0 (utf8Len front) =
      (String.ofList front).toUTF8 :=
    ByteArray.extract_append_eq_left (String.utf8ByteSize_ofList front).symm
  rw [keepBytes?, if_neg hwhole, if_pos hboundary, hbytes]
  exact dif_pos (String.ofList front).isValidUTF8

end Repertoire.Text
