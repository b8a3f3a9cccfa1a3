import Mathlib.Data.String.Basic
import Repertoire.Proofs.Text.Cut

/-!
# Offsets in bytes

A place in a text can be given by the number of bytes in front of it. Not every number of bytes is a
place: it may lie beyond the end of the text, or within a character. Cutting at an offset fails
there. An offset at which a mark was found is a place, and so is the one behind the mark.
-/

namespace Repertoire.Text

open String (utf8Len)

variable {cs before after mark : List Char} {n : ℕ}

/-- What stands before and behind an offset, if that is a place in the text. -/
def cutAtByte? : ℕ → List Char → Option (List Char × List Char)
  | 0, cs => some ([], cs)
  | _ + 1, [] => none
  | n + 1, c :: cs =>
    if c.utf8Size ≤ n + 1 then
      (cutAtByte? (n + 1 - c.utf8Size) cs).map fun (before, after) => (c :: before, after)
    else none

/-- The offset at which a mark stands for the first time. -/
def byteOf? (mark : List Char) : List Char → Option ℕ
  | [] => if mark.isEmpty then some 0 else none
  | c :: cs =>
    if mark.isPrefixOf (c :: cs) then some 0
    else (byteOf? mark cs).map fun n => n + c.utf8Size

/-- Nothing stands before the first byte. -/
theorem cutAtByte?_zero :
    cutAtByte? 0 cs = some (before, after) ↔ cs = before ++ after ∧ utf8Len before = 0 := by
  rw [String.utf8Len_eq_zero, cutAtByte?, Option.some.injEq, Prod.mk.injEq]
  constructor
  · rintro ⟨rfl, rfl⟩
    exact ⟨rfl, rfl⟩
  · rintro ⟨hsame, rfl⟩
    exact ⟨rfl, hsame⟩

/-- A cut at an offset leaves nothing out, and the offset is the number of bytes before it. -/
theorem cutAtByte?_eq_some_iff :
    cutAtByte? n cs = some (before, after) ↔ cs = before ++ after ∧ utf8Len before = n := by
  induction cs generalizing n before with
  | nil =>
    cases n with
    | zero => exact cutAtByte?_zero
    | succ n =>
      simp only [cutAtByte?, reduceCtorEq, false_iff, not_and]
      rintro hnil
      rw [(List.append_eq_nil_iff.mp hnil.symm).1]
      simp
  | cons c cs ih =>
    cases n with
    | zero => exact cutAtByte?_zero
    | succ n =>
      rw [cutAtByte?]
      cases before with
      | nil => simp
      | cons b before =>
        rw [List.cons_append, List.cons.injEq, String.utf8Len_cons]
        split
        · rename_i hle
          simp only [Option.map_eq_some_iff, Prod.exists, Prod.mk.injEq, List.cons.injEq]
          constructor
          · rintro ⟨front, back, hcut, ⟨rfl, rfl⟩, rfl⟩
            obtain ⟨hcs, hlen⟩ := ih.mp hcut
            exact ⟨⟨rfl, hcs⟩, by omega⟩
          · rintro ⟨⟨rfl, hcs⟩, hlen⟩
            exact ⟨before, after, ih.mpr ⟨hcs, by omega⟩, ⟨rfl, rfl⟩, rfl⟩
        · rename_i hlong
          simp only [reduceCtorEq, false_iff, not_and, and_imp]
          rintro rfl - hlen
          omega

/-- A text can be cut at an offset exactly when that is a valid position in it. -/
theorem cutAtByte?_ne_none_iff :
    cutAtByte? n cs ≠ none ↔ String.Pos.Raw.IsValid (String.ofList cs) ⟨n⟩ := by
  rw [Option.ne_none_iff_exists', String.Pos.Raw.isValid_iff_exists_append]
  constructor
  · rintro ⟨⟨before, after⟩, hcut⟩
    obtain ⟨rfl, rfl⟩ := cutAtByte?_eq_some_iff.mp hcut
    exact ⟨String.ofList before, String.ofList after, String.ofList_append,
      by simp⟩
  · rintro ⟨before, after, hsame, hn⟩
    refine ⟨(before.toList, after.toList), cutAtByte?_eq_some_iff.mpr ⟨?_, ?_⟩⟩
    · rw [← String.toList_append, ← hsame, String.toList_ofList]
    · have hbytes := congrArg String.Pos.Raw.byteIdx hn
      rw [← String.utf8ByteSize_ofList, String.ofList_toList]
      exact hbytes.symm

/-- A mark is found at the offset of the cut at it. -/
theorem byteOf?_eq (mark cs : List Char) :
    byteOf? mark cs = (cutAt? mark cs).map fun cut => utf8Len cut.1 := by
  induction cs with
  | nil =>
    rw [byteOf?, cutAt?]
    split <;> rfl
  | cons c cs ih =>
    rw [byteOf?, cutAt?]
    split
    · rfl
    · rw [ih, Option.map_map, Option.map_map]
      rfl

end Repertoire.Text
