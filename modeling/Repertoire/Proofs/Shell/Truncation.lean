import Repertoire.Proofs.Text.Boundary
import Repertoire.Shell.System

/-!
# Outputs that are cut

An output that is longer than its limit keeps the characters that are wholly within the limit. The
limit lies within a character, maybe at its front, and the search for a boundary stops at that front.
A character has four bytes at most, so the search goes back three bytes at most, and these are all
that the kept characters are short of the limit.
-/

namespace Repertoire

open Repertoire.Text
open String (utf8Len)

namespace SystemShell

variable {limit i : ℕ} {text : String} {front back : List Char} {c : Char}

/-- The search for a boundary goes back from an offset by a number of bytes, three at most. It passes
no boundary, and finds one before there are no more bytes to go back. -/
structure GoesBack (text : String) (offset steps : ℕ) : Prop where
  room : steps ≤ offset
  few : steps ≤ 3
  passed : ∀ k < steps, isBoundary text (offset - k) = false
  found : isBoundary text (offset - steps) = true
  stop : boundaryUpTo? text offset = some (offset - steps)

/-- The kept text is the longest of those that a text starts with and that are within the limit.
These are made of whole characters. -/
structure IsLongestFront (limit : ℕ) (text kept : String) : Prop where
  front : kept.toList <+: text.toList
  within : kept.utf8ByteSize ≤ limit
  longest : ∀ other : String,
    other.toList <+: text.toList → other.utf8ByteSize ≤ limit → other.toList <+: kept.toList

/-- The cut of a text to a limit never fails. It changes nothing in a text within the limit. Of any
other it keeps the longest front within the limit, which is short of the limit by the bytes that the
search goes back. -/
structure CutsTo (limit : ℕ) (text : String) : Prop where
  total : truncate? limit text = some (truncate limit text)
  whole : text.utf8ByteSize ≤ limit → truncate limit text = text
  cut : limit < text.utf8ByteSize → ∃ kept steps,
    IsLongestFront limit text kept ∧ GoesBack text limit steps ∧
      kept.utf8ByteSize + steps = limit ∧ truncate limit text = kept ++ notice

/-- From within a character, the search goes back to its front. -/
theorem goesBack_within (htext : text.toList = front ++ c :: back) (hi : i < c.utf8Size) :
    GoesBack text (utf8Len front + i) i := by
  have hfour := c.utf8Size_le_four
  refine ⟨Nat.le_add_left i _, by omega, fun k hk => ?passed, ?found, ?stop⟩
  case passed =>
    have hinside : ¬isBoundary text (utf8Len front + (i - k)) = true :=
      mt (isBoundary_within htext (by omega)).mp (by omega)
    rw [Nat.add_sub_assoc hk.le, Bool.eq_false_iff]
    exact hinside
  case found =>
    rw [Nat.add_sub_cancel]
    exact (isBoundary_within htext c.utf8Size_pos).mpr rfl
  case stop => rw [Nat.add_sub_cancel, boundaryUpTo?_within htext hi]

/-- A front of a text that has not all bytes of a character ends in front of that character. -/
theorem prefix_of_utf8Len_lt {other : List Char} (h : other <+: front ++ c :: back)
    (hlen : utf8Len other < utf8Len front + c.utf8Size) : other <+: front := by
  induction front generalizing other with
  | nil =>
    obtain rfl | ⟨more, rfl, -⟩ := List.prefix_cons_iff.mp h
    · exact List.nil_prefix
    · simp only [String.utf8Len_cons, String.utf8Len_nil] at hlen
      omega
  | cons d front ih =>
    obtain rfl | ⟨more, rfl, hmore⟩ := List.prefix_cons_iff.mp h
    · exact List.nil_prefix
    · simp only [String.utf8Len_cons] at hlen
      exact List.cons_prefix_cons.mpr ⟨rfl, ih hmore (by omega)⟩

/-- For a limit within a character, the longest front ends in front of that character. -/
theorem isLongestFront_within (htext : text.toList = front ++ c :: back) (hi : i < c.utf8Size) :
    IsLongestFront (utf8Len front + i) text (String.ofList front) := by
  refine ⟨?_, ?_, fun other hother hwithin => ?_⟩
  · rw [htext, String.toList_ofList]
    exact List.prefix_append front _
  · rw [String.utf8ByteSize_ofList]
    exact Nat.le_add_right _ i
  · rw [← String.utf8Len_toList] at hwithin
    rw [String.toList_ofList]
    exact prefix_of_utf8Len_lt (htext ▸ hother) (by omega)

/-- A text whose limit lies within a character is cut in front of that character. -/
theorem truncate?_within (htext : text.toList = front ++ c :: back) (hi : i < c.utf8Size) :
    truncate? (utf8Len front + i) text = some (String.ofList front ++ notice) := by
  have hlong : ¬text.utf8ByteSize ≤ utf8Len front + i := by
    rw [← String.utf8Len_toList, htext, String.utf8Len_append, String.utf8Len_cons]
    omega
  rw [truncate?, if_neg hlong, boundaryUpTo?_within htext hi]
  simp only [Option.bind_eq_bind, Option.bind_some, keepBytes?_front htext, Option.pure_def]

/-- A cut that does not fail gives the text that is cut. -/
theorem truncate_eq {result : String} (h : truncate? limit text = some result) :
    truncate limit text = result := by
  rw [truncate, h, Option.getD_some]

/-- An output is cut to any limit, even to one of no bytes, without splitting a character. -/
theorem truncate_cutsTo (limit : ℕ) (text : String) : CutsTo limit text := by
  by_cases hsize : text.utf8ByteSize ≤ limit
  · have hwhole : truncate? limit text = some text := if_pos hsize
    exact ⟨by rw [truncate_eq hwhole, hwhole], fun _ => truncate_eq hwhole,
      fun hlong => absurd hsize (not_le.mpr hlong)⟩
  · have hin : limit < utf8Len text.toList := by
      rw [String.utf8Len_toList]
      exact not_le.mp hsize
    obtain ⟨front, c, back, i, htext, hi, rfl⟩ := exists_char_at hin
    have hcut := truncate?_within htext hi
    exact ⟨by rw [truncate_eq hcut, hcut], fun hshort => absurd hshort hsize,
      fun _ => ⟨String.ofList front, i, isLongestFront_within htext hi, goesBack_within htext hi,
        by rw [String.utf8ByteSize_ofList], truncate_eq hcut⟩⟩

/-- A limit within the second of two characters. -/
example : truncate 2 "aé" = "a\n... [output truncated]" := by decide

end SystemShell

end Repertoire
