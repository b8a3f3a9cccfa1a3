import Mathlib.Tactic.SplitIfs
import Repertoire.Json.Value

/-!
# Reading string literals back

What the writer puts between quotation marks is a literal to the reader, ends where the writer ends
it, and names the characters that were written. Every character has one of three spellings, and all
that is said about literals goes character by character over these.
-/

namespace Repertoire.Json.Quoted

open Repertoire.Text

variable {c : Char}

/-- The spellings of a character in a literal. -/
inductive Spelling (c : Char) : List Char → Prop
  /-- An escape of one letter. -/
  | named (k : Char) (hk : k ≠ 'u') (h : named? k = some c) : Spelling c ['\\', k]
  /-- An escape of four digits. -/
  | unit (a b : Char) (h : unit? '0' '0' a b = some c.toNat) (hc : c.toNat < 0x20) :
      Spelling c ['\\', 'u', '0', '0', a, b]
  /-- The character itself. -/
  | plain (hmark : c ≠ '\x22') (hescape : c ≠ '\\') (hc : ¬ c.toNat < 0x20) : Spelling c [c]

/-- Two hexadecimal digits are enough for the control characters. -/
theorem unit?_control :
    ∀ n < 0x20, unit? '0' '0' (hexDigit (n / 16)) (hexDigit (n % 16)) = some n := by
  decide

/-- The writer uses one of the spellings. -/
theorem spelling_encodeChar (c : Char) : Spelling c (encodeChar c) := by
  rw [encodeChar]
  split_ifs with hmark hescape hbackspace htab hline hfeed hreturn hcontrol
  · exact .named '\x22' (by decide) (by rw [hmark]; rfl)
  · exact .named '\\' (by decide) (by rw [hescape]; rfl)
  · exact .named 'b' (by decide) (hbackspace ▸ rfl)
  · exact .named 't' (by decide) (htab ▸ rfl)
  · exact .named 'n' (by decide) (hline ▸ rfl)
  · exact .named 'f' (by decide) (hfeed ▸ rfl)
  · exact .named 'r' (by decide) (hreturn ▸ rfl)
  · exact .unit _ _ (unit?_control _ hcontrol) hcontrol
  · exact .plain hmark hescape hcontrol

/-- A spelled character in front of a literal is read as that character. -/
theorem Spelling.decode_append {cs : List Char} (h : Spelling c cs) (rest : List Char) :
    decode (cs ++ rest) = (decode rest).map (c :: ·) := by
  cases h with
  | named k hk hnamed =>
    rw [List.cons_append, List.singleton_append, decode]
    · simp only [hnamed]
    · simp [hk]
  | unit a b hunit hc =>
    have hlow : isLowSurrogate c.toNat = false := by
      simp only [isLowSurrogate, Bool.and_eq_false_iff, decide_eq_false_iff_not]
      omega
    have hhigh : isHighSurrogate c.toNat = false := by
      simp only [isHighSurrogate, Bool.and_eq_false_iff, decide_eq_false_iff_not]
      omega
    simp only [List.cons_append, List.nil_append, decode, hunit, hlow, hhigh, Char.ofNat_toNat,
      Bool.false_eq_true, if_false]
  | plain hmark hescape hc =>
    rw [List.singleton_append, decode]
    · simp [hescape]
    · simp [hescape]

/-- A spelled character in front of a literal is taken into it. -/
theorem Spelling.scan_append {cs : List Char} (h : Spelling c cs) (rest : List Char) :
    scan (cs ++ rest) = (scan rest).map fun (literal, after) => (cs ++ literal, after) := by
  cases h with
  | named k hk hnamed =>
    rw [List.cons_append, List.singleton_append, scan]
    · simp [hnamed]
    · simp [hk]
  | unit a b hunit hc =>
    simp [scan, hunit]
  | plain hmark hescape hc =>
    rw [List.singleton_append, scan]
    · simp [hc, hescape]
    · exact fun hclose => hmark hclose
    · simp [hescape]
    · simp [hescape]

/-- A written text names its characters. -/
theorem decode_encode (cs : List Char) : decode (encode cs) = some cs := by
  induction cs with
  | nil => rfl
  | cons c cs ih =>
    rw [encode, List.flatMap_cons, (spelling_encodeChar c).decode_append, ← encode, ih]
    rfl

/-- A written text ends at the mark that follows it. -/
theorem scan_encode (cs rest : List Char) :
    scan (encode cs ++ '\x22' :: rest) = some (encode cs, rest) := by
  induction cs with
  | nil => rfl
  | cons c cs ih =>
    rw [encode, List.flatMap_cons, List.append_assoc, (spelling_encodeChar c).scan_append,
      ← encode, ih]
    rfl

end Repertoire.Json.Quoted

namespace Repertoire.Json

/-- A written text reads back. -/
theorem textOf?_encode (s : String) : textOf? (Quoted.encode s.toList) = some s := by
  rw [textOf?, Quoted.decode_encode, Option.map_some, String.ofList_toList]

end Repertoire.Json
