import Mathlib.Algebra.Group.Int.Defs
import Mathlib.Algebra.Group.Nat.Defs
import Repertoire.Json.Number

/-!
# Integers as numbers

An integer of sixty-four bits is written by its decimal digits behind a minus sign if it is
negative, and read as exactly that integer. This takes in the least one, whose digits are one more
than the greatest integer, and zero, which has no sign: zero with a minus sign is no integer.

Digits are read from the front, and a number gets its last digit last, so the induction is on the
number and takes its last digit off.
-/

namespace Repertoire.Json

open Repertoire.Text

namespace Numeral

/-- The decimal form of an integer. -/
def ofInt (n : ℤ) : Numeral := ⟨n < 0, Nat.toDigits 10 n.natAbs, none, none⟩

variable {cs : List Char} {m n s : ℕ}

/-- A decimal digit is worth what it was made from. -/
theorem digitValue?_digitChar {d : ℕ} (hd : d < 10) : digitValue? d.digitChar = some d := by
  have hdigits : ∀ d < 10, digitValue? (Nat.digitChar d) = some d := by decide
  exact hdigits d hd

/-- A digit that fits is taken. -/
theorem extend?_digitChar {d : ℕ} (hd : d < 10) (hfits : s * 10 + d ≤ maxSignificand) :
    extend? s d.digitChar = some (s * 10 + d) := by
  rw [extend?, digitValue?_digitChar hd, Option.getD_some, if_pos hfits]

/-- One more digit behind digits that were all taken. -/
theorem wholeSignificand_concat {c : Char} (hcs : wholeSignificand s cs = (m, 0))
    (hc : extend? m c = some n) : wholeSignificand s (cs ++ [c]) = (n, 0) := by
  induction cs generalizing s with
  | nil =>
    obtain rfl : s = m := congrArg Prod.fst hcs
    simp only [List.nil_append, wholeSignificand, hc]
  | cons d cs ih =>
    rw [List.cons_append, wholeSignificand]
    rw [wholeSignificand] at hcs
    cases hd : extend? s d with
    | none =>
      rw [hd] at hcs
      exact absurd (congrArg Prod.snd hcs) (Nat.succ_ne_zero _)
    | some t =>
      rw [hd] at hcs
      exact ih hcs

/-- All digits of a significand that fits are taken. -/
theorem wholeSignificand_toDigits (hfits : n ≤ maxSignificand) :
    wholeSignificand 0 (Nat.toDigits 10 n) = (n, 0) := by
  induction n using Nat.strongRecOn with
  | ind n ih =>
    by_cases hn : n < 10
    · have hdigit := extend?_digitChar (s := 0) hn (by omega)
      have hnone : wholeSignificand 0 [] = (0, 0) := rfl
      rw [Nat.toDigits_of_lt_base hn]
      exact wholeSignificand_concat hnone (by simpa using hdigit)
    · have hsplit : n / 10 * 10 + n % 10 = n := Nat.div_add_mod' n 10
      have hdigit := extend?_digitChar (Nat.mod_lt n (by decide))
        (Nat.le_trans (Nat.le_of_eq hsplit) hfits)
      rw [Nat.toDigits_of_base_le (by decide) (Nat.le_of_not_lt hn)]
      exact wholeSignificand_concat (ih (n / 10) (by omega) (by omega)) (by rw [hdigit, hsplit])

/-- A magnitude with its sign is the integer, unless it is out of range or zero has a sign. -/
theorem integerNumber_natAbs {n : ℤ} (hlow : -(2 ^ 63) ≤ n) :
    integerNumber (n < 0) n.natAbs = .integer n := by
  have hpow : Nat.pow 2 63 = 2 ^ 63 := rfl
  rw [integerNumber]
  by_cases hn : n < 0
  · have hrange : ¬(n.natAbs = 0 ∨ Nat.pow 2 63 < n.natAbs) := by omega
    have hback : -(n.natAbs : ℤ) = n := by omega
    simp only [hn, decide_true, if_true, if_neg hrange, hback]
  · have hback : (n.natAbs : ℤ) = n := by omega
    simp only [hn, decide_false, Bool.false_eq_true, if_false, hback]

/-- An integer of sixty-four bits is read as it is. -/
theorem value?_ofInt (n : Int64) : (ofInt n.toInt).value? = some (.integer n.toInt) := by
  have hfits : n.toInt.natAbs ≤ maxSignificand := by
    have hpow : Nat.pow 2 64 = 2 ^ 64 := rfl
    have hlow := n.le_toInt
    have hhigh := n.toInt_lt
    rw [maxSignificand]
    omega
  rw [value?, ofInt, wholeSignificand_toDigits hfits]
  simp [integerNumber_natAbs n.le_toInt]

/-- Zero with a minus sign is no integer. -/
example : (⟨true, ['0'], none, none⟩ : Numeral).value? ≠ some (.integer 0) := by decide +kernel

end Numeral

end Repertoire.Json
