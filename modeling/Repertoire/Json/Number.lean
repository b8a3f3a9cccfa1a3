import Repertoire.Decimal.Shortest
import Repertoire.Text.Digits

/-!
# JSON numbers

The written form of a number and its value. Integers that fit sixty-four bits, signed or
unsigned, are exact; every other number is a binary64 one.

The value of a binary64 number is worked out from a significand of at most sixty-four bits:
digits that no longer fit only move the point. The significand is rounded, and then multiplied
or divided by one rounded power of ten, so that the last bit can differ from the nearest number.
A number too large to be finite has no value.
-/

namespace Repertoire.Json

open Repertoire.Text Repertoire.Decimal

/-- The parts of a number as written; digits are kept as text. -/
structure Numeral where
  negative : Bool
  whole : List Char
  fraction : Option (List Char)
  exponent : Option (Bool × List Char)
deriving DecidableEq, Repr

/-- The value of a number. -/
inductive Number where
  | integer (value : Int)
  | double (value : Binary64)
deriving DecidableEq, Repr

/-- The text of a number. -/
def Number.text : Number → String
  | .integer n => toString n
  | .double d => d.text Numeral.compact

namespace Numeral

/-- The digits at the front of a text, and the rest; there is at least one. -/
def scanDigits (cs : List Char) : Option (List Char × List Char) :=
  let digits := cs.takeWhile isDigit
  if digits.isEmpty then none else some (digits, cs.dropWhile isDigit)

/-- The whole part: a zero alone, or digits that start with another one. -/
def scanWhole (cs : List Char) : Option (List Char × List Char) :=
  (scanDigits cs).filter fun (digits, _) => digits = ['0'] || digits.head? ≠ some '0'

/-- The fraction, if a point starts one; a point without digits is refused. -/
def scanFraction : List Char → Option (Option (List Char) × List Char)
  | '.' :: cs => (scanDigits cs).map fun (digits, rest) => (some digits, rest)
  | cs => some (none, cs)

/-- A minus sign at the front; `true` stands for one. -/
def scanMinus : List Char → Bool × List Char
  | '-' :: cs => (true, cs)
  | cs => (false, cs)

/-- A sign at the front; `true` stands for a minus sign. -/
def scanSign : List Char → Bool × List Char
  | '+' :: cs => (false, cs)
  | cs => scanMinus cs

/-- An exponent after its letter; `true` stands for a minus sign. -/
def scanPower (cs : List Char) : Option ((Bool × List Char) × List Char) :=
  let (minus, cs) := scanSign cs
  (scanDigits cs).map fun (digits, rest) => ((minus, digits), rest)

/-- The exponent, if a letter starts one. -/
def scanExponent : List Char → Option (Option (Bool × List Char) × List Char)
  | 'e' :: cs => (scanPower cs).map fun (power, rest) => (some power, rest)
  | 'E' :: cs => (scanPower cs).map fun (power, rest) => (some power, rest)
  | cs => some (none, cs)

/-- The number at the front of a text. -/
def scan (cs : List Char) : Option (Numeral × List Char) := do
  let (negative, cs) := scanMinus cs
  let (whole, cs) ← scanWhole cs
  let (fraction, cs) ← scanFraction cs
  let (exponent, cs) ← scanExponent cs
  return (⟨negative, whole, fraction, exponent⟩, cs)

/-- The largest significand. -/
def maxSignificand : Nat := Nat.pow 2 64 - 1

/-- A significand with one digit more, if it still fits. -/
def extend? (significand : Nat) (c : Char) : Option Nat :=
  let n := significand * 10 + (digitValue? c).getD 0
  if n ≤ maxSignificand then some n else none

/-- The significand of whole digits and the number of digits that did not fit. From the first
digit that does not fit, none is taken. -/
def wholeSignificand : Nat → List Char → Nat × Nat
  | s, [] => (s, 0)
  | s, c :: cs =>
    match extend? s c with
    | some s => wholeSignificand s cs
    | none => (s, cs.length + 1)

/-- A significand extended by the digits of a fraction, and the number of digits taken. -/
def withFraction : Nat → Nat → List Char → Nat × Nat
  | s, taken, [] => (s, taken)
  | s, taken, c :: cs =>
    match extend? s c with
    | some s => withFraction s (taken + 1) cs
    | none => (s, taken)

/-- The largest exponent that is counted. -/
def maxExponent : Nat := Nat.pow 2 31 - 1

/-- A magnitude times ten to the exponent, in steps of at most `1e308`; `none` when the result
is too large. The first argument bounds the number of steps. -/
def scaleBy : Nat → Magnitude → Int → Option Magnitude
  | 0, _, _ => some Magnitude.zero
  | n + 1, m, e =>
    if e.natAbs ≤ 308 then
      if 0 ≤ e then
        match m.mul (Magnitude.powerOfTen e.natAbs) with
        | .infinite => none
        | .finite m e => some (.finite m e)
      else some (m.div (Magnitude.powerOfTen e.natAbs))
    else if m = Magnitude.zero then some Magnitude.zero
    else if 0 ≤ e then none
    else scaleBy n (m.div (Magnitude.powerOfTen 308)) (e + 308)

/-- The binary64 number of a significand and an exponent of ten. -/
def double? (negative : Bool) (significand : Nat) (exponent : Int) : Option Number :=
  (scaleBy 4 (Magnitude.ofNat significand) exponent).map fun m => .double (.number negative m)

/-- The number of an integer literal that fits sixty-four bits. Minus zero and negative
integers below the signed range are binary64 numbers. -/
def integerNumber (negative : Bool) (significand : Nat) : Number :=
  if negative then
    if significand = 0 ∨ Nat.pow 2 63 < significand then
      .double (.number true (Magnitude.ofNat significand))
    else .integer (-(significand : Int))
  else .integer significand

/-- The value of a number, if it is in range. -/
def value? (n : Numeral) : Option Number :=
  let (significand, dropped) := wholeSignificand 0 n.whole
  if n.fraction.isNone && n.exponent.isNone && dropped = 0 then
    some (integerNumber n.negative significand)
  else
    let (significand, places) := withFraction significand 0 (n.fraction.getD [])
    let point : Int := (dropped : Int) - (places : Int)
    match n.exponent with
    | none => double? n.negative significand point
    | some (minus, digits) =>
      let e := numberOf 10 digits
      if maxExponent < e then
        if significand ≠ 0 ∧ !minus then none
        else some (.double (.number n.negative Magnitude.zero))
      else double? n.negative significand (if minus then point - e else point + e)

end Numeral

end Repertoire.Json
