/-!
# Binary64 numbers

The finite magnitudes that sixty-four bits hold, as a mantissa below `2 ^ 53` and an exponent
of two from `-1074` to `971`, and rounding of an exact ratio to the nearest of them, a tie
going to the even mantissa. All arithmetic is exact until the one rounding at its end.
-/

namespace Repertoire.Decimal

/-- A non-negative magnitude: `mantissa * 2 ^ exponent`, or one too large to be finite. -/
inductive Magnitude where
  | finite (mantissa : Nat) (exponent : Int)
  | infinite
deriving DecidableEq, Repr

/-- A signed number, or none at all. -/
inductive Binary64 where
  | number (negative : Bool) (magnitude : Magnitude)
  | notANumber
deriving DecidableEq, Repr

namespace Magnitude

/-- The magnitude of zero. -/
def zero : Magnitude := .finite 0 (-1074)

/-- The largest exponent of a finite magnitude. -/
def maxExponent : Int := 971

/-- `num / den` as mantissa and remainder over a new denominator, for the exponent `e`. -/
def scaled (num den : Nat) (e : Int) : Nat × Nat × Nat :=
  let top := if e < 0 then num * Nat.pow 2 e.natAbs else num
  let bottom := if e < 0 then den else den * Nat.pow 2 e.natAbs
  (top / bottom, top % bottom, bottom)

/-- The mantissa rounded by its remainder, a tie going to the even one. -/
def roundHalfEven (q r den : Nat) : Nat :=
  if 2 * r < den then q
  else if 2 * r = den then (if q % 2 = 0 then q else q + 1)
  else q + 1

/-- The exponent that gives `num / den` a mantissa of fifty-three bits, or the least one. -/
def exponentFor (num den : Nat) : Int :=
  let guess : Int := (Nat.log2 num : Int) - (Nat.log2 den : Int) - 52
  let (q, _, _) := scaled num den guess
  let exact := if q < Nat.pow 2 52 then guess - 1 else if Nat.pow 2 53 ≤ q then guess + 1 else guess
  max exact (-1074)

/-- The magnitude nearest to `num / den`. -/
def ofRatio (num den : Nat) : Magnitude :=
  if num = 0 then zero
  else
    let e := exponentFor num den
    let (q, r, d) := scaled num den e
    let m := roundHalfEven q r d
    let (m, e) := if m = Nat.pow 2 53 then (Nat.pow 2 52, e + 1) else (m, e)
    if maxExponent < e then .infinite else .finite m e

/-- The magnitude nearest to a natural number. -/
def ofNat (n : Nat) : Magnitude := ofRatio n 1

/-- The magnitude nearest to `digits * 10 ^ exponent`. Exponents far outside the range are
decided by the number of digits alone. -/
def ofDecimal (digits : Nat) (exponent : Int) : Magnitude :=
  if digits = 0 then zero
  else
    let size : Int := (Nat.log2 digits : Int) * 3 / 10
    if 400 < exponent + size then .infinite
    else if exponent + size < -800 then zero
    else if exponent < 0 then ofRatio digits (Nat.pow 10 exponent.natAbs)
    else ofRatio (digits * Nat.pow 10 exponent.natAbs) 1

/-- The exact ratio a finite magnitude stands for. -/
def ratio : Nat → Int → Nat × Nat
  | m, e => if e < 0 then (m, Nat.pow 2 e.natAbs) else (m * Nat.pow 2 e.natAbs, 1)

/-- The rounded product. -/
def mul : Magnitude → Magnitude → Magnitude
  | .finite m₁ e₁, .finite m₂ e₂ =>
    let (n₁, d₁) := ratio m₁ e₁
    let (n₂, d₂) := ratio m₂ e₂
    ofRatio (n₁ * n₂) (d₁ * d₂)
  | _, _ => .infinite

/-- The rounded quotient by a positive finite magnitude. -/
def div : Magnitude → Magnitude → Magnitude
  | .finite m₁ e₁, .finite m₂ e₂ =>
    let (n₁, d₁) := ratio m₁ e₁
    let (n₂, d₂) := ratio m₂ e₂
    ofRatio (n₁ * d₂) (d₁ * n₂)
  | .infinite, _ => .infinite
  | _, .infinite => zero

/-- The power of ten as rounded on its own. -/
def powerOfTen (n : Nat) : Magnitude := ofNat (Nat.pow 10 n)

end Magnitude

end Repertoire.Decimal
