import Repertoire.Decimal.Binary64

/-!
# Shortest decimal text of a binary64 number

Of all decimals that round to a given magnitude, the one with the fewest digits is taken, and
of those the nearest one; an exact tie goes to the even digit. The search looks at the two
neighbours of the magnitude on the grids of one, two and up to seventeen digits.

Two layouts write the result: one is always positional, the other changes to an exponent
outside a fixed range.
-/

namespace Repertoire.Decimal

/-- `digits * 10 ^ exponent`. -/
structure Numeral where
  digits : Nat
  exponent : Int
deriving DecidableEq, Repr

/-- The same value without zeros at the end of its digits; the argument bounds their number. -/
def Numeral.reduced : Nat → Numeral → Numeral
  | 0, d => d
  | n + 1, d =>
    if d.digits ≠ 0 ∧ d.digits % 10 = 0 then reduced n ⟨d.digits / 10, d.exponent + 1⟩ else d

/-- The interval of reals that round to a magnitude, with its centre, all as natural numbers
over one common denominator `unit`; `closed` says whether the ends belong to it. -/
structure Interval where
  low : Nat
  centre : Nat
  high : Nat
  unit : Nat
  closed : Bool

namespace Interval

/-- The reals that round to `m * 2 ^ e`, an end belonging to the interval when `m` is even. -/
def ofFinite (m : Nat) (e : Int) : Interval :=
  let up := if 0 ≤ e then Nat.pow 2 e.natAbs else 1
  let down := if 0 ≤ e then 1 else Nat.pow 2 e.natAbs
  let below := if m = Nat.pow 2 52 ∧ -1074 < e then 1 else 2
  { low := (4 * m - below) * up
    centre := 4 * m * up
    high := (4 * m + 2) * up
    unit := 4 * down
    closed := m % 2 == 0 }

/-- The point lies in the interval. -/
def contains (i : Interval) (point scale : Nat) : Bool :=
  if i.closed then i.low * scale ≤ point && point ≤ i.high * scale
  else i.low * scale < point && point < i.high * scale

/-- The exponent of ten of the leading digit of the centre. -/
def leadingExponent (i : Interval) : Int :=
  let guess : Int := ((Nat.log2 i.centre : Int) - (Nat.log2 i.unit : Int)) * 30103 / 100000
  let reaches (k : Int) : Bool :=
    if 0 ≤ k then i.unit * Nat.pow 10 k.natAbs ≤ i.centre
    else i.unit ≤ i.centre * Nat.pow 10 k.natAbs
  if reaches (guess + 1) then guess + 1
  else if reaches guess then guess
  else guess - 1

/-- The better of the two neighbours of the centre on the grid `10 ^ k`, if one lies in the
interval. -/
def onGrid? (i : Interval) (k : Int) : Option Numeral :=
  let up := if 0 ≤ k then Nat.pow 10 k.natAbs else 1
  let scale := if 0 ≤ k then 1 else Nat.pow 10 k.natAbs
  let step := i.unit * up
  let centre := i.centre * scale
  let floor := centre / step
  let rest := centre % step
  let lowHit := i.contains (floor * step) scale
  let highHit := i.contains ((floor + 1) * step) scale
  let takeLow := if 2 * rest = step then floor % 2 = 0 else 2 * rest < step
  if lowHit && (takeLow || !highHit) then some ⟨floor, k⟩
  else if highHit then some ⟨floor + 1, k⟩
  else none

/-- The first grid with a hit, from one digit on; the last argument counts the grids left. -/
def search (i : Interval) (lead : Int) (digits : Nat) : Nat → Option Numeral
  | 0 => none
  | n + 1 =>
    match i.onGrid? (lead - digits) with
    | some d => some d
    | none => search i lead (digits + 1) n

end Interval

/-- The shortest decimal that reads back as `m * 2 ^ e`. -/
def shortest (m : Nat) (e : Int) : Numeral :=
  if m = 0 then ⟨0, 0⟩
  else
    let i := Interval.ofFinite m e
    ((i.search i.leadingExponent 0 18).getD ⟨0, 0⟩).reduced 18

/-- Zeros as text. -/
def zeros (n : Nat) : String := String.ofList (List.replicate n '0')

/-- A sign before a text. -/
def signed (negative : Bool) (s : String) : String := if negative then "-" ++ s else s

/-- Positional text, always with a point and a digit on either side of it. -/
def Numeral.positional (d : Numeral) : String :=
  let text := toString d.digits
  if d.digits = 0 then "0.0"
  else if 0 ≤ d.exponent then text ++ zeros d.exponent.natAbs ++ ".0"
  else
    let places := d.exponent.natAbs
    if text.length ≤ places then "0." ++ zeros (places - text.length) ++ text
    else
      let whole := text.length - places
      String.ofList (text.toList.take whole) ++ "." ++ String.ofList (text.toList.drop whole)

/-- Text with an exponent: one digit before the point, no point after a single digit, and
always a sign. -/
def Numeral.scientific (d : Numeral) : String :=
  let text := toString d.digits
  let power : Int := d.exponent + text.length - 1
  let mark := if power < 0 then "e-" else "e+"
  match text.toList with
  | [] => ""
  | [c] => String.ofList [c] ++ mark ++ toString power.natAbs
  | c :: cs => String.ofList (c :: '.' :: cs) ++ mark ++ toString power.natAbs

/-- Positional text from `1e-5` up to `1e16`, text with an exponent outside. -/
def Numeral.compact (d : Numeral) : String :=
  let point : Int := d.exponent + (toString d.digits).length
  if d.digits = 0 ∨ (-5 < point ∧ point ≤ 16) then d.positional else d.scientific

/-- The text of a number under a layout of its finite magnitudes. -/
def Binary64.text (layout : Numeral → String) : Binary64 → String
  | .notANumber => "nan"
  | .number negative .infinite => signed negative "inf"
  | .number negative (.finite m e) => signed negative (layout (shortest m e))

end Repertoire.Decimal
