/-!
# Digits

Digit values in the bases that documents use, and numbers written with a least width. Only
ASCII digits count.
-/

namespace Repertoire.Text

/-- The value of a digit in bases up to sixteen. -/
def digitValue? (c : Char) : Option Nat :=
  if '0' ≤ c ∧ c ≤ '9' then some (c.toNat - '0'.toNat)
  else if 'a' ≤ c ∧ c ≤ 'f' then some (c.toNat - 'a'.toNat + 10)
  else if 'A' ≤ c ∧ c ≤ 'F' then some (c.toNat - 'A'.toNat + 10)
  else none

/-- A digit of the base. -/
def isDigitOf (base : Nat) (c : Char) : Bool :=
  match digitValue? c with
  | some d => d < base
  | none => false

/-- A decimal digit. -/
def isDigit (c : Char) : Bool := isDigitOf 10 c

/-- A hexadecimal digit. -/
def isHexDigit (c : Char) : Bool := isDigitOf 16 c

/-- The number that digits of the base write, most significant first. -/
def numberOf (base : Nat) (digits : List Char) : Nat :=
  digits.foldl (fun n c => n * base + (digitValue? c).getD 0) 0

/-- The number that a non-empty run of digits of the base writes. -/
def number? (base : Nat) (digits : List Char) : Option Nat :=
  if !digits.isEmpty && digits.all (isDigitOf base) then some (numberOf base digits) else none

/-- Decimal text padded with zeros on the left to the width. -/
def padded (width n : Nat) : String :=
  let text := toString n
  String.ofList (List.replicate (width - text.length) '0') ++ text

/-- The lower-case hexadecimal digit of a number below sixteen. -/
def hexDigit (n : Nat) : Char :=
  if n < 10 then Char.ofNat ('0'.toNat + n) else Char.ofNat ('a'.toNat + (n - 10))

/-- The upper-case hexadecimal digit of a number below sixteen. -/
def upperHexDigit (n : Nat) : Char :=
  if n < 10 then Char.ofNat ('0'.toNat + n) else Char.ofNat ('A'.toNat + (n - 10))

/-- The character with the code point, if there is one. -/
def charAt? (n : Nat) : Option Char :=
  if h : n.isValidChar then some (Char.ofNatAux n h) else none

end Repertoire.Text
