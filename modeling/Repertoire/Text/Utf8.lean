/-!
# Text as UTF-8

Reading bytes as text in two ways: strictly, where one bad byte refuses the whole, and
leniently, where each maximal part that starts a character and cannot be completed becomes
one replacement character. A text can be cut at the boundaries of its characters.
-/

namespace Repertoire.Text

/-- The character that stands for bytes which form no character. -/
def replacement : Char := '\uFFFD'

/-- The text of the bytes, if they are UTF-8. -/
def strict? (bytes : ByteArray) : Option String :=
  String.fromUTF8? bytes

/-- How many bytes continue a first byte, and the range of the byte right after it; `none`
for a byte that starts no character of several bytes. -/
def leadShape (b : UInt8) : Option (Nat × UInt8 × UInt8) :=
  if 0xC2 ≤ b && b ≤ 0xDF then some (1, 0x80, 0xBF)
  else if b == 0xE0 then some (2, 0xA0, 0xBF)
  else if b == 0xED then some (2, 0x80, 0x9F)
  else if 0xE1 ≤ b && b ≤ 0xEF then some (2, 0x80, 0xBF)
  else if b == 0xF0 then some (3, 0x90, 0xBF)
  else if 0xF1 ≤ b && b ≤ 0xF3 then some (3, 0x80, 0xBF)
  else if b == 0xF4 then some (3, 0x80, 0x8F)
  else none

/-- The state of a lenient reader: between characters, or inside one of which `value` is
read, `owed` further bytes are missing, and the next lies between `low` and `high`. -/
inductive Pending where
  | none
  | inside (value owed : Nat) (low high : UInt8)

/-- One byte read between characters: the characters now complete, newest first, and the
state after it. -/
def startByte (out : List Char) (b : UInt8) : List Char × Pending :=
  if b < 0x80 then (Char.ofNat b.toNat :: out, .none)
  else
    match leadShape b with
    | some (owed, low, high) =>
      (out, .inside (b.toNat % Nat.pow 2 (6 - owed)) owed low high)
    | none => (replacement :: out, .none)

/-- One byte read in any state; a byte that cannot continue starts afresh after a
replacement. -/
def lenientStep : List Char × Pending → UInt8 → List Char × Pending
  | (out, .none), b => startByte out b
  | (out, .inside value owed low high), b =>
    if low ≤ b && b ≤ high then
      let value := value * 64 + b.toNat % 64
      if owed ≤ 1 then (Char.ofNat value :: out, .none)
      else (out, .inside value (owed - 1) 0x80 0xBF)
    else startByte (replacement :: out) b

/-- The characters of the bytes, with one replacement for each part that is no character. -/
def lenientChars (bytes : List UInt8) : List Char :=
  match bytes.foldl lenientStep ([], .none) with
  | (out, .none) => out.reverse
  | (out, .inside ..) => (replacement :: out).reverse

/-- The text of the bytes, with one replacement for each part that is no character. -/
def lenient (bytes : List UInt8) : String :=
  String.ofList (lenientChars bytes)

/-- The byte continues a character. -/
def isContinuation (b : UInt8) : Bool := 0x80 ≤ b && b ≤ 0xBF

/-- The offset in bytes is an end of the text or lies between two of its characters. -/
def isBoundary (text : String) (offset : Nat) : Bool :=
  offset == 0 ||
    match text.toUTF8[offset]? with
    | some b => !isContinuation b
    | none => offset == text.utf8ByteSize

/-- The last boundary that is not behind an offset, searched for from there byte by byte. The search
fails if it comes to the front of the text without having found one. -/
def boundaryUpTo? (text : String) : Nat → Option Nat
  | 0 => if isBoundary text 0 then some 0 else none
  | offset + 1 =>
    if isBoundary text (offset + 1) then some (offset + 1) else boundaryUpTo? text offset

/-- The text without the bytes behind a number of them, where it must have a boundary. -/
def keepBytes? (text : String) (count : Nat) : Option String :=
  if text.utf8ByteSize < count then some text
  else if isBoundary text count then strict? (text.toUTF8.extract 0 count)
  else none

end Repertoire.Text
