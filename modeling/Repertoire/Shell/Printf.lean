import Repertoire.Shell.Arithmetic
import Repertoire.Shell.Escape

/-!
# Printing by a format

A format is a text with escapes and with places for arguments. It is used again while arguments
are left, and once when there are none. A place without an argument gets an empty text or zero.
An argument that is no number is complained about, and counts as the number that it starts with.
-/

namespace Repertoire.Shell.Printf

open Repertoire.Text

/-- A width or a precision: written in the format, or taken from the arguments. -/
inductive Measure where
  | fixed (n : Nat)
  | fromArgument
deriving DecidableEq, Repr

/-- A place for an argument: how it is padded, cut and converted. -/
structure Place where
  flags : List Char
  width : Measure
  precision : Option Measure
  conversion : Char
deriving DecidableEq, Repr

/-- A part of a format. The last part of one that is no format holds the reason. -/
inductive Part where
  | bytes (value : List UInt8)
  | place (value : Place)
  | mistake (words : String)
deriving DecidableEq, Repr

/-! ### Formats -/

/-- A measure at the front, and the rest. -/
def cutMeasure : List Char → Measure × List Char
  | '*' :: cs => (.fromArgument, cs)
  | cs => (.fixed (numberOf 10 (cs.takeWhile isDigit)), cs.dropWhile isDigit)

/-- The characters that ask for a conversion. -/
def conversions : List Char := ['s', 'd', 'i', 'u', 'o', 'x', 'X', 'c', 'b']

/-- A place behind its percent sign, and the rest. -/
def cutPlace (cs : List Char) : Except String (Place × List Char) :=
  let flags := cs.takeWhile ['#', '-', '+', ' ', '0'].contains
  let (width, rest) := cutMeasure (cs.drop flags.length)
  let (precision, rest) : Option Measure × List Char := match rest with
    | '.' :: rest =>
      let (precision, rest) := cutMeasure rest
      (some precision, rest)
    | rest => (none, rest)
  match rest with
  | c :: rest =>
    if conversions.contains c then .ok (⟨flags, width, precision, c⟩, rest)
    else
      .error ("%" ++ String.ofList (cs.take (cs.length - rest.length)) ++ ": invalid directive")
  | [] => .error "missing format character"

/-- The parts of a format. The first argument bounds their number. -/
def parts : Nat → List Char → List Part
  | 0, _ => []
  | _ + 1, [] => []
  | n + 1, '%' :: '%' :: cs => .bytes [37] :: parts n cs
  | n + 1, '%' :: cs =>
    match cutPlace cs with
    | .ok (p, cs) => .place p :: parts n cs
    | .error words => [.mistake words]
  | n + 1, '\\' :: cs =>
    let (bytes, cs) := Escape.escape false cs
    .bytes bytes :: parts n cs
  | n + 1, c :: cs => .bytes (Escape.bytesOf c) :: parts n cs

/-! ### Numbers -/

/-- The number that an argument writes or starts with, within bounds, and a complaint about an
argument that writes none. A quote stands for the number of the byte behind it. -/
def numberOfArg (least greatest : Int) (arg : String) : Int × Option String :=
  match arg.toList with
  | '\x27' :: c :: _ => (((Escape.bytesOf c).headD 0).toNat, none)
  | '\x22' :: c :: _ => (((Escape.bytesOf c).headD 0).toNat, none)
  | cs =>
    let cs := cs.dropWhile Arithmetic.isBlank
    let (sign, digits) : Int × List Char := match cs with
      | '-' :: cs => (-1, cs)
      | '+' :: cs => (1, cs)
      | cs => (1, cs)
    let base : Nat := match digits with
      | '0' :: x :: d :: _ => if (x = 'x' ∨ x = 'X') ∧ isHexDigit d then 16 else 8
      | '0' :: _ => 8
      | _ => 10
    let digits := if base = 16 then digits.drop 2 else digits
    let own := digits.takeWhile (isDigitOf base)
    let n := sign * numberOf base own
    if arg.isEmpty then (0, none)
    else if own.isEmpty then (0, some (arg ++ ": expected numeric value"))
    else if own.length < digits.length then
      (max least (min n greatest), some (arg ++ ": not completely converted"))
    else if n < least then (least, some (arg ++ ": Numerical result out of range"))
    else if greatest < n then (greatest, some (arg ++ ": Numerical result out of range"))
    else (n, none)

/-- The number that an argument writes, with a sign or with all its bits. -/
def signedOrBits (signed : Bool) (arg : String) : Int × Option String :=
  if signed then numberOfArg (-Int.pow 2 63) (Int.pow 2 63 - 1) arg
  else
    let (n, complaint) := numberOfArg (1 - Int.pow 2 64) (Int.pow 2 64 - 1) arg
    (n % Int.pow 2 64, complaint)

/-- The text of a number in a base. -/
def inBase (base : Nat) (n : Nat) : List Char := Nat.toDigits base n

/-! ### Places -/

/-- How an argument is set: its flags, width, precision and conversion. -/
structure Setting where
  flags : List Char
  width : Nat
  precision : Option Nat
  conversion : Char
deriving DecidableEq, Repr

/-- Bytes padded with blanks to the width. -/
def pad (p : Setting) (bytes : List UInt8) : List UInt8 :=
  let missing := List.replicate (p.width - bytes.length) 32
  if p.flags.contains '-' then bytes ++ missing else missing ++ bytes

/-- What stands in front of the digits of a number, and the digits. -/
def signAndDigits (p : Setting) (n : Int) : List Char × List Char :=
  let digits (base : Nat) : List Char :=
    if n = 0 ∧ p.precision = some 0 then [] else inBase base n.natAbs
  let wide (cs : List Char) : List Char :=
    List.replicate (p.precision.getD 1 - cs.length) '0' ++ cs
  let marked := p.flags.contains '#'
  match p.conversion with
  | 'o' =>
    let cs := wide (digits 8)
    ([], if marked ∧ cs.head? ≠ some '0' then '0' :: cs else cs)
  | 'x' => (if marked ∧ n ≠ 0 then ['0', 'x'] else [], wide (digits 16))
  | 'X' => (if marked ∧ n ≠ 0 then ['0', 'X'] else [], (wide (digits 16)).map Char.toUpper)
  | 'u' => ([], wide (digits 10))
  | _ =>
    let sign : List Char :=
      if n < 0 then ['-']
      else if p.flags.contains '+' then ['+']
      else if p.flags.contains ' ' then [' ']
      else []
    (sign, wide (digits 10))

/-- The bytes of a number in its place. -/
def numberBytes (p : Setting) (n : Int) : List UInt8 :=
  let (sign, digits) := signAndDigits p n
  let filled := p.flags.contains '0' && !p.flags.contains '-' && p.precision.isNone
  let zeros := if filled then p.width - sign.length - digits.length else 0
  pad p (String.ofList (sign ++ List.replicate zeros '0' ++ digits)).toUTF8.toList

/-- The bytes of an argument in its place, a complaint about it, and whether it ends the
printing. -/
def placeBytes (p : Setting) (arg : String) : List UInt8 × Option String × Bool :=
  let cut (bytes : List UInt8) : List UInt8 := (p.precision.map bytes.take).getD bytes
  match p.conversion with
  | 's' => (pad p (cut arg.toUTF8.toList), none, false)
  | 'b' =>
    let (bytes, cutShort) := Escape.text arg
    (pad p (cut bytes), none, cutShort)
  | 'c' => (pad p [arg.toUTF8.toList.headD 0], none, false)
  | c =>
    let (n, complaint) := signedOrBits (c = 'd' || c = 'i') arg
    (numberBytes p n, complaint, false)

/-! ### Printing -/

/-- What was printed, the complaints, and the arguments that are left. -/
structure Progress where
  bytes : List UInt8
  complaints : List String
  args : List String
  isOver : Bool
  hasFailed : Bool

/-- The next argument for a measure. -/
def Progress.measure (g : Progress) : Measure → Int × Progress
  | .fixed n => (n, g)
  | .fromArgument =>
    let (n, complaint) := signedOrBits true (g.args.headD "")
    (n, { g with args := g.args.drop 1, complaints := g.complaints ++ complaint.toList })

/-- What was printed after one more place. -/
def Progress.fill (g : Progress) (p : Place) : Progress :=
  let (width, g) := g.measure p.width
  let (precision, g) := match p.precision with
    | none => (none, g)
    | some m =>
      let (n, g) := g.measure m
      (if n < 0 then none else some n.toNat, g)
  let flags := if width < 0 then '-' :: p.flags else p.flags
  let (bytes, complaint, isOver) :=
    placeBytes ⟨flags, width.natAbs, precision, p.conversion⟩ (g.args.headD "")
  { g with
    bytes := g.bytes ++ bytes
    complaints := g.complaints ++ complaint.toList
    args := g.args.drop 1
    isOver := isOver }

/-- What was printed after one more part. -/
def Progress.add (g : Progress) (part : Part) : Progress :=
  if g.isOver then g
  else
    match part with
    | .bytes bs => { g with bytes := g.bytes ++ bs }
    | .place p => g.fill p
    | .mistake words =>
      { g with complaints := g.complaints ++ [words], isOver := true, hasFailed := true }

/-- What is printed when a format is used until no argument is left; the first argument bounds
the number of times. -/
def uses (format : List Part) : Nat → Progress → Progress
  | 0, g => g
  | n + 1, g =>
    let after := format.foldl Progress.add g
    if after.isOver || after.args.isEmpty || after.args.length = g.args.length then after
    else uses format n after

/-- What is printed by a format with arguments. -/
def print (format : String) (args : List String) : Progress :=
  uses (parts (format.length + 1) format.toList) (args.length + 1) ⟨[], [], args, false, false⟩

end Repertoire.Shell.Printf
