import Repertoire.Toml.Value

/-!
# TOML literals

The lexical parts of a document: blanks, comments, line ends, the four forms of a string, keys
and numbers. Every scanner takes its literal from the front of a text and returns the rest, and
refuses a literal that is begun and cannot be completed.
-/

namespace Repertoire.Toml.Literal

open Repertoire.Text Repertoire.Decimal

/-- A blank within a line. -/
def isSpace (c : Char) : Bool := c = ' ' || c = '\x09'

/-- A text without the blanks at its front. -/
def skipSpace (cs : List Char) : List Char := cs.dropWhile isSpace

/-- What follows a line end at the front: a line feed, which a carriage return may precede. -/
def lineEnd? : List Char → Option (List Char)
  | '\x0a' :: rest => some rest
  | '\x0d' :: '\x0a' :: rest => some rest
  | _ => none

/-- A character that a comment may hold. -/
def isCommentChar (c : Char) : Bool :=
  c = '\x09' || (0x20 ≤ c.toNat && c.toNat != 0x7F)

/-- What follows the comment at the front, if there is one. -/
def skipComment : List Char → List Char
  | '#' :: rest => rest.dropWhile isCommentChar
  | cs => cs

/-- What follows the end of a line that holds nothing but blanks and a comment; the end of the
document also ends a line. -/
def endOfLine? (cs : List Char) : Option (List Char) :=
  match skipComment (skipSpace cs) with
  | [] => some []
  | rest => lineEnd? rest

/-- A text without blanks, comments and line ends at its front; the first argument bounds the
number of lines. -/
def skipLines : Nat → List Char → List Char
  | 0, cs => cs
  | n + 1, cs =>
    let rest := skipSpace cs
    match lineEnd? (skipComment rest) with
    | some next => skipLines n next
    | none => rest

/-- A character that a basic string may hold as it is. -/
def isBasicChar (c : Char) : Bool :=
  c = '\x09' || (0x20 ≤ c.toNat && c.toNat != 0x7F && c != '\x22' && c != '\\')

/-- A character that a literal string may hold. -/
def isLiteralChar (c : Char) : Bool :=
  c = '\x09' || (0x20 ≤ c.toNat && c.toNat != 0x7F && c != '\x27')

/-- The character that a one-letter escape names. -/
def named? (c : Char) : Option Char :=
  if c = 'b' then some '\x08'
  else if c = 't' then some '\x09'
  else if c = 'n' then some '\x0a'
  else if c = 'f' then some '\x0c'
  else if c = 'r' then some '\x0d'
  else if c = '\x22' then some '\x22'
  else if c = '\\' then some '\\'
  else none

/-- The character with the code point that hexadecimal digits write. -/
def codePoint? (digits : List Char) : Option Char :=
  (number? 16 digits).bind charAt?

/-- A basic string after its opening mark. -/
def scanBasic : List Char → Option (List Char × List Char)
  | [] => none
  | '\x22' :: rest => some ([], rest)
  | '\\' :: 'u' :: a :: b :: c :: d :: rest =>
    match codePoint? [a, b, c, d] with
    | some named => (scanBasic rest).map fun (text, rest) => (named :: text, rest)
    | none => none
  | '\\' :: 'U' :: a :: b :: c :: d :: e :: f :: g :: h :: rest =>
    match codePoint? [a, b, c, d, e, f, g, h] with
    | some named => (scanBasic rest).map fun (text, rest) => (named :: text, rest)
    | none => none
  | '\\' :: c :: rest =>
    match named? c with
    | some named => (scanBasic rest).map fun (text, rest) => (named :: text, rest)
    | none => none
  | c :: rest =>
    if isBasicChar c then (scanBasic rest).map fun (text, rest) => (c :: text, rest) else none

/-- A literal string after its opening mark. -/
def scanLiteral : List Char → Option (List Char × List Char)
  | [] => none
  | '\x27' :: rest => some ([], rest)
  | c :: rest =>
    if isLiteralChar c then (scanLiteral rest).map fun (text, rest) => (c :: text, rest) else none

/-- The text holds nothing but blanks up to its next line end. -/
def endsLine (cs : List Char) : Bool := (lineEnd? (skipSpace cs)).isSome

/-- A basic string of several lines after its opening marks. Up to two marks before the closing
three belong to the text. While `skipping`, blanks and line ends are dropped, as they are after
a backslash at the end of a line. -/
def scanBasicLines : Bool → List Char → Option (List Char × List Char)
  | _, [] => none
  | skipping, '\x0a' :: rest =>
    if skipping then scanBasicLines true rest
    else (scanBasicLines false rest).map fun (text, rest) => ('\x0a' :: text, rest)
  | skipping, '\x0d' :: '\x0a' :: rest =>
    if skipping then scanBasicLines true rest
    else (scanBasicLines false rest).map fun (text, rest) => ('\x0a' :: text, rest)
  | _, '\x22' :: '\x22' :: '\x22' :: '\x22' :: '\x22' :: rest => some (['\x22', '\x22'], rest)
  | _, '\x22' :: '\x22' :: '\x22' :: '\x22' :: rest => some (['\x22'], rest)
  | _, '\x22' :: '\x22' :: '\x22' :: rest => some ([], rest)
  | _, '\\' :: 'u' :: a :: b :: c :: d :: rest =>
    match codePoint? [a, b, c, d] with
    | some named => (scanBasicLines false rest).map fun (text, rest) => (named :: text, rest)
    | none => none
  | _, '\\' :: 'U' :: a :: b :: c :: d :: e :: f :: g :: h :: rest =>
    match codePoint? [a, b, c, d, e, f, g, h] with
    | some named => (scanBasicLines false rest).map fun (text, rest) => (named :: text, rest)
    | none => none
  | _, '\\' :: c :: rest =>
    match named? c with
    | some named => (scanBasicLines false rest).map fun (text, rest) => (named :: text, rest)
    | none => if endsLine (c :: rest) then scanBasicLines true (c :: rest) else none
  | skipping, c :: rest =>
    if skipping && isSpace c then scanBasicLines true rest
    else if isBasicChar c || c = '\x22' then
      (scanBasicLines false rest).map fun (text, rest) => (c :: text, rest)
    else none

/-- A literal string of several lines after its opening marks. Up to two marks before the
closing three belong to the text. -/
def scanLiteralLines : List Char → Option (List Char × List Char)
  | [] => none
  | '\x0d' :: '\x0a' :: rest =>
    (scanLiteralLines rest).map fun (text, rest) => ('\x0a' :: text, rest)
  | '\x27' :: '\x27' :: '\x27' :: '\x27' :: '\x27' :: rest => some (['\x27', '\x27'], rest)
  | '\x27' :: '\x27' :: '\x27' :: '\x27' :: rest => some (['\x27'], rest)
  | '\x27' :: '\x27' :: '\x27' :: rest => some ([], rest)
  | c :: rest =>
    if isLiteralChar c || c = '\x0a' || c = '\x27' then
      (scanLiteralLines rest).map fun (text, rest) => (c :: text, rest)
    else none

/-- A text without a line end at its front. -/
def dropLineEnd (cs : List Char) : List Char := (lineEnd? cs).getD cs

/-- A string in any of its four forms. -/
def scanString (cs : List Char) : Option (String × List Char) :=
  let scanned :=
    match cs with
    | '\x22' :: '\x22' :: '\x22' :: rest => scanBasicLines false (dropLineEnd rest)
    | '\x22' :: rest => scanBasic rest
    | '\x27' :: '\x27' :: '\x27' :: rest => scanLiteralLines (dropLineEnd rest)
    | '\x27' :: rest => scanLiteral rest
    | _ => none
  scanned.map fun (text, rest) => (String.ofList text, rest)

/-- One part of a key. -/
def scanSimpleKey (cs : List Char) : Option (String × List Char) :=
  let scanned :=
    match cs with
    | '\x22' :: rest => scanBasic rest
    | '\x27' :: rest => scanLiteral rest
    | _ =>
      let bare := cs.takeWhile isBare
      if bare.isEmpty then none else some (bare, cs.dropWhile isBare)
  scanned.map fun (text, rest) => (String.ofList text, rest)

/-- The number of parts that a key may not reach. -/
def keyLimit : Nat := 80

/-- The parts of a key between points, with blanks around each; the first argument bounds their
number. -/
def scanKeyParts : Nat → List Char → Option (List String × List Char)
  | 0, _ => none
  | n + 1, cs =>
    match scanSimpleKey (skipSpace cs) with
    | none => none
    | some (part, rest) =>
      match skipSpace rest with
      | '.' :: more => (scanKeyParts n more).map fun (parts, rest) => (part :: parts, rest)
      | rest => some ([part], rest)

/-- A key at the front of a text, with the blanks around it. -/
def scanKey (cs : List Char) : Option (List String × List Char) :=
  scanKeyParts (keyLimit - 1) cs

/-- Digits of a base, with single underscores between them. -/
def scanDigits (base : Nat) : List Char → List Char × List Char
  | [] => ([], [])
  | '_' :: c :: rest =>
    if isDigitOf base c then
      let (digits, rest) := scanDigits base rest
      (c :: digits, rest)
    else ([], '_' :: c :: rest)
  | c :: rest =>
    if isDigitOf base c then
      let (digits, rest) := scanDigits base rest
      (c :: digits, rest)
    else ([], c :: rest)

/-- Digits of a base of which the first is no underscore; there is at least one. -/
def scanNumber (base : Nat) : List Char → Option (List Char × List Char)
  | c :: rest => if isDigitOf base c then some (scanDigits base (c :: rest)) else none
  | [] => none

/-- A sign at the front; `true` stands for a minus sign. -/
def scanSign : List Char → Bool × List Char
  | '+' :: rest => (false, rest)
  | '-' :: rest => (true, rest)
  | cs => (false, cs)

/-- A decimal whole number without a sign; a zero stands alone. -/
def scanWhole : List Char → Option (List Char × List Char)
  | '0' :: rest => some (['0'], rest)
  | cs => scanNumber 10 cs

/-- An exponent after its letter; `true` stands for a minus sign. -/
def scanPower (cs : List Char) : Option ((Bool × List Char) × List Char) :=
  let (negative, rest) := scanSign cs
  (scanNumber 10 rest).map fun (digits, rest) => ((negative, digits), rest)

/-- An exponent at the front. -/
def scanExponent : List Char → Option ((Bool × List Char) × List Char)
  | 'e' :: rest => scanPower rest
  | 'E' :: rest => scanPower rest
  | _ => none

/-- The float that whole digits, fraction digits and an exponent write. -/
def floatOf (negative : Bool) (whole fraction : List Char) (exponent : Bool × List Char) :
    Binary64 :=
  let power : Int := numberOf 10 exponent.2
  let power := if exponent.1 then -power else power
  .number negative
    (Magnitude.ofDecimal (numberOf 10 (whole ++ fraction)) (power - fraction.length))

/-- An exponent at the front, or zero and nothing taken. -/
def scanOptionalExponent (cs : List Char) : (Bool × List Char) × List Char :=
  (scanExponent cs).getD ((false, []), cs)

/-- What follows the whole digits of a float: a fraction, an exponent, or both. -/
def scanFraction : List Char → Option ((List Char × (Bool × List Char)) × List Char)
  | '.' :: rest => do
    let (fraction, rest) ← scanNumber 10 rest
    let (exponent, rest) := scanOptionalExponent rest
    return ((fraction, exponent), rest)
  | cs => (scanExponent cs).map fun (exponent, rest) => (([], exponent), rest)

/-- A float with digits. A positive float that is too large is refused. -/
def scanFloat (cs : List Char) : Option (Binary64 × List Char) := do
  let (negative, cs) := scanSign cs
  let (whole, cs) ← scanWhole cs
  let (parts, cs) ← scanFraction cs
  let x := floatOf negative whole parts.1 parts.2
  if x ≠ .number false .infinite then some (x, cs) else none

/-- The name of a float without digits. -/
def scanFloatName (negative : Bool) : List Char → Option (Binary64 × List Char)
  | 'i' :: 'n' :: 'f' :: rest => some (.number negative .infinite, rest)
  | 'n' :: 'a' :: 'n' :: rest => some (.notANumber, rest)
  | _ => none

/-- A float without digits. -/
def scanSpecialFloat (cs : List Char) : Option (Binary64 × List Char) :=
  let (negative, rest) := scanSign cs
  scanFloatName negative rest

/-- The bounds of an integer: sixty-four bits with a sign. -/
def inRange (n : Int) : Bool := -Int.pow 2 63 ≤ n && n < Int.pow 2 63

/-- An integer in decimal. -/
def scanDecimal (cs : List Char) : Option (Int × List Char) :=
  let (negative, rest) := scanSign cs
  (scanWhole rest).map fun (digits, rest) =>
    (if negative then -(numberOf 10 digits : Int) else numberOf 10 digits, rest)

/-- An integer without a sign in a base. -/
def scanBased (base : Nat) (cs : List Char) : Option (Int × List Char) :=
  (scanNumber base cs).map fun (digits, rest) => ((numberOf base digits : Int), rest)

/-- An integer of any size in decimal, or in base sixteen, eight or two. -/
def scanUnbounded : List Char → Option (Int × List Char)
  | '0' :: 'x' :: rest => scanBased 16 rest
  | '0' :: 'o' :: rest => scanBased 8 rest
  | '0' :: 'b' :: rest => scanBased 2 rest
  | cs => scanDecimal cs

/-- An integer within the bounds. -/
def scanInteger (cs : List Char) : Option (Int × List Char) :=
  (scanUnbounded cs).filter fun (n, _) => inRange n

/-- A date-time, float or integer, tried in this order. -/
def scanNumeric (cs : List Char) : Option (Value × List Char) :=
  match DateTime.scan cs with
  | some (d, rest) => some (.dateTime d, rest)
  | none =>
    match scanFloat cs with
    | some (x, rest) => some (.float x, rest)
    | none =>
      match scanSpecialFloat cs with
      | some (x, rest) => some (.float x, rest)
      | none => (scanInteger cs).map fun (n, rest) => (.integer n, rest)

end Repertoire.Toml.Literal
