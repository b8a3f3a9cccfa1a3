import Repertoire.Text.Digits

/-!
# JSON string literals

The text between the quotation marks of a JSON string. Writing escapes the quotation mark, the
backslash and the control characters below U+0020 and leaves every other character as it is.
Reading has two stages: the end of the literal is found first, with the shape of its escapes
checked, and the characters it names are worked out afterwards. Only the second stage refuses
surrogate escapes that do not form a pair, so a literal that is never looked into may hold them.
-/

namespace Repertoire.Json.Quoted

open Repertoire.Text

/-- The written form of one character. -/
def encodeChar (c : Char) : List Char :=
  if c = '\x22' then ['\\', '\x22']
  else if c = '\\' then ['\\', '\\']
  else if c = '\x08' then ['\\', 'b']
  else if c = '\x09' then ['\\', 't']
  else if c = '\x0a' then ['\\', 'n']
  else if c = '\x0c' then ['\\', 'f']
  else if c = '\x0d' then ['\\', 'r']
  else if c.toNat < 0x20 then
    ['\\', 'u', '0', '0', hexDigit (c.toNat / 16), hexDigit (c.toNat % 16)]
  else [c]

/-- The written form of a text, without the marks around it. -/
def encode (cs : List Char) : List Char :=
  cs.flatMap encodeChar

/-- The number that four hexadecimal digits write. -/
def unit? (a b c d : Char) : Option Nat :=
  number? 16 [a, b, c, d]

/-- The character that a one-letter escape names. -/
def named? (c : Char) : Option Char :=
  if c = '\x22' then some '\x22'
  else if c = '\\' then some '\\'
  else if c = '/' then some '/'
  else if c = 'b' then some '\x08'
  else if c = 'f' then some '\x0c'
  else if c = 'n' then some '\x0a'
  else if c = 'r' then some '\x0d'
  else if c = 't' then some '\x09'
  else none

/-- The first half of a surrogate pair. -/
def isHighSurrogate (n : Nat) : Bool := 0xD800 ≤ n && n < 0xDC00

/-- The second half of a surrogate pair. -/
def isLowSurrogate (n : Nat) : Bool := 0xDC00 ≤ n && n < 0xE000

/-- The character that a surrogate pair names. -/
def paired (high low : Nat) : Char :=
  Char.ofNat (0x10000 + (high - 0xD800) * 0x400 + (low - 0xDC00))

/-- The characters that a literal names; `none` when a surrogate stands without its partner or
an escape has no meaning. -/
def decode : List Char → Option (List Char)
  | [] => some []
  | '\\' :: 'u' :: a :: b :: c :: d :: rest =>
    match unit? a b c d with
    | none => none
    | some n =>
      if isLowSurrogate n then none
      else if isHighSurrogate n then
        match rest with
        | '\\' :: 'u' :: e :: f :: g :: h :: rest =>
          match unit? e f g h with
          | none => none
          | some m =>
            if isLowSurrogate m then (decode rest).map (paired n m :: ·) else none
        | _ => none
      else (decode rest).map (Char.ofNat n :: ·)
  | '\\' :: c :: rest =>
    match named? c with
    | some named => (decode rest).map (named :: ·)
    | none => none
  | c :: rest => (decode rest).map (c :: ·)

/-- The literal up to its closing mark and what follows the mark; `none` when there is no
mark, an escape has the wrong shape, or a control character stands unescaped. -/
def scan : List Char → Option (List Char × List Char)
  | [] => none
  | '\x22' :: rest => some ([], rest)
  | '\\' :: 'u' :: a :: b :: c :: d :: rest =>
    if (unit? a b c d).isSome then
      (scan rest).map fun (literal, after) => ('\\' :: 'u' :: a :: b :: c :: d :: literal, after)
    else none
  | '\\' :: c :: rest =>
    if (named? c).isSome then
      (scan rest).map fun (literal, after) => ('\\' :: c :: literal, after)
    else none
  | c :: rest =>
    if c.toNat < 0x20 || c = '\\' then none
    else (scan rest).map fun (literal, after) => (c :: literal, after)

end Repertoire.Json.Quoted
