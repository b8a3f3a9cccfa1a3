import Repertoire.Text.Digits

/-!
# Escapes in printed text

The bytes that a text with backslashes stands for. The usual letters stand for control
characters, and up to three octal digits stand for a byte. A backslash before anything else
stands for itself.
-/

namespace Repertoire.Shell.Escape

open Repertoire.Text

/-- The byte that a letter behind a backslash stands for. -/
def letter? : Char → Option UInt8
  | '\\' => some 92
  | 'a' => some 7
  | 'b' => some 8
  | 'e' => some 27
  | 'f' => some 12
  | 'n' => some 10
  | 'r' => some 13
  | 't' => some 9
  | 'v' => some 11
  | _ => none

/-- The bytes of a character. -/
def bytesOf (c : Char) : List UInt8 := c.toString.toUTF8.toList

/-- The octal digits at the front, at most a number of them. -/
def octal (most : Nat) (cs : List Char) : List Char := (cs.take most).takeWhile (isDigitOf 8)

/-- What stands behind a backslash: its bytes, and the rest. In the texts that commands print, a
zero may stand in front of the three octal digits. -/
def escape (zeroFirst : Bool) : List Char → List UInt8 × List Char
  | [] => ([92], [])
  | c :: cs =>
    match letter? c with
    | some b => ([b], cs)
    | none =>
      let digits := if zeroFirst ∧ c = '0' then '0' :: octal 3 cs else octal 3 (c :: cs)
      if digits.isEmpty then (92 :: bytesOf c, cs)
      else ([(numberOf 8 digits).toUInt8], (c :: cs).drop digits.length)

/-- The bytes of a text, up to a mark that cuts it short; tells whether there was one. The first
argument bounds the number of steps. -/
def textBytes : Nat → List Char → List UInt8 × Bool
  | 0, _ => ([], false)
  | _ + 1, [] => ([], false)
  | _ + 1, '\\' :: 'c' :: _ => ([], true)
  | n + 1, '\\' :: cs =>
    let (bytes, cs) := escape true cs
    let (more, cut) := textBytes n cs
    (bytes ++ more, cut)
  | n + 1, c :: cs =>
    let (more, cut) := textBytes n cs
    (bytesOf c ++ more, cut)

/-- The bytes of a text with escapes; tells whether a mark cut it short. -/
def text (s : String) : List UInt8 × Bool := textBytes (s.length + 1) s.toList

end Repertoire.Shell.Escape
