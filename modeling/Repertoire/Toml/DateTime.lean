import Repertoire.Text.Digits

/-!
# TOML dates and times

The four kinds of date-time that a document may hold, which differ in the parts that are
present, with their written form. Fractions of a second are kept to nine digits; further ones
are cut. An offset is written in hours and minutes unless it is the letter `Z`.
-/

namespace Repertoire.Toml

open Repertoire.Text

/-- A calendar date. -/
structure Date where
  year : Nat
  month : Nat
  day : Nat
deriving DecidableEq, Repr

/-- A time of day. -/
structure Time where
  hour : Nat
  minute : Nat
  second : Nat
  nanosecond : Nat
deriving DecidableEq, Repr

/-- The distance from universal time. -/
inductive Offset where
  | zulu
  | minutes (value : Int)
deriving DecidableEq, Repr

/-- A date, a time, or both, and with both perhaps an offset. -/
inductive DateTime where
  | date (date : Date)
  | time (time : Time)
  | local (date : Date) (time : Time)
  | offset (date : Date) (time : Time) (offset : Offset)
deriving DecidableEq, Repr

namespace DateTime

/-- Exactly `count` decimal digits at the front, and the rest. -/
def scanDigits (count : Nat) (cs : List Char) : Option (Nat × List Char) :=
  let digits := cs.take count
  if digits.length = count && digits.all isDigit then some (numberOf 10 digits, cs.drop count)
  else none

/-- One given character at the front. -/
def scanMark (mark : Char) : List Char → Option (List Char)
  | c :: cs => if c = mark then some cs else none
  | [] => none

/-- A number of exactly `count` digits within bounds. -/
def scanBetween (count low high : Nat) (cs : List Char) : Option (Nat × List Char) := do
  let (n, cs) ← scanDigits count cs
  if low ≤ n ∧ n ≤ high then some (n, cs) else none

/-- The year has a twenty-ninth of February. -/
def isLeap (year : Nat) : Bool :=
  year % 4 == 0 && (year % 100 != 0 || year % 400 == 0)

/-- The number of days in a month. -/
def daysIn (year month : Nat) : Nat :=
  if month = 2 then (if isLeap year then 29 else 28)
  else if month = 4 ∨ month = 6 ∨ month = 9 ∨ month = 11 then 30
  else 31

/-- A date at the front of a text. -/
def scanDate (cs : List Char) : Option (Date × List Char) := do
  let (year, cs) ← scanDigits 4 cs
  let cs ← scanMark '-' cs
  let (month, cs) ← scanBetween 2 1 12 cs
  let cs ← scanMark '-' cs
  let (day, cs) ← scanBetween 2 1 (daysIn year month) cs
  return (⟨year, month, day⟩, cs)

/-- A fraction of a second in nanoseconds; a point needs digits after it. -/
def scanFraction (cs : List Char) : Nat × List Char :=
  match cs with
  | '.' :: rest =>
    let digits := rest.takeWhile isDigit
    if digits.isEmpty then (0, cs)
    else
      let kept := digits.take 9
      (numberOf 10 kept * Nat.pow 10 (9 - kept.length), rest.dropWhile isDigit)
  | _ => (0, cs)

/-- A time at the front of a text. -/
def scanTime (cs : List Char) : Option (Time × List Char) := do
  let (hour, cs) ← scanBetween 2 0 23 cs
  let cs ← scanMark ':' cs
  let (minute, cs) ← scanBetween 2 0 59 cs
  let cs ← scanMark ':' cs
  let (second, cs) ← scanBetween 2 0 60 cs
  let (nanosecond, cs) := scanFraction cs
  return (⟨hour, minute, second, nanosecond⟩, cs)

/-- The minutes of an offset after its sign. -/
def scanOffsetMinutes (negative : Bool) (cs : List Char) : Option (Offset × List Char) := do
  let (hour, cs) ← scanBetween 2 0 23 cs
  let cs ← scanMark ':' cs
  let (minute, cs) ← scanBetween 2 0 59 cs
  let total : Int := hour * 60 + minute
  return (.minutes (if negative then -total else total), cs)

/-- An offset at the front of a text. -/
def scanOffset : List Char → Option (Offset × List Char)
  | 'Z' :: cs => some (.zulu, cs)
  | 'z' :: cs => some (.zulu, cs)
  | '+' :: cs => scanOffsetMinutes false cs
  | '-' :: cs => scanOffsetMinutes true cs
  | _ => none

/-- The character may stand between a date and a time. -/
def isDelimiter (c : Char) : Bool := c = 'T' || c = 't' || c = ' '

/-- The longest date-time at the front of a text. -/
def scan (cs : List Char) : Option (DateTime × List Char) :=
  match scanDate cs with
  | none => (scanTime cs).map fun (t, rest) => (.time t, rest)
  | some (d, rest) =>
    match rest with
    | [] => some (.date d, rest)
    | c :: more =>
      if isDelimiter c then
        match scanTime more with
        | none => some (.date d, rest)
        | some (t, rest) =>
          match scanOffset rest with
          | none => some (.local d t, rest)
          | some (o, rest) => some (.offset d t o, rest)
      else some (.date d, rest)

/-- The date-time that a whole text writes. -/
def ofString? (s : String) : Option DateTime :=
  match scan s.toList with
  | some (d, []) => some d
  | _ => none

/-- A date with dashes. -/
def dateText (d : Date) : String :=
  padded 4 d.year ++ "-" ++ padded 2 d.month ++ "-" ++ padded 2 d.day

/-- A fraction without zeros at its end, nothing for zero. -/
def fractionText (nanosecond : Nat) : String :=
  if nanosecond = 0 then ""
  else
    let digits := (padded 9 nanosecond).toList
    "." ++ String.ofList (digits.reverse.dropWhile (· = '0')).reverse

/-- A time with colons. -/
def timeText (t : Time) : String :=
  padded 2 t.hour ++ ":" ++ padded 2 t.minute ++ ":" ++ padded 2 t.second ++
    fractionText t.nanosecond

/-- An offset with its sign, or the letter. -/
def offsetText : Offset → String
  | .zulu => "Z"
  | .minutes n =>
    (if n < 0 then "-" else "+") ++ padded 2 (n.natAbs / 60) ++ ":" ++ padded 2 (n.natAbs % 60)

/-- The written form of a date-time. -/
def text : DateTime → String
  | .date d => dateText d
  | .time t => timeText t
  | .local d t => dateText d ++ "T" ++ timeText t
  | .offset d t o => dateText d ++ "T" ++ timeText t ++ offsetText o

end DateTime

end Repertoire.Toml
