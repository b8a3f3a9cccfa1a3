import Repertoire.Text.Digits

/-!
# Times of the calendar

The date and time of day of a moment, in universal time and in the Gregorian calendar extended
to all years. A moment is a number of seconds from the start of 1970. Eras of four hundred years
have the same number of days each, and years are counted from March so that a leap day is the
last day of its year.
-/

namespace Repertoire.Calendar

open Repertoire.Text

/-- The seconds of a day. -/
def daySeconds : Int := 86400

/-- A calendar date. -/
structure Date where
  year : Int
  month : Nat
  day : Nat
deriving DecidableEq, Repr

/-- The date that lies a number of days after the first of January 1970. -/
def dateOfDay (days : Int) : Date :=
  let fromMarch := days + 719468
  let era := fromMarch.fdiv 146097
  let inEra := (fromMarch - era * 146097).toNat
  let yearOfEra := (inEra - inEra / 1460 + inEra / 36524 - inEra / 146096) / 365
  let inYear := inEra - (365 * yearOfEra + yearOfEra / 4 - yearOfEra / 100)
  let monthFromMarch := (5 * inYear + 2) / 153
  let day := inYear - (153 * monthFromMarch + 2) / 5 + 1
  let month := if monthFromMarch < 10 then monthFromMarch + 3 else monthFromMarch - 9
  let year := (yearOfEra : Int) + era * 400
  ⟨if month ≤ 2 then year + 1 else year, month, day⟩

/-- A year in at least four digits; one that does not fit them, or lies before the year zero,
has a sign. -/
def yearText (year : Int) : String :=
  if year < 0 then "-" ++ padded 4 year.natAbs
  else if year ≤ 9999 then padded 4 year.natAbs
  else "+" ++ padded 4 year.natAbs

/-- The date and time of day of a moment. -/
def text (seconds : Int) : String :=
  let days := seconds.fdiv daySeconds
  let date := dateOfDay days
  let ofDay := (seconds - days * daySeconds).toNat
  yearText date.year ++ "-" ++ padded 2 date.month ++ "-" ++ padded 2 date.day ++ " " ++
    padded 2 (ofDay / 3600) ++ ":" ++ padded 2 (ofDay / 60 % 60) ++ ":" ++ padded 2 (ofDay % 60)

/-- The first moment that a load time can name, at the start of the year -262143. -/
def earliest : Int := -8334601228800

/-- The last moment that a load time can name, at the end of the year 262142. -/
def latest : Int := 8210266876799

/-- The moment can be the time of a load. -/
def inRange (seconds : Int) : Bool := earliest ≤ seconds && seconds ≤ latest

end Repertoire.Calendar
