import Repertoire.Decimal.Shortest
import Repertoire.Toml.DateTime

/-!
# TOML values and their inline text

Values keep the order of the document. The text of a value stands on one line where its strings
allow it: a string takes the first of its four written forms that needs no escape but that of a
tab, which the two forms with double marks always escape, and other escapes are used only when
none does. A float is always positional.
-/

namespace Repertoire.Toml

open Repertoire.Text Repertoire.Decimal

/-- A value, with the members of a table in document order. -/
inductive Value where
  | string (text : String)
  | integer (value : Int)
  | float (value : Binary64)
  | bool (value : Bool)
  | dateTime (value : DateTime)
  | array (items : List Value)
  | table (members : List (String × Value))
deriving Repr

/-- A character that no form without escapes may hold: a control character other than a tab or
a line feed. -/
def isControl (c : Char) : Bool :=
  (c.toNat < 0x20 && c != '\x09' && c != '\x0a') || c.toNat == 0x7F

/-- The longest run of a character in a text. -/
def longestRun (mark : Char) (cs : List Char) : Nat :=
  (cs.foldl
    (fun (best, current) c =>
      if c = mark then (max best (current + 1), current + 1) else (best, 0))
    ((0 : Nat), (0 : Nat))).1

/-- The escape of a character that has one in either form. -/
def escapeChar (c : Char) : List Char :=
  if c = '\x08' then ['\\', 'b']
  else if c = '\x09' then ['\\', 't']
  else if c = '\x0c' then ['\\', 'f']
  else if c = '\x0d' then ['\\', 'r']
  else if c = '\\' then ['\\', '\\']
  else if isControl c then
    ['\\', 'u', '0', '0', upperHexDigit (c.toNat / 16), upperHexDigit (c.toNat % 16)]
  else [c]

/-- A text in the form with single quotation marks and escapes. -/
def escapeLine (cs : List Char) : List Char :=
  cs.flatMap fun c =>
    if c = '\x0a' then ['\\', 'n']
    else if c = '\x22' then ['\\', '\x22']
    else escapeChar c

/-- A text in the form with triple quotation marks, where each third mark in a row is escaped;
the first argument counts the marks just written. -/
def escapeLines : Nat → List Char → List Char
  | _, [] => []
  | marks, c :: cs =>
    if c = '\x22' then
      if 2 ≤ marks then '\\' :: '\x22' :: escapeLines 0 cs else '\x22' :: escapeLines (marks + 1) cs
    else if c = '\x0a' then '\x0a' :: escapeLines 0 cs
    else escapeChar c ++ escapeLines 0 cs

/-- A text between opening and closing marks. -/
def between (mark : String) (cs : List Char) : String :=
  mark ++ String.ofList cs ++ mark

/-- A text between triple marks, on lines of its own when it has a line feed. -/
def betweenLines (mark : String) (value written : List Char) : String :=
  mark ++ (if value.contains '\x0a' then "\n" else "") ++ String.ofList written ++ mark

/-- The written form of a string. -/
def stringText (s : String) : String :=
  let cs := s.toList
  let plain := !cs.any isControl
  let oneLine := !cs.contains '\x0a'
  let noEscape := !cs.contains '\\'
  if plain && oneLine && noEscape && !cs.contains '\x22' then between "\"" (escapeLine cs)
  else if plain && oneLine && !cs.contains '\x27' then between "'" cs
  else if plain && noEscape && longestRun '\x22' cs < 3 then
    betweenLines "\"\"\"" cs (escapeLines 0 cs)
  else if plain && longestRun '\x27' cs < 3 then betweenLines "'''" cs cs
  else if oneLine then between "\"" (escapeLine cs)
  else betweenLines "\"\"\"" cs (escapeLines 0 cs)

/-- A character that a key may hold without quotation marks. -/
def isBare (c : Char) : Bool :=
  ('A' ≤ c && c ≤ 'Z') || ('a' ≤ c && c ≤ 'z') || ('0' ≤ c && c ≤ '9') || c = '_' || c = '-'

/-- The written form of a key. -/
def keyText (s : String) : String :=
  let cs := s.toList
  let plain := !cs.any isControl && !cs.contains '\x0a'
  if !cs.isEmpty && cs.all isBare then s
  else if plain && !cs.contains '\\' && !cs.contains '\x22' then between "\"" (escapeLine cs)
  else if plain && !cs.contains '\x27' then between "'" cs
  else between "\"" (escapeLine cs)

/-- The written form of a float; the sign of a number that is none is dropped. -/
def floatText (x : Binary64) : String := x.text Numeral.positional

namespace Value

mutual

/-- The inline text of a value. -/
def text : Value → String
  | .string s => stringText s
  | .integer n => toString n
  | .float x => floatText x
  | .bool true => "true"
  | .bool false => "false"
  | .dateTime d => d.text
  | .array items => "[" ++ itemsText items ++ "]"
  | .table [] => "\x7b\x7d"
  | .table (m :: ms) => "\x7b " ++ membersText (m :: ms) ++ " \x7d"

/-- Items with commas between them. -/
def itemsText : List Value → String
  | [] => ""
  | [v] => text v
  | v :: w :: rest => text v ++ ", " ++ itemsText (w :: rest)

/-- Members with commas between them. -/
def membersText : List (String × Value) → String
  | [] => ""
  | [(key, v)] => keyText key ++ " = " ++ text v
  | (key, v) :: m :: rest => keyText key ++ " = " ++ text v ++ ", " ++ membersText (m :: rest)

end

/-- The member name under which a date-time travels when it is handed on as a table. -/
def dateTimeKey : String := "$__toml_private_datetime"

mutual

/-- The value with every table that stands for a date-time replaced by it. A table stands for a
date-time when its first member has the reserved name; that member must then write one. -/
def resolved? : Value → Option Value
  | .array items => (resolvedItems? items).map .array
  | .table members =>
    match members with
    | (key, .string s) :: _ =>
      if key = dateTimeKey then (DateTime.ofString? s).map .dateTime
      else (resolvedMembers? members).map .table
    | (key, .dateTime d) :: _ =>
      if key = dateTimeKey then some (.dateTime d) else (resolvedMembers? members).map .table
    | (key, _) :: _ =>
      if key = dateTimeKey then none else (resolvedMembers? members).map .table
    | [] => some (.table [])
  | v => some v

/-- The items of an array, resolved. -/
def resolvedItems? : List Value → Option (List Value)
  | [] => some []
  | v :: vs =>
    match resolved? v with
    | some w => (resolvedItems? vs).map (w :: ·)
    | none => none

/-- The members of a table, resolved. -/
def resolvedMembers? : List (String × Value) → Option (List (String × Value))
  | [] => some []
  | (key, v) :: ms =>
    match resolved? v with
    | some w => (resolvedMembers? ms).map ((key, w) :: ·)
    | none => none

end

end Value

end Repertoire.Toml
