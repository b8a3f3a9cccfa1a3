import Repertoire.Json.Tree

/-!
# JSON values

What a document means: strings are texts, numbers have values, and members stand in document
order. The values are worked out from trees of literals; a literal without a meaning, or a tree
nested too deeply, has no value. In a value as read, the last of several members of one name
counts, at the place of the first.

A value is written in one of two layouts: compact, without any blank, or spread over lines with
two blanks for each level.
-/

namespace Repertoire.Json

open Repertoire.Text

/-- A value with its members in order. Writers may repeat a name. -/
inductive Value where
  | null
  | bool (value : Bool)
  | number (value : Number)
  | string (text : String)
  | array (items : List Value)
  | object (members : List (String × Value))
deriving Repr

/-- The number of nested arrays and objects that a document may have. -/
def nestingLimit : Nat := 127

/-- Puts a member under a name: in place of the member that has the name, else at the end. -/
def putMember {α : Type} (name : String) (value : α) : List (String × α) → List (String × α)
  | [] => [(name, value)]
  | (n, v) :: rest =>
    if n = name then (n, value) :: rest else (n, v) :: putMember name value rest

/-- Members in which each name occurs once, at its first place and with its last value. -/
def settle {α : Type} (members : List (String × α)) : List (String × α) :=
  members.foldl (fun settled (name, value) => putMember name value settled) []

/-- The text that a string literal names. -/
def textOf? (literal : List Char) : Option String :=
  (Quoted.decode literal).map String.ofList

namespace Tree

mutual

/-- The value of a tree; the first argument is the number of levels that may still be nested. -/
def value? (room : Nat) : Tree → Option Value
  | .null => some .null
  | .bool b => some (.bool b)
  | .number n => n.value?.map .number
  | .string literal => (textOf? literal).map .string
  | .array items =>
    match room with
    | 0 => none
    | room + 1 => (values? room items).map .array
  | .object members =>
    match room with
    | 0 => none
    | room + 1 => (memberValues? room members).map fun ms => .object (settle ms)

/-- The values of the items of an array. -/
def values? (room : Nat) : List Tree → Option (List Value)
  | [] => some []
  | t :: ts =>
    match value? room t with
    | none => none
    | some v => (values? room ts).map (v :: ·)

/-- The names and values of the members of an object. -/
def memberValues? (room : Nat) : List (List Char × Tree) → Option (List (String × Value))
  | [] => some []
  | (name, t) :: ts =>
    match textOf? name, value? room t with
    | some n, some v => (memberValues? room ts).map ((n, v) :: ·)
    | _, _ => none

end

end Tree

namespace Value

/-- A string with its marks. -/
def quote (s : String) : String :=
  "\"" ++ String.ofList (Quoted.encode s.toList) ++ "\""

mutual

/-- The value without any blank. -/
def compact : Value → String
  | .null => "null"
  | .bool true => "true"
  | .bool false => "false"
  | .number n => n.text
  | .string s => quote s
  | .array items => "[" ++ compactItems items ++ "]"
  | .object members => "\x7b" ++ compactMembers members ++ "\x7d"

/-- Items with commas between them. -/
def compactItems : List Value → String
  | [] => ""
  | [v] => compact v
  | v :: w :: rest => compact v ++ "," ++ compactItems (w :: rest)

/-- Members with commas between them. -/
def compactMembers : List (String × Value) → String
  | [] => ""
  | [(name, v)] => quote name ++ ":" ++ compact v
  | (name, v) :: m :: rest => quote name ++ ":" ++ compact v ++ "," ++ compactMembers (m :: rest)

end

/-- A new line, indented by two blanks for each level. -/
def newLine (level : Nat) : String :=
  "\n" ++ String.ofList (List.replicate (2 * level) ' ')

mutual

/-- The value over several lines, at a level of indentation. -/
def spread (level : Nat) : Value → String
  | .null => "null"
  | .bool true => "true"
  | .bool false => "false"
  | .number n => n.text
  | .string s => quote s
  | .array [] => "[]"
  | .array (v :: vs) =>
    "[" ++ newLine (level + 1) ++ spreadItems (level + 1) (v :: vs) ++ newLine level ++ "]"
  | .object [] => "\x7b\x7d"
  | .object (m :: ms) =>
    "\x7b" ++ newLine (level + 1) ++ spreadMembers (level + 1) (m :: ms) ++ newLine level ++
      "\x7d"

/-- Items on lines of their own. -/
def spreadItems (level : Nat) : List Value → String
  | [] => ""
  | [v] => spread level v
  | v :: w :: rest => spread level v ++ "," ++ newLine level ++ spreadItems level (w :: rest)

/-- Members on lines of their own. -/
def spreadMembers (level : Nat) : List (String × Value) → String
  | [] => ""
  | [(name, v)] => quote name ++ ": " ++ spread level v
  | (name, v) :: m :: rest =>
    quote name ++ ": " ++ spread level v ++ "," ++ newLine level ++ spreadMembers level (m :: rest)

end

/-- The value over several lines. -/
def pretty (v : Value) : String := spread 0 v

end Value

end Repertoire.Json
