import Repertoire.Toml.Literal
import Repertoire.Toml.Table

/-!
# TOML documents

A document is read as a sequence of statements, one on a line: the header of a table, the header
of a table in an array, or an assignment. The statements are then carried out in order on an
empty table. Arrays and inline tables may be nested to a fixed depth.
-/

namespace Repertoire.Toml

open Literal

/-- A statement of a document. -/
inductive Statement (α : Type) where
  | header (path : List String)
  | element (path : List String)
  | assignment (path : List String) (value : α)

/-- The number of arrays and inline tables that may be nested. -/
def nestingLimit : Nat := 79

/-- The entries of an inline table from its assignments in order. -/
def inlineEntries? {α : Type} (assignments : List (List String × α)) : Option (Entries α) :=
  assignments.foldlM (fun entries (path, v) => Entries.assign path v entries) []

/-- An inline table from its assignments in order. -/
def inlineTable? (assignments : List (List String × Value)) : Option Value :=
  (inlineEntries? assignments).map fun entries => .table (Node.members entries)

mutual

/-- A value at the front of a text. The first argument bounds the number of nested calls, the
second is the number of levels that may still be nested. -/
def scanValue : Nat → Nat → List Char → Option (Value × List Char)
  | 0, _, _ => none
  | fuel + 1, room, cs =>
    match cs with
    | '\x22' :: _ => (scanString cs).map fun (s, rest) => (.string s, rest)
    | '\x27' :: _ => (scanString cs).map fun (s, rest) => (.string s, rest)
    | '[' :: rest =>
      match room with
      | 0 => none
      | room + 1 =>
        match skipLines rest.length rest with
        | ']' :: rest => some (.array [], rest)
        | rest => (scanItems fuel room rest).map fun (items, rest) => (.array items, rest)
    | '{' :: rest =>
      match room with
      | 0 => none
      | room + 1 =>
        match skipSpace rest with
        | '}' :: rest => some (.table [], rest)
        | rest =>
          match scanAssignments fuel room rest with
          | none => none
          | some (assignments, rest) => (inlineTable? assignments).map fun table => (table, rest)
    | 't' :: 'r' :: 'u' :: 'e' :: rest => some (.bool true, rest)
    | 'f' :: 'a' :: 'l' :: 's' :: 'e' :: rest => some (.bool false, rest)
    | _ => scanNumeric cs

/-- The items of an array up to its closing bracket; a comma may follow the last one. -/
def scanItems : Nat → Nat → List Char → Option (List Value × List Char)
  | 0, _, _ => none
  | fuel + 1, room, cs =>
    match scanValue fuel room cs with
    | none => none
    | some (item, rest) =>
      match skipLines rest.length rest with
      | ']' :: rest => some ([item], rest)
      | ',' :: rest =>
        match skipLines rest.length rest with
        | ']' :: rest => some ([item], rest)
        | rest => (scanItems fuel room rest).map fun (items, rest) => (item :: items, rest)
      | _ => none

/-- The assignments of an inline table up to its closing brace. -/
def scanAssignments : Nat → Nat → List Char → Option (List (List String × Value) × List Char)
  | 0, _, _ => none
  | fuel + 1, room, cs =>
    match scanKey cs with
    | some (path, '=' :: rest) =>
      match scanValue fuel room (skipSpace rest) with
      | none => none
      | some (value, rest) =>
        match skipSpace rest with
        | '}' :: rest => some ([(path, value)], rest)
        | ',' :: rest =>
          (scanAssignments fuel room rest).map fun (more, rest) => ((path, value) :: more, rest)
        | _ => none
    | _ => none

end

/-- The statement at the front of a line and what follows the line. -/
def scanStatement (cs : List Char) : Option (Statement Value × List Char) :=
  match cs with
  | '[' :: '[' :: rest =>
    match scanKey rest with
    | some (path, ']' :: ']' :: rest) => (endOfLine? rest).map fun rest => (.element path, rest)
    | _ => none
  | '[' :: rest =>
    match scanKey rest with
    | some (path, ']' :: rest) => (endOfLine? rest).map fun rest => (.header path, rest)
    | _ => none
  | _ =>
    match scanKey cs with
    | some (path, '=' :: rest) =>
      match scanValue (rest.length + 1) nestingLimit (skipSpace rest) with
      | some (value, rest) => (endOfLine? rest).map fun rest => (.assignment path value, rest)
      | none => none
    | _ => none

/-- The statements of a text; the first argument bounds their number. -/
def scanStatements : Nat → List Char → Option (List (Statement Value))
  | 0, _ => none
  | n + 1, cs =>
    match skipLines cs.length cs with
    | [] => some []
    | '#' :: rest => if rest.all isCommentChar then some [] else none
    | rest =>
      match scanStatement rest with
      | some (statement, rest) => (scanStatements n rest).map (statement :: ·)
      | none => none

/-- A text without a byte order mark at its front. -/
def dropMark : List Char → List Char
  | '\uFEFF' :: rest => rest
  | cs => cs

/-- One statement carried out: the path of the table that assignments go to, and all entries. -/
def Statement.carryOut {α : Type} : List String × Entries α → Statement α →
    Option (List String × Entries α)
  | (_, entries), .header path => (Entries.openTable path entries).map fun e => (path, e)
  | (_, entries), .element path => (Entries.openElement path entries).map fun e => (path, e)
  | (current, entries), .assignment path value =>
    (Entries.atPath current (Entries.assign path value) entries).map fun e => (current, e)

/-- The members of the table that a document writes. -/
def readDocument (cs : List Char) : Option (List (String × Value)) :=
  match scanStatements (cs.length + 1) (dropMark cs) with
  | none => none
  | some statements =>
    (statements.foldlM Statement.carryOut ([], [])).map fun (_, entries) => Node.members entries

/-- The members of the table that a document writes. -/
def ofString? (s : String) : Option (List (String × Value)) :=
  readDocument s.toList

end Repertoire.Toml
