import Repertoire.Json.Number
import Repertoire.Json.Quoted

/-!
# JSON documents as trees of literals

A tree records how a document is written: strings are the text between their marks, numbers
are their digits, and members stand in document order with repeated names kept. The reader
accepts exactly the JSON grammar, one value with blanks around it. What a literal means is left
to whoever looks into the tree, so that a part nobody looks into is only checked for its shape.
-/

namespace Repertoire.Json

/-- A document as written. -/
inductive Tree where
  | null
  | bool (value : Bool)
  | number (numeral : Numeral)
  | string (literal : List Char)
  | array (items : List Tree)
  | object (members : List (List Char × Tree))
deriving Repr

namespace Tree

/-- The blanks that may stand between the parts of a document. -/
def isSpace (c : Char) : Bool :=
  c = ' ' || c = '\x09' || c = '\x0a' || c = '\x0d'

/-- A text without the blanks at its front. -/
def skipSpace (cs : List Char) : List Char :=
  cs.dropWhile isSpace

mutual

/-- The value at the front of a text and what follows it. The first argument bounds the number
of nested calls; the length of the text is always enough. -/
def readValue : Nat → List Char → Option (Tree × List Char)
  | 0, _ => none
  | fuel + 1, cs =>
    match skipSpace cs with
    | 'n' :: 'u' :: 'l' :: 'l' :: rest => some (.null, rest)
    | 't' :: 'r' :: 'u' :: 'e' :: rest => some (.bool true, rest)
    | 'f' :: 'a' :: 'l' :: 's' :: 'e' :: rest => some (.bool false, rest)
    | '\x22' :: rest => (Quoted.scan rest).map fun (literal, rest) => (.string literal, rest)
    | '[' :: rest =>
      match skipSpace rest with
      | ']' :: rest => some (.array [], rest)
      | _ => (readItems fuel rest).map fun (items, rest) => (.array items, rest)
    | '{' :: rest =>
      match skipSpace rest with
      | '}' :: rest => some (.object [], rest)
      | _ => (readMembers fuel rest).map fun (members, rest) => (.object members, rest)
    | rest => (Numeral.scan rest).map fun (numeral, rest) => (.number numeral, rest)

/-- The items of an array up to its closing bracket; there is at least one. -/
def readItems : Nat → List Char → Option (List Tree × List Char)
  | 0, _ => none
  | fuel + 1, cs =>
    match readValue fuel cs with
    | none => none
    | some (item, rest) =>
      match skipSpace rest with
      | ',' :: rest => (readItems fuel rest).map fun (items, rest) => (item :: items, rest)
      | ']' :: rest => some ([item], rest)
      | _ => none

/-- The members of an object up to its closing brace; there is at least one. -/
def readMembers : Nat → List Char → Option (List (List Char × Tree) × List Char)
  | 0, _ => none
  | fuel + 1, cs =>
    match skipSpace cs with
    | '\x22' :: rest =>
      match Quoted.scan rest with
      | none => none
      | some (name, rest) =>
        match skipSpace rest with
        | ':' :: rest =>
          match readValue fuel rest with
          | none => none
          | some (value, rest) =>
            match skipSpace rest with
            | ',' :: rest =>
              (readMembers fuel rest).map fun (members, rest) => ((name, value) :: members, rest)
            | '}' :: rest => some ([(name, value)], rest)
            | _ => none
        | _ => none
    | _ => none

end

/-- The tree of a whole document. -/
def ofChars? (cs : List Char) : Option Tree :=
  match readValue (cs.length + 1) cs with
  | some (tree, rest) => if (skipSpace rest).isEmpty then some tree else none
  | none => none

/-- The tree of a whole document. -/
def ofString? (s : String) : Option Tree :=
  ofChars? s.toList

end Tree

end Repertoire.Json
