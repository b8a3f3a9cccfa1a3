import Repertoire.Shell.Script

/-!
# Fields

The fields that a word becomes when its parts have got their values. Text that was written, and
values between quotes, go into the current field as they are. Other values are split at blanks.
-/

namespace Repertoire.Shell

/-- Finished fields, the newest first, and the field that is being built, if there is one. -/
structure Fields where
  finished : List String
  current : Option (List Char)
deriving DecidableEq, Repr

namespace Fields

/-- No fields. -/
def empty : Fields := ⟨[], none⟩

/-- The character separates fields. -/
def separates (c : Char) : Bool := c = ' ' || c = '\t' || c = '\n'

/-- Adds characters to the current field, which is started if there is none. -/
def add (fs : Fields) (chars : List Char) : Fields :=
  ⟨fs.finished, some ((fs.current.getD []) ++ chars)⟩

/-- Ends the current field. -/
def close (fs : Fields) : Fields :=
  match fs.current with
  | some chars => ⟨String.ofList chars :: fs.finished, none⟩
  | none => fs

/-- Adds a value that is split at blanks. -/
def addSplit (fs : Fields) (chars : List Char) : Fields :=
  chars.foldl (fun fs c => if separates c then fs.close else fs.add [c]) fs

/-- Adds a value, split unless it was quoted. -/
def addValue (fs : Fields) (quoted : Bool) (value : String) : Fields :=
  if quoted then fs.add value.toList else fs.addSplit value.toList

/-- Adds values that stay apart from each other. -/
def addApart (fs : Fields) : List String → Fields
  | [] => fs
  | [value] => fs.add value.toList
  | value :: rest => (fs.add value.toList).close.addApart rest

/-- The fields in order. -/
def toList (fs : Fields) : List String := fs.close.finished.reverse

end Fields

end Repertoire.Shell
