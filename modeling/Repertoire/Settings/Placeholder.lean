import Repertoire.Text.Cut

/-!
# Placeholders in text

A placeholder is a name between `$` with an opening brace and the next closing brace, with or
without a fallback behind a colon and a dash. Placeholders are replaced in one pass from left to
right: what is put in is never looked at again. A placeholder that has neither a value nor a
fallback stays as it is, and so does everything from an opening mark that nothing closes.
-/

namespace Repertoire.Placeholder

open Repertoire.Text

/-- What opens a placeholder. -/
def opening : List Char := ['$', '\x7b']

/-- What closes a placeholder. -/
def closing : List Char := ['\x7d']

/-- What stands between a name and its fallback. -/
def fallbackMark : List Char := [':', '-']

/-- The name in a placeholder, and its fallback. -/
def cutFallback (inner : List Char) : List Char × Option (List Char) :=
  match cutAt? fallbackMark inner with
  | some (name, fallback) => (name, some fallback)
  | none => (inner, none)

/-- What a placeholder is replaced by, given the text between its marks. -/
def replacement (lookup : String → Option String) (inner : List Char) : List Char :=
  let (name, fallback) := cutFallback inner
  let asWritten := opening ++ inner ++ closing
  if name.isEmpty then asWritten
  else
    match lookup (String.ofList name), fallback with
    | some value, _ => value.toList
    | none, some fallback => fallback
    | none, none => asWritten

/-- The text with its placeholders replaced; the first argument bounds their number. -/
def replaceUpTo (lookup : String → Option String) : Nat → List Char → List Char
  | 0, cs => cs
  | n + 1, cs =>
    match cutAt? opening cs with
    | none => cs
    | some (before, rest) =>
      match cutAt? closing rest with
      | none => cs
      | some (inner, after) => before ++ replacement lookup inner ++ replaceUpTo lookup n after

/-- The text with its placeholders replaced. -/
def replaceChars (lookup : String → Option String) (cs : List Char) : List Char :=
  replaceUpTo lookup cs.length cs

/-- The text with its placeholders replaced. -/
def replace (lookup : String → Option String) (text : String) : String :=
  String.ofList (replaceChars lookup text.toList)

end Repertoire.Placeholder
