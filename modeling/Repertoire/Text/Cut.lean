/-!
# Cutting text at marks

The searches here find the first occurrence of a mark and return what stands on either side,
so that a caller never handles an offset. All of them work on lists of characters; the
versions on `String` only wrap them.
-/

namespace Repertoire.Text

/-- What stands before and after the first occurrence of `mark`. -/
def cutAt? (mark : List Char) : List Char → Option (List Char × List Char)
  | [] => if mark.isEmpty then some ([], []) else none
  | c :: cs =>
    if mark.isPrefixOf (c :: cs) then some ([], (c :: cs).drop mark.length)
    else (cutAt? mark cs).map fun (before, after) => (c :: before, after)

/-- The text holds the mark somewhere. -/
def holds (mark : List Char) (cs : List Char) : Bool :=
  (cutAt? mark cs).isSome

/-- What follows `lead`, when the text starts with it. -/
def after? (lead : List Char) (cs : List Char) : Option (List Char) :=
  if lead.isPrefixOf cs then some (cs.drop lead.length) else none

/-- What precedes `tail`, when the text ends with it. -/
def before? (tail : List Char) (cs : List Char) : Option (List Char) :=
  (after? tail.reverse cs.reverse).map List.reverse

/-- The text without any number of copies of `tail` at its end, given as reversed lists; the
first argument bounds the number of copies. -/
def dropCopies (tail : List Char) : Nat → List Char → List Char
  | 0, cs => cs
  | n + 1, cs =>
    match before? tail cs with
    | some rest => if tail.isEmpty then cs else dropCopies tail n rest
    | none => cs

/-- The text without any number of copies of `tail` at its end. -/
def dropAllCopies (tail : List Char) (cs : List Char) : List Char :=
  dropCopies tail cs.length cs

/-- The pieces between the occurrences of a separating character; there is always one. -/
def pieces (sep : Char) : List Char → List (List Char)
  | [] => [[]]
  | c :: cs =>
    if c = sep then [] :: pieces sep cs
    else
      match pieces sep cs with
      | [] => [[c]]
      | p :: ps => (c :: p) :: ps

/-- A line without the carriage return that precedes its line feed. -/
def dropReturn (line : List Char) : List Char :=
  (before? ['\r'] line).getD line

/-- The lines of a text: a line ends with a line feed, which a carriage return may precede,
and a final line feed starts no further line. -/
def lines (cs : List Char) : List (List Char) :=
  let ps := pieces '\n' cs
  let ended := ps.dropLast.map dropReturn
  match ps.getLast? with
  | some [] => ended
  | some rest => ended ++ [rest]
  | none => ended

/-- Texts joined with a separator between neighbours. -/
def joinWith (sep : String) : List String → String
  | [] => ""
  | [s] => s
  | s :: t :: rest => s ++ sep ++ joinWith sep (t :: rest)

end Repertoire.Text
