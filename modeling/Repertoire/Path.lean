import Repertoire.Text.Cut

/-!
# Paths as text

A path is a text whose parts are separated by slashes. Joining does not normalise: an absolute
right side replaces the left one, and an empty right side adds a slash. The components of a path
leave out empty parts and parts of a single point, except for one point at the very front.
-/

namespace Repertoire.Path

open Repertoire.Text

/-- A component of a path. -/
inductive Component where
  | root
  | here
  | parent
  | name (text : String)
deriving DecidableEq, Repr

/-- The text of a component. -/
def Component.text : Component → String
  | .root => "/"
  | .here => "."
  | .parent => ".."
  | .name n => n

/-- The path starts at the root. -/
def isAbsolute (path : String) : Bool := path.toList.head? == some '/'

/-- The component that a part stands for behind the front of a path, if any. -/
def component? (part : List Char) : Option Component :=
  if part = [] ∨ part = ['.'] then none
  else if part = ['.', '.'] then some .parent
  else some (.name (String.ofList part))

/-- The components of a path. -/
def components (path : String) : List Component :=
  let parts := pieces '/' path.toList
  let inner := parts.filterMap component?
  if isAbsolute path then .root :: inner
  else if parts.head? = some ['.'] then .here :: inner
  else inner

/-- One path below another. -/
def join (base path : String) : String :=
  if isAbsolute path then path
  else if base.isEmpty || base.toList.getLast? = some '/' then base ++ path
  else base ++ "/" ++ path

/-- The path of components, each joined to those in front of it. -/
def ofComponents (cs : List Component) : String :=
  cs.foldl (fun path c => join path c.text) ""

/-- The name that a path ends in, unless it ends in a component of another kind. -/
def fileName? (path : String) : Option String :=
  match (components path).getLast? with
  | some (.name text) => some text
  | _ => none

/-- A name cut at its last point: what stands before the point and behind it. A point at the
front does not count. -/
def cutName (name : List Char) : List Char × Option (List Char) :=
  let tail := (name.reverse.takeWhile (· ≠ '.')).reverse
  let front := name.take (name.length - tail.length - 1)
  if tail.length = name.length ∨ front.isEmpty then (name, none) else (front, some tail)

/-- The text behind the last point of the name that a path ends in. -/
def extension? (path : String) : Option String :=
  (fileName? path).bind fun name => (cutName name.toList).2.map String.ofList

/-- The name that a path ends in, without its extension. -/
def stem? (path : String) : Option String :=
  (fileName? path).map fun name => String.ofList (cutName name.toList).1

end Repertoire.Path
