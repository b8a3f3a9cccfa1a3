import Repertoire.Error

/-!
# File systems

A file system is a finite map from places to entries, together with the directory that relative
paths start from and the clock that stamps what is written. A place is the list of names on the
way from the root; it is not a path, since a path may run through links. The root is always a
directory.

Nothing here forces the parent of an entry to be a directory. Every operation that adds an entry
looks its parent up first.
-/

namespace Repertoire

/-- The names on the way from the root. -/
abbrev Place := List String

/-- What stands at a place. Times are in nanoseconds. -/
inductive Entry where
  | file (content : ByteArray) (modified : Int)
  | directory
  | link (target : String)

/-- The entries of a file system in the order in which directories list them. -/
structure FileSystem where
  entries : List (Place × Entry)
  workingDir : Place
  now : Int

namespace FileSystem

/-- The entry at a place, links not followed. -/
def entry? (fs : FileSystem) (place : Place) : Option Entry :=
  if place = [] then some .directory
  else (fs.entries.find? fun (p, _) => p = place).map Prod.snd

/-- Puts an entry at a place, where another one may stand already. -/
def put (fs : FileSystem) (place : Place) (entry : Entry) : FileSystem :=
  if (fs.entries.any fun (p, _) => p = place) then
    { fs with entries := fs.entries.map fun (p, e) => if p = place then (p, entry) else (p, e) }
  else { fs with entries := fs.entries ++ [(place, entry)] }

/-- The place is the given one or below it. -/
def isWithin (top place : Place) : Bool := top.isPrefixOf place

/-- Without the entry at a place and all entries below it. -/
def erase (fs : FileSystem) (place : Place) : FileSystem :=
  { fs with entries := fs.entries.filter fun (p, _) => !isWithin place p }

/-- The names of the entries right below a place. -/
def names (fs : FileSystem) (place : Place) : List String :=
  fs.entries.filterMap fun (p, _) =>
    match p.getLast? with
    | some name => if p.dropLast = place then some name else none
    | none => none

/-- The entries below a place, with the names that lead to them from there. -/
def below (fs : FileSystem) (place : Place) : List (Place × Entry) :=
  fs.entries.filterMap fun (p, e) =>
    if isWithin place p && p.length != place.length then some (p.drop place.length, e) else none

/-- The same files at another time. -/
def atTime (fs : FileSystem) (time : Int) : FileSystem := { fs with now := time }

end FileSystem

end Repertoire
