import Repertoire.FileSystem.Basic
import Repertoire.Path

/-!
# From paths to places

A path is followed name by name. A link on the way is replaced by the path that it holds; a link
at the end is replaced only where it is to be followed. The place that a path leads to need not
hold an entry, but every place on the way must be a directory. A bounded number of links is
followed.
-/

namespace Repertoire.FileSystem

open Repertoire.Path

/-- The steps of a path: its components, and a last one that asks for a directory when the path
ends in a slash or a single point. -/
def steps (path : String) : List Component :=
  let cs := path.toList.reverse
  let ended := match cs with
    | '/' :: _ => true
    | '.' :: '/' :: _ => true
    | _ => false
  if ended then components path ++ [.here] else components path

/-- The number of bytes that a name may have. -/
def nameLimit : Nat := 255

/-- Follows steps from a place. What happens at a link that is to be followed is a parameter,
which is given the place of the link's directory and the steps that remain. -/
def walk (fs : FileSystem) (onLink : Place → List Component → Except FileFault Place)
    (followLast : Bool) : Place → List Component → Except FileFault Place
  | place, [] => .ok place
  | _, .root :: rest => walk fs onLink followLast [] rest
  | place, .here :: rest => walk fs onLink followLast place rest
  | place, .parent :: rest => walk fs onLink followLast place.dropLast rest
  | place, .name n :: rest =>
    if nameLimit < n.utf8ByteSize then .error .nameTooLong
    else
      match fs.entry? (place ++ [n]) with
      | some .directory => walk fs onLink followLast (place ++ [n]) rest
      | some (.file ..) => if rest.isEmpty then .ok (place ++ [n]) else .error .notDirectory
      | some (.link target) =>
        if rest.isEmpty && !followLast then .ok (place ++ [n])
        else if target.isEmpty then .error .missing
        else onLink place (steps target ++ rest)
      | none => if rest.isEmpty then .ok (place ++ [n]) else .error .missing

/-- Follows steps from a place through at most a number of links. -/
def follow (fs : FileSystem) (followLast : Bool) :
    Nat → Place → List Component → Except FileFault Place
  | 0, place, rest => walk fs (fun _ _ => .error .tooManyLinks) followLast place rest
  | n + 1, place, rest => walk fs (follow fs followLast n) followLast place rest

/-- The number of links that are followed on the way of one path. -/
def linkLimit : Nat := 40

/-- The place that steps lead to. -/
def resolveSteps (fs : FileSystem) (followLast : Bool) (path : List Component) :
    Except FileFault Place :=
  fs.follow followLast linkLimit fs.workingDir path

/-- The place that a path leads to. -/
def resolve (fs : FileSystem) (followLast : Bool) (path : String) : Except FileFault Place :=
  if path.toList.contains '\x00' then .error .badName
  else if path.isEmpty then .error .missing
  else fs.resolveSteps followLast (steps path)

/-- The steps of a place. -/
def placeSteps (place : Place) : List Component := .root :: place.map .name

/-- The path of a place as text. -/
def placePath : Place → String
  | [] => "/"
  | names => String.join (names.map fun n => "/" ++ n)

end Repertoire.FileSystem
