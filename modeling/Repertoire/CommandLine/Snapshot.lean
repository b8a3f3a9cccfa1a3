import Repertoire.Environment
import Repertoire.FileSystem.Write
import Repertoire.Json.Value

/-!
# Snapshots of a machine

What the program works on, written as a JSON object: the variables, the working directory, the
time in nanoseconds, and the files. A file is given by its path with its text, or with null for a
directory, or with an object that holds the target of a link. Members that are missing are empty.
-/

namespace Repertoire.CommandLine

open Repertoire.Json

/-- The environment and the file system that a program works on. -/
structure Snapshot where
  env : Environment
  files : FileSystem

namespace Snapshot

/-- The member of a name. -/
def member? (name : String) (members : List (String × Value)) : Option Value :=
  (members.find? fun (n, _) => n = name).map Prod.snd

/-- The members of an object under a name. -/
def object (name : String) (members : List (String × Value)) : List (String × Value) :=
  match member? name members with
  | some (.object ms) => ms
  | _ => []

/-- The text under a name. -/
def text (name : String) (members : List (String × Value)) : String :=
  match member? name members with
  | some (.string s) => s
  | _ => ""

/-- The whole number under a name. -/
def integer (name : String) (members : List (String × Value)) : Int :=
  match member? name members with
  | some (.number (.integer n)) => n
  | _ => 0

/-- A member whose value is a text. -/
def textMember? (member : String × Value) : Option (String × String) :=
  match member with
  | (name, .string s) => some (name, s)
  | _ => none

/-- The path without its last component. -/
def parentSteps (path : String) : List Path.Component := (Path.components path).dropLast

/-- Puts a file of a snapshot in its place; directories on the way are made. -/
def putFile (fs : FileSystem) (member : String × Value) : FileSystem :=
  let fs := (FileSystem.createSteps (parentSteps member.1) fs).2
  match member.2 with
  | .string content => (FileSystem.writeFile member.1 content.toUTF8 fs).2
  | .object ms => (FileSystem.createLink member.1 (text "link" ms) fs).2
  | _ => (FileSystem.createDirectories member.1 fs).2

/-- The snapshot that members describe. -/
def ofMembers (members : List (String × Value)) : Snapshot :=
  let empty : FileSystem := ⟨[], [], integer "time" members⟩
  let fs := (object "files" members).foldl putFile empty
  let fs := (FileSystem.createDirectories (text "directory" members) fs).2
  let workingDir := match fs.canonical (text "directory" members) with
    | .ok place => place
    | .error _ => []
  ⟨⟨(object "variables" members).filterMap textMember?, none⟩,
    { fs with workingDir := workingDir }⟩

/-- The snapshot that a text describes. -/
def ofString? (s : String) : Option Snapshot :=
  match (Tree.ofString? s).bind (Tree.value? nestingLimit) with
  | some (.object members) => some (ofMembers members)
  | _ => none

end Snapshot

end Repertoire.CommandLine
