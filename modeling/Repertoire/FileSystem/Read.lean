import Repertoire.FileSystem.Resolve
import Repertoire.Text.Utf8

/-!
# Reading from a file system

Questions about what a path leads to, and the contents of files and directories. None of these
changes anything. A question that cannot be answered because a path leads nowhere counts as
answered with no.
-/

namespace Repertoire.FileSystem

/-- What a path leads to, a link at its end followed. -/
def lookUp? (fs : FileSystem) (path : String) : Except FileFault (Place × Entry) := do
  let place ← fs.resolve true path
  match fs.entry? place with
  | some e => .ok (place, e)
  | none => .error .missing

/-- Something stands at the end of the path. -/
def holds (fs : FileSystem) (path : String) : Bool :=
  match fs.lookUp? path with
  | .ok _ => true
  | .error _ => false

/-- A file stands at the end of the path. -/
def isFile (fs : FileSystem) (path : String) : Bool :=
  match fs.lookUp? path with
  | .ok (_, .file ..) => true
  | _ => false

/-- A directory stands at the end of the path. -/
def isDirectory (fs : FileSystem) (path : String) : Bool :=
  match fs.lookUp? path with
  | .ok (_, .directory) => true
  | _ => false

/-- The bytes of a file. -/
def readBytes (fs : FileSystem) (path : String) : Except FileFault ByteArray :=
  match fs.lookUp? path with
  | .ok (_, .file content _) => .ok content
  | .ok (_, .directory) => .error .isDirectory
  | .ok (_, .link _) => .error .tooManyLinks
  | .error fault => .error fault

/-- The text of a file. -/
def readText (fs : FileSystem) (path : String) : Except FileFault String :=
  match fs.readBytes path with
  | .ok bytes =>
    match Text.strict? bytes with
    | some text => .ok text
    | none => .error .notText
  | .error fault => .error fault

/-- The time at which what a path leads to was written. A directory has no time of its own and
counts as written now. -/
def modified? (fs : FileSystem) (path : String) : Option Int :=
  match fs.lookUp? path with
  | .ok (_, .file _ time) => some time
  | .ok (_, .directory) => some fs.now
  | _ => none

/-- The names in a directory, in no particular order. -/
def list (fs : FileSystem) (path : String) : Except FileFault (List String) :=
  match fs.lookUp? path with
  | .ok (place, .directory) => .ok (fs.names place)
  | .ok _ => .error .notDirectory
  | .error fault => .error fault

/-- The place of a directory or file that a path leads to. -/
def canonical (fs : FileSystem) (path : String) : Except FileFault Place :=
  match fs.lookUp? path with
  | .ok (place, _) => .ok place
  | .error fault => .error fault

end Repertoire.FileSystem
