import Repertoire.FileSystem.Read

/-!
# Writing to a file system

Operations that add, change or remove entries. Each of them returns its outcome together with
the file system afterwards, since an operation that fails may already have changed something.
-/

namespace Repertoire.FileSystem

open Repertoire.Path

/-- An operation on a file system that may fail, and keeps what it changed before it did. -/
abbrev FileM := ExceptT FileFault (StateM FileSystem)

/-- What stands at the end of steps is a directory. -/
def isDirectoryAt (fs : FileSystem) (path : List Component) : Bool :=
  match fs.resolveSteps true path with
  | .ok place =>
    match fs.entry? place with
    | some .directory => true
    | _ => false
  | .error _ => false

/-- Creates one directory, whose parent must be there. -/
def createDirectory (fs : FileSystem) (path : List Component) :
    Except FileFault Unit × FileSystem :=
  match fs.resolveSteps false path with
  | .error fault => (.error fault, fs)
  | .ok place =>
    match fs.entry? place with
    | some _ => (.error .alreadyThere, fs)
    | none => (.ok (), fs.put place .directory)

/-- Creates a directory and those on the way to it, given its steps in reverse. A directory that
is there already is fine. -/
def createReversed (fs : FileSystem) : List Component → Except FileFault Unit × FileSystem
  | [] => (.ok (), fs)
  | c :: rest =>
    let path := (c :: rest).reverse
    match fs.createDirectory path with
    | (.ok (), fs) => (.ok (), fs)
    | (.error .missing, _) =>
      match fs.createReversed rest with
      | (.error fault, fs) => (.error fault, fs)
      | (.ok (), fs) =>
        match fs.createDirectory path with
        | (.ok (), fs) => (.ok (), fs)
        | (.error fault, fs) => if fs.isDirectoryAt path then (.ok (), fs) else (.error fault, fs)
    | (.error fault, _) => if fs.isDirectoryAt path then (.ok (), fs) else (.error fault, fs)

/-- Creates a directory and those on the way to it, given its steps. -/
def createSteps (path : List Component) : FileM Unit :=
  fun fs => fs.createReversed path.reverse

/-- Creates a directory and those on the way to it. -/
def createDirectories (path : String) : FileM Unit := fun fs =>
  if path.toList.contains '\x00' then (.error .badName, fs)
  else fs.createReversed (components path).reverse

/-- Writes a file, a link at the end of its path followed. -/
def writeFile (path : String) (content : ByteArray) : FileM Unit := fun fs =>
  match fs.resolve true path with
  | .error fault => (.error fault, fs)
  | .ok place =>
    match fs.entry? place with
    | some .directory => (.error .isDirectory, fs)
    | _ => (.ok (), fs.put place (.file content fs.now))

/-- Writes a file at a place as a new one, in the place of a file that stands there. -/
def replaceFile (place : Place) (content : ByteArray) (modified : Int) : FileM Unit := fun fs =>
  match fs.entry? place with
  | some .directory => (.error .isDirectory, fs)
  | some _ => (.ok (), (fs.erase place).put place (.file content modified))
  | none => (.ok (), fs.put place (.file content modified))

/-- Creates a link. -/
def createLink (path target : String) : FileM Unit := fun fs =>
  match fs.resolve false path with
  | .error fault => (.error fault, fs)
  | .ok place =>
    match fs.entry? place with
    | some _ => (.error .alreadyThere, fs)
    | none => (.ok (), fs.put place (.link target))

/-- Removes what stands at the end of a path with everything below it. -/
def remove (path : String) : FileM Unit := fun fs =>
  match fs.resolve false path with
  | .error fault => (.error fault, fs)
  | .ok place =>
    match fs.entry? place with
    | some _ => (.ok (), fs.erase place)
    | none => (.error .missing, fs)

/-- Sets the time at which a file was written. -/
def setModified (path : String) (time : Int) : FileM Unit := fun fs =>
  match fs.lookUp? path with
  | .error fault => (.error fault, fs)
  | .ok (place, .file content _) => (.ok (), fs.put place (.file content time))
  | .ok _ => (.ok (), fs)

end Repertoire.FileSystem
