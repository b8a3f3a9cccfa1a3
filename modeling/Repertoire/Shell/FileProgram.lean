import Repertoire.FileSystem.Write
import Repertoire.Shell.Utility

/-!
# Programs for files

Programs that list, create and remove files and directories. Each of them goes through its
operands in order, and goes on behind one that fails.
-/

namespace Repertoire.Shell.FileProgram

open Repertoire.Text

/-- The letters of the options in front, and the operands. -/
def cutOptions : List String → List Char × List String
  | [] => ([], [])
  | "--" :: rest => ([], rest)
  | arg :: rest =>
    match arg.toList with
    | '-' :: c :: cs =>
      let (letters, operands) := cutOptions rest
      (c :: cs ++ letters, operands)
    | _ => ([], arg :: rest)

/-- The words for a fault. -/
def faultWords : FileFault → String
  | .isDirectory => "Is a directory"
  | .notDirectory => "Not a directory"
  | .alreadyThere => "File exists"
  | .nameTooLong => "File name too long"
  | .tooManyLinks => "Too many levels of symbolic links"
  | _ => "No such file or directory"

/-! ### Listing -/

/-- The names that a directory shows, one on a line. -/
def listing (fs : FileSystem) (all : Bool) (path : String) : String :=
  let names := match fs.list path with
    | .ok names => names
    | .error _ => []
  let shown := if all then "." :: ".." :: names else names.filter fun n => !n.startsWith "."
  String.join ((shown.mergeSort fun a b => decide (a ≤ b)).map (· ++ "\n"))

/-- Lists files, and what is in directories. -/
def ls (fs : FileSystem) (args : List String) : Printed :=
  let (letters, operands) := cutOptions args
  let paths := if operands.isEmpty then ["."] else operands.mergeSort fun a b => decide (a ≤ b)
  let missing := paths.filter fun p => !fs.holds p
  let (directories, files) := (paths.filter fs.holds).partition fs.isDirectory
  let block (path : String) : String :=
    (if paths.length ≤ 1 then "" else path ++ ":\n") ++ listing fs (letters.contains 'a') path
  let blocks := joinWith "\n" (directories.map block)
  let apart := if files.isEmpty || directories.isEmpty then "" else "\n"
  ⟨.ofText (String.join (files.map (· ++ "\n")) ++ apart ++ blocks),
    missing.map fun p => "ls: cannot access '" ++ p ++ "': No such file or directory",
    if missing.isEmpty then 0 else 2⟩

/-! ### Changing -/

/-- Goes through operands with an operation that may complain. -/
def forEach (change : String → FileSystem → Option String × FileSystem) (operands : List String)
    (fs : FileSystem) : Printed × FileSystem :=
  operands.foldl (fun (done, fs) path =>
    match change path fs with
    | (none, fs) => (done, fs)
    | (some words, fs) => (⟨.empty, done.complaints ++ [words], 1⟩, fs))
    (.silent 0, fs)

/-- Creates directories. -/
def mkdir (args : List String) (fs : FileSystem) : Printed × FileSystem :=
  let (letters, operands) := cutOptions args
  if operands.isEmpty then (.misused "mkdir" "missing operand", fs)
  else
    forEach (fun path fs =>
      match if letters.contains 'p' then FileSystem.createDirectories path fs
        else fs.createDirectory (Path.components path) with
      | (.ok (), fs) => (none, fs)
      | (.error fault, fs) =>
        (some ("mkdir: cannot create directory '" ++ path ++ "': " ++ faultWords fault), fs))
      operands fs

/-- Removes files, and directories where that is asked for. -/
def rm (args : List String) (fs : FileSystem) : Printed × FileSystem :=
  let (letters, operands) := cutOptions args
  let deep := letters.contains 'r' || letters.contains 'R'
  let force := letters.contains 'f'
  if operands.isEmpty then
    (if force then .silent 0 else .misused "rm" "missing operand", fs)
  else
    forEach (fun path fs =>
      let refuse (fault : FileFault) : Option String :=
        some ("rm: cannot remove '" ++ path ++ "': " ++ faultWords fault)
      if fs.isDirectory path && !deep then (refuse .isDirectory, fs)
      else
        match FileSystem.remove path fs with
        | (.ok (), fs) => (none, fs)
        | (.error .missing, fs) => (if force then none else refuse .missing, fs)
        | (.error fault, fs) => (refuse fault, fs))
      operands fs

/-- Creates files, and marks those that are there as written now. -/
def touch (args : List String) (fs : FileSystem) : Printed × FileSystem :=
  let (_, operands) := cutOptions args
  if operands.isEmpty then (.misused "touch" "missing file operand", fs)
  else
    forEach (fun path fs =>
      match if fs.holds path then FileSystem.setModified path fs.now fs
        else FileSystem.writeFile path ByteArray.empty fs with
      | (.ok (), fs) => (none, fs)
      | (.error fault, fs) =>
        (some ("touch: cannot touch '" ++ path ++ "': " ++ faultWords fault), fs))
      operands fs

/-- Runs a program for files, if there is one of the name. -/
def run? (name : String) (args : List String) (fs : FileSystem) :
    Option (Printed × FileSystem) :=
  match name with
  | "ls" => some (ls fs args, fs)
  | "mkdir" => some (mkdir args fs)
  | "rm" => some (rm args fs)
  | "touch" => some (touch args fs)
  | _ => none

end Repertoire.Shell.FileProgram
