import Repertoire.Catalog.Fetcher
import Repertoire.Text.Cut

/-!
# Fetching a catalog as a repository

A repository is a directory with a directory for its own data, in which a file stands for the
repository itself and a tree holds the committed files. A local copy is brought in step with the
last commit of another repository: files that were committed before and are not any more are
removed, and the committed ones replace whatever stands in their places. Files that were never
committed stay.
-/

namespace Repertoire.Repository

/-- The directory for the data of a repository. -/
def dataName : String := ".git"

/-- The file that stands for the repository. -/
def headName : String := "HEAD"

/-- The directory that holds the committed files. -/
def treeName : String := "tree"

/-- Committed files and links, under the names that lead to them. -/
abbrev Commit := List (Place × Entry)

/-- The directory of a place holds a repository. -/
def isRepository (fs : FileSystem) (dir : Place) : Bool :=
  match fs.entry? (dir ++ [dataName, headName]) with
  | some (.file ..) => true
  | _ => false

/-- The entry can be committed: it is no directory. -/
def isCommitted : Place × Entry → Bool
  | (_, .directory) => false
  | _ => true

/-- The last commit of a repository, if it has any. -/
def lastCommit? (fs : FileSystem) (dir : Place) : Option Commit :=
  if isRepository fs dir then
    match fs.entry? (dir ++ [dataName, treeName]) with
    | some .directory => some ((fs.below (dir ++ [dataName, treeName])).filter isCommitted)
    | _ => none
  else none

/-- Puts directories in all places on the way from a place; whatever else stands there gives
way. -/
def clearWay (fs : FileSystem) (dir : Place) : List String → FileSystem
  | [] => fs
  | name :: names =>
    let next := dir ++ [name]
    match fs.entry? next with
    | some .directory => clearWay fs next names
    | _ => clearWay ((fs.erase next).put next .directory) next names

/-- Puts an entry below a directory in the place of whatever stands there. -/
def putBelow (dir : Place) (fs : FileSystem) (item : Place × Entry) : FileSystem :=
  let fs := clearWay fs dir item.1.dropLast
  (fs.erase (dir ++ item.1)).put (dir ++ item.1) item.2

/-- Removes directories that became empty, from a place upwards to a directory; the first
argument bounds the number of steps. -/
def prune (dir : Place) : Nat → List String → FileSystem → FileSystem
  | 0, _, fs => fs
  | n + 1, names, fs =>
    if names.isEmpty || !(fs.names (dir ++ names)).isEmpty then fs
    else prune dir n names.dropLast (fs.erase (dir ++ names))

/-- Removes an entry below a directory, and the directories that became empty by that. -/
def removeBelow (dir : Place) (fs : FileSystem) (item : Place × Entry) : FileSystem :=
  match fs.entry? (dir ++ item.1) with
  | none => fs
  | some .directory => fs
  | some _ => prune dir item.1.length item.1.dropLast (fs.erase (dir ++ item.1))

/-- Records a commit as the last one of a repository. -/
def record (dir : Place) (commit : Commit) (fs : FileSystem) : FileSystem :=
  let tree := dir ++ [dataName, treeName]
  commit.foldl (putBelow tree) ((fs.erase tree).put tree .directory)

/-- Makes the files of a repository those of a commit, and records it. -/
def reset (dir : Place) (commit : Commit) (fs : FileSystem) : FileSystem :=
  let before := (lastCommit? fs dir).getD []
  let gone := before.filter fun (names, _) => !commit.any fun (kept, _) => kept = names
  let fs := gone.foldl (removeBelow dir) fs
  record dir commit (commit.foldl (putBelow dir) fs)

/-- Makes a directory a repository without commits. -/
def create (dir : Place) (fs : FileSystem) : FileSystem :=
  let fs := clearWay fs dir [dataName]
  fs.put (dir ++ [dataName, headName]) (.file ByteArray.empty fs.now)

/-- Commits all files of a directory, which becomes a repository if it is none. -/
def commitAll (dir : Place) (fs : FileSystem) : FileSystem :=
  let fs := if isRepository fs dir then fs else create dir fs
  let commit := (fs.below dir).filter fun item =>
    isCommitted item && item.1.head? ≠ some dataName
  record dir commit fs

/-- The mark in front of an address that is a path. -/
def fileScheme : List Char := "file://".toList

/-- The path that an address stands for. -/
def path (url : String) : String :=
  String.ofList ((Text.after? fileScheme url.toList).getD url.toList)

/-- The last commit of the repository at an address. -/
def remoteCommit? (fs : FileSystem) (url : String) : Option Commit :=
  match fs.canonical (path url) with
  | .ok dir => lastCommit? fs dir
  | .error _ => none

/-- The error of a fetch that fails. -/
def fetchFailed (cause : String) : Error := .message ("git fetch failed: " ++ cause)

/-- Brings a repository in step with the one at an address. -/
def update (url dir : String) (fs : FileSystem) : Fetched :=
  match fs.canonical dir with
  | .error _ => (.error (fetchFailed "the directory is missing"), fs)
  | .ok place =>
    if !isRepository fs place then (.error (fetchFailed "the directory is no repository"), fs)
    else
      match remoteCommit? fs url with
      | none => (.error (fetchFailed "the address names no repository with a commit"), fs)
      | some commit => (.ok (), reset place commit fs)

/-- The directory holds the data of a repository. -/
def isCheckout (fs : FileSystem) (dir : String) : Bool := fs.holds (Path.join dir dataName)

/-- Makes a directory a repository, unless it is one, and brings it in step. -/
def clone (url dir : String) (fs : FileSystem) : Fetched :=
  match FileSystem.createDirectories dir fs with
  | (.error fault, fs) => (.error (.io fault), fs)
  | (.ok (), fs) =>
    if isCheckout fs dir then update url dir fs
    else
      match fs.canonical dir with
      | .error fault => (.error (.io fault), fs)
      | .ok place => update url dir (create place fs)

/-- The fetcher that copies repositories. -/
def fetcher : Fetcher := ⟨clone, update, isCheckout⟩

end Repertoire.Repository
