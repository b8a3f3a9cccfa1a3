import Repertoire.Catalog.Fetcher

/-!
# Unpacking archives

An archive is a sequence of entries, which may end before it is complete. It is unpacked over
what a directory already holds. The first component of every path is dropped, as archives of
repositories put everything below one directory. Links are skipped, and so are entries that have
no other component. An entry that would leave the directory ends the unpacking, and what was
unpacked before stays.
-/

namespace Repertoire

open Repertoire.Path (Component components)

/-- The kinds of entries. -/
inductive ArchiveEntryKind where
  | file
  | directory
  | symbolicLink
  | hardLink
deriving DecidableEq, Repr

/-- An entry of an archive. -/
structure ArchiveEntry where
  path : String
  kind : ArchiveEntryKind
  content : ByteArray
  modified : Int

/-- How an archive ends: complete, in a place where an entry should start, or within the content
of an entry, of which the beginning is there. -/
inductive ArchiveEnding where
  | complete
  | broken
  | brokenWithin (entry : ArchiveEntry)

/-- The entries of an archive, and its ending. -/
structure Archive where
  entries : List ArchiveEntry
  ending : ArchiveEnding

namespace ArchiveEntry

/-- The entry is a link. -/
def isLink (e : ArchiveEntry) : Bool :=
  match e.kind with
  | .symbolicLink => true
  | .hardLink => true
  | _ => false

/-- The entry stands for a directory: by its kind, or by a slash at the end of its path. -/
def isDirectory (e : ArchiveEntry) : Bool :=
  match e.kind with
  | .directory => true
  | _ => e.path.toList.getLast? = some '/'

end ArchiveEntry

namespace Archive

/-- The error for a path that would leave the directory. -/
def unsafePath (path : String) : Error :=
  .message ("archive contains unsafe path component: " ++ path)

/-- A component does not lead out of the directory that the path is taken from. -/
def isInside : Component → Bool
  | .name _ => true
  | .here => true
  | .parent => false
  | .root => false

/-- The path of an entry without its first component. There is none for an entry that is to be left
out, as nothing else is in its path. -/
def sanitize (path : String) : Except Error (Option String) :=
  let rest := Path.ofComponents ((components path).drop 1)
  if rest.isEmpty then .ok none
  else if (components rest).all isInside then .ok (some rest)
  else .error (unsafePath path)

/-- The name that a component stands for. -/
def name? : Component → Option String
  | .name n => some n
  | _ => none

/-- The names that lead from the directory to an entry. There are none for an entry that is to be
left out. -/
def target (path : String) : Except Error (List String) :=
  match sanitize path with
  | .error err => .error err
  | .ok none => .ok []
  | .ok (some rest) => .ok ((components rest).filterMap name?)

/-- The error for an entry below a link that leads out of the directory. -/
def escaped : Error := .message "archive entry escaped the catalog directory"

/-- The error for an entry in the place of a link. -/
def ontoLink : Error := .message "archive entry resolves to a symlink"

/-- Makes sure that the directories on the way to an entry are there, and that they lie within
the directory that is unpacked to. -/
def prepare (top : Place) (names : List String) (fs : FileSystem) : Fetched :=
  let parent := FileSystem.placeSteps (top ++ names.dropLast)
  match FileSystem.createSteps parent fs with
  | (.error fault, fs) => (.error (.io fault), fs)
  | (.ok (), fs) =>
    match fs.resolveSteps true parent with
    | .error fault => (.error (.io fault), fs)
    | .ok place => (if FileSystem.isWithin top place then .ok () else .error escaped, fs)

/-- Puts an entry in its place, which is not followed if it is a link. -/
def place (top : Place) (names : List String) (e : ArchiveEntry) (fs : FileSystem) : Fetched :=
  let path := FileSystem.placeSteps (top ++ names)
  match fs.resolveSteps false path with
  | .error fault => (.error (.io fault), fs)
  | .ok there =>
    match fs.entry? there with
    | some (.link _) => (.error ontoLink, fs)
    | _ =>
      if e.isDirectory then Fetched.ofFiles (FileSystem.createSteps path fs)
      else Fetched.ofFiles (FileSystem.replaceFile there e.content e.modified fs)

/-- Unpacks an entry. -/
def unpackEntry (top : Place) (e : ArchiveEntry) (fs : FileSystem) : Fetched :=
  if e.isLink then (.ok (), fs)
  else
    match target e.path with
    | .error err => (.error err, fs)
    | .ok [] => (.ok (), fs)
    | .ok (name :: names) =>
      match prepare top (name :: names) fs with
      | (.error err, fs) => (.error err, fs)
      | (.ok (), fs) => place top (name :: names) e fs

/-- Unpacks entries in order, up to the first that fails. -/
def unpackEntries (top : Place) : List ArchiveEntry → FileSystem → Fetched
  | [], fs => (.ok (), fs)
  | e :: rest, fs =>
    match unpackEntry top e fs with
    | (.error err, fs) => (.error err, fs)
    | (.ok (), fs) => unpackEntries top rest fs

/-- Unpacks what an incomplete archive still has of an entry, and fails. -/
def unpackRest (top : Place) (ending : ArchiveEnding) (fs : FileSystem) : Fetched :=
  match ending with
  | .complete => (.ok (), fs)
  | .broken => (.error (.io .cutShort), fs)
  | .brokenWithin e =>
    match unpackEntry top e fs with
    | (.error err, fs) => (.error err, fs)
    | (.ok (), fs) => (.error (.io .cutShort), fs)

/-- Unpacks an archive into a directory. -/
def unpack (a : Archive) (dir : String) (fs : FileSystem) : Fetched :=
  match fs.canonical dir with
  | .error fault => (.error (.io fault), fs)
  | .ok top =>
    match unpackEntries top a.entries fs with
    | (.error err, fs) => (.error err, fs)
    | (.ok (), fs) => unpackRest top a.ending fs

end Archive

end Repertoire
