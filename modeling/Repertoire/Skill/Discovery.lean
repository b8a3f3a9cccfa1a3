import Repertoire.Registry
import Repertoire.Settings.Basic

/-!
# Discovery

Skills are found in directories. What counts as one is a file with one of three extensions, or a
directory that holds a manifest file. The entries of a directory are visited in the order of
their names, whatever order the directory lists them in. An entry that cannot be loaded, or
cannot be registered, is reported and does not stop the others. Of two directories the earlier
one wins when both have a skill of one name.
-/

namespace Repertoire

/-- Where a directory with skills comes from. -/
inductive SkillSource where
  | project
  | workspace
  | personal
  | configured
deriving DecidableEq, Repr

/-- A directory in which skills are looked for. -/
structure SearchPath where
  path : String
  source : SkillSource
deriving DecidableEq, Repr

/-- The skills that were registered, and the paths that gave none with the reasons. -/
structure Scan where
  skills : List Skill
  failures : List (String × Error)
deriving DecidableEq, Repr

namespace Scan

/-- Nothing was found. -/
def empty : Scan := ⟨[], []⟩

/-- What two scans found. -/
def append (a b : Scan) : Scan := ⟨a.skills ++ b.skills, a.failures ++ b.failures⟩

end Scan

namespace Discovery

/-- The extensions of files with skills. -/
def extensions : List String := ["toml", "md", "json"]

/-- A skill can be loaded from the path. -/
def isCandidate (fs : FileSystem) (path : String) : Bool :=
  if fs.isDirectory path then fs.isFile (Path.join path Skill.manifestFile)
  else
    match Path.extension? path with
    | some ext => fs.isFile path && extensions.contains ext
    | none => false

/-- The order of names: by their characters. -/
def nameOrder (a b : String) : Bool := decide (a ≤ b)

/-- The paths in a directory, given the names that it lists, from which skills can be loaded. -/
def candidates (fs : FileSystem) (dir : String) (names : List String) : List String :=
  ((names.mergeSort nameOrder).map (Path.join dir)).filter (isCandidate fs)

/-- Loads each path: the skills, and the paths that gave none with the reasons. -/
def loadAll (fs : FileSystem) : List String → List Skill × List (String × Error)
  | [] => ([], [])
  | path :: rest =>
    let (skills, failures) := loadAll fs rest
    match Skill.load fs path with
    | .ok s => (s :: skills, failures)
    | .error e => (skills, (path, e) :: failures)

/-- A skill that was not registered, under the path that it came from. -/
def rejection (dir : String) (rejected : Skill × Error) : String × Error :=
  (rejected.1.manifest.location.getD dir, rejected.2)

/-- Loads and registers the skills of a directory that lists the given names. -/
def scanNames (fs : FileSystem) (r : Registry) (dir : String) (names : List String) :
    Except Error Scan × Registry :=
  let (loaded, failures) := loadAll fs (candidates fs dir names)
  match r.registerBatch loaded with
  | (.error e, r) => (.error e, r)
  | (.ok outcome, r) =>
    (.ok ⟨outcome.registered, failures ++ outcome.rejected.map (rejection dir)⟩, r)

/-- Loads and registers the skills of a directory. -/
def scan (fs : FileSystem) (r : Registry) (dir : String) : Except Error Scan × Registry :=
  if !fs.isDirectory dir then (.error (.fileNotFound dir), r)
  else
    match fs.list dir with
    | .error fault => (.error (.readFailed dir fault), r)
    | .ok names => scanNames fs r dir names

/-- Loads and registers the skills of several directories in order. Those that are missing are
left out. -/
def scanAll (fs : FileSystem) (r : Registry) : List String → Except Error Scan × Registry
  | [] => (.ok .empty, r)
  | dir :: rest =>
    if !fs.isDirectory dir then scanAll fs r rest
    else
      match scan fs r dir with
      | (.error e, r) => (.error e, r)
      | (.ok found, r) =>
        match scanAll fs r rest with
        | (.error e, r) => (.error e, r)
        | (.ok more, r) => (.ok (found.append more), r)

/-- The directory for skills below another directory. -/
def skillsDir : String := "skills"

/-- The directories in which skills are looked for, in order of priority: that of the project,
that of the workspace, the personal one, and the configured ones. -/
def searchPaths (settings : SkillsSettings) (workingDir dataDir : String) : List SearchPath :=
  [⟨Path.join workingDir ".skillhost/skills", .project⟩,
    ⟨Path.join (Path.join workingDir settings.workspaceDir) skillsDir, .workspace⟩,
    ⟨Path.join dataDir skillsDir, .personal⟩] ++
    settings.searchPaths.map fun path => ⟨path, .configured⟩

end Discovery

end Repertoire
