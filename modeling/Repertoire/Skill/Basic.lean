import Repertoire.Manifest.Defect
import Repertoire.Manifest.Format
import Repertoire.Skill.Extension
import Repertoire.FileSystem.Read

/-!
# Skills

A skill is a manifest that was loaded, or was made in memory. A skill can be unloaded, which
forgets its manifest, and reloaded from the file it came from. A reload unloads first, so one
that fails leaves the skill unloaded. What hosts attached to a skill survives all of this.
-/

namespace Repertoire

/-- A manifest with the state of its loading. The load time is in nanoseconds. -/
structure Skill where
  manifest : Manifest
  loaded : Bool
  loadTime : Option Int
  extensions : Extensions
deriving DecidableEq, Repr

namespace Skill

/-- The file that makes a directory a skill. -/
def manifestFile : String := "SKILL.toml"

/-- The name of a skill. -/
def name (s : Skill) : String := s.manifest.name

/-- A skill that was just made of a manifest. -/
def ofManifest (time : Int) (m : Manifest) : Skill := ⟨m, true, some time, .empty⟩

/-- The manifest file that a path to a file or a directory stands for. -/
def resolve (fs : FileSystem) (path : String) : Except Error String :=
  if !fs.holds path then .error (.fileNotFound path)
  else if fs.isDirectory path then
    let file := Path.join path manifestFile
    if fs.isFile file then .ok file else .error (.fileNotFound file)
  else .ok path

/-- The skill in a manifest file. -/
def loadFile (fs : FileSystem) (file : String) : Except Error Skill :=
  match fs.readText file with
  | .error fault => .error (.readFailed file fault)
  | .ok content =>
    match Manifest.parse file content with
    | .error e => .error e
    | .ok m => .ok (ofManifest fs.now { m with location := some file })

/-- The skill that a path to a file or a directory stands for. -/
def load (fs : FileSystem) (path : String) : Except Error Skill :=
  match resolve fs path with
  | .error e => .error e
  | .ok file => loadFile fs file

/-- The skill without its manifest. -/
def unload (s : Skill) : Skill := ⟨.empty, false, none, s.extensions⟩

/-- The error for what needs a loaded skill. -/
def notLoaded (s : Skill) : Error :=
  .invalidArgument ("skill '" ++ s.name ++ "' is not loaded")

/-- The error for a reload without a file to read. -/
def noLocation (s : Skill) : Error :=
  .invalidArgument ("skill '" ++ s.name ++ "' has no location to reload from")

/-- Loads the skill again from its file. -/
def reload (fs : FileSystem) (s : Skill) : Except Error Unit × Skill :=
  if !s.loaded then (.error s.notLoaded, s)
  else
    match s.manifest.location with
    | none => (.error s.noLocation, s)
    | some location =>
      match load fs location with
      | .error e => (.error e, s.unload)
      | .ok fresh => (.ok (), ⟨fresh.manifest, true, fresh.loadTime, s.extensions⟩)

/-- Accepts a skill whose manifest has no defect. -/
def validate (s : Skill) : Except Error Unit := s.manifest.validate

end Skill

end Repertoire
