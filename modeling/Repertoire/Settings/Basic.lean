/-!
# Settings

What can be set in a configuration file, with the values that hold where nothing is set. There
are three sections: where skills are looked for, how the remote catalog is fetched, and the
limits under which shell tools run.
-/

namespace Repertoire

/-- The way in which the remote catalog is fetched. -/
inductive FetcherKind where
  | git
  | tarball
deriving DecidableEq, Repr

/-- Where skills are looked for. -/
structure SkillsSettings where
  enabled : Bool
  searchPaths : List String
  workspaceDir : String
deriving DecidableEq, Repr

/-- How the remote catalog is fetched. -/
structure CatalogSettings where
  enabled : Bool
  repoUrl : String
  dir : Option String
  fetcher : FetcherKind
deriving DecidableEq, Repr

/-- The limits under which shell tools run. -/
structure ExecSettings where
  timeoutSecs : Option Nat
  maxOutputBytes : Nat
  workingDir : Option String
deriving DecidableEq, Repr

/-- All settings. -/
structure Settings where
  skills : SkillsSettings
  catalog : CatalogSettings
  exec : ExecSettings
deriving DecidableEq, Repr

/-- The name of a fetcher. -/
def FetcherKind.name : FetcherKind → String
  | .git => "git"
  | .tarball => "tarball"

/-- The fetcher with the name. -/
def FetcherKind.ofName? (name : String) : Option FetcherKind :=
  if name = "git" then some .git else if name = "tarball" then some .tarball else none

namespace Settings

/-- Where skills are looked for by default. -/
def defaultSkills : SkillsSettings := ⟨true, [], "workspace"⟩

/-- The catalog that is fetched by default, which must be enabled first. -/
def defaultCatalog : CatalogSettings :=
  ⟨false, "https://github.com/besoeasy/open-skills", none, .git⟩

/-- The limits that hold by default. -/
def defaultExec : ExecSettings := ⟨none, 200 * 1024, none⟩

/-- The settings that hold where nothing is set. -/
def default : Settings := ⟨defaultSkills, defaultCatalog, defaultExec⟩

end Settings

end Repertoire
