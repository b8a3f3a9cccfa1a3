import Repertoire.FileSystem.Read
import Repertoire.Settings.Format

/-!
# Where settings and data are kept

The directories of a user for configuration and data follow the XDG base directories, unless
they are given explicitly. A configuration file is looked for in the working directory first and
in the user's directory second, under four names in order. One that is found but cannot be read
gives the default settings, and no further file is tried.
-/

namespace Repertoire

/-- The directories that were given explicitly. -/
structure GivenDirectories where
  config : Option String
  data : Option String
deriving DecidableEq, Repr

namespace Location

/-- The directory of this program below those for all programs. -/
def ownDir : String := "skillhost"

/-- The data directory of a user without a home. -/
def homelessDataDir : String := ".skillhost"

/-- The names of configuration files in the order in which they are tried. -/
def fileNames : List String :=
  ["skillhost.toml", "skillhost.yaml", "skillhost.yml", "skillhost.json"]

/-- The variable that names the local copy of the catalog. -/
def catalogVariable : String := "SKILLHOST_OPEN_SKILLS_DIR"

/-- A base directory: the absolute one that a variable names, or else a directory below the
home. -/
def baseDir? (env : Environment) (variableName belowHome : String) : Option String :=
  env.home?.map fun home =>
    ((env.get? variableName).filter Path.isAbsolute).getD (Path.join home belowHome)

/-- The directory for configuration. -/
def configDir? (env : Environment) (given : GivenDirectories) : Option String :=
  given.config.or
    ((baseDir? env "XDG_CONFIG_HOME" ".config").map fun dir => Path.join dir ownDir)

/-- The directory for data. -/
def dataDir (env : Environment) (given : GivenDirectories) : String :=
  (given.data.or
    ((baseDir? env "XDG_DATA_HOME" ".local/share").map fun dir => Path.join dir ownDir)).getD
      homelessDataDir

/-- The local copy of the catalog: the directory that the environment names, or else the settings
name, or else one below the data directory. Empty names do not count. -/
def catalogDir (env : Environment) (given : GivenDirectories) (settings : Settings) : String :=
  ((env.nonEmpty? catalogVariable).or (settings.catalog.dir.filter fun dir => !dir.isEmpty)).getD
    (Path.join (dataDir env given) "open-skills")

/-- The paths at which a configuration file may stand, in order. -/
def configPaths (env : Environment) (given : GivenDirectories) : List String :=
  match configDir? env given with
  | none => fileNames
  | some dir => fileNames ++ fileNames.map (Path.join dir)

end Location

namespace Settings

/-- The settings in a configuration file. -/
def load (fs : FileSystem) (env : Environment) (path : String) : Except SettingsError Settings :=
  match fs.readText path with
  | .error fault => .error (.unreadable path fault)
  | .ok text => ofFileText env path text

/-- The settings in the first configuration file that is there, or the default ones. -/
def discover (fs : FileSystem) (env : Environment) (given : GivenDirectories) : Settings :=
  match (Location.configPaths env given).find? fs.holds with
  | none => default
  | some path =>
    match load fs env path with
    | .ok settings => settings
    | .error _ => default

end Settings

end Repertoire
