import Repertoire.Environment
import Repertoire.Error
import Repertoire.Path
import Repertoire.Settings.Placeholder
import Repertoire.Settings.Shape

/-!
# The format of a configuration file

The extension of the file decides in which format it is read; without an extension it is TOML.
Placeholders are replaced in the text of the file before it is read.
-/

namespace Repertoire

/-- Why a configuration file gives no settings. -/
inductive SettingsError where
  | unreadable (path : String) (fault : FileFault)
  | malformedToml
  | malformedYaml
  | malformedJson
  | unknownFormat (extension : String)
deriving DecidableEq, Repr

/-- The message of an error. -/
def SettingsError.text : SettingsError → String
  | .unreadable path fault => "failed to read " ++ path ++ ": " ++ fault.text
  | .malformedToml => "the configuration is malformed TOML"
  | .malformedYaml => "the configuration is malformed YAML"
  | .malformedJson => "the configuration is malformed JSON"
  | .unknownFormat ext => "unsupported config format: ." ++ ext

/-- A result with the error that stands for its absence. -/
def orError {α ε : Type} (e : ε) : Option α → Except ε α
  | some a => .ok a
  | none => .error e

namespace Settings

/-- Settings written in TOML. -/
def ofToml? (text : String) : Option Settings :=
  (Toml.ofString? text).bind Shape.toml.settingsOf?

/-- Settings written in JSON. -/
def ofJson? (text : String) : Option Settings := do
  let tree ← Json.Tree.ofString? text
  let ms ← Shape.json.members? Shape.sectionNames tree
  Shape.json.settingsOf? ms

/-- Settings written in YAML. -/
def ofYaml? (text : String) : Option Settings := do
  let d ← Yaml.Document.ofChars? text.toList
  let ms ← d.rootMembers?
  (Shape.yaml d).settingsOf? ms

/-- Settings written in the format that the path of their file asks for. -/
def parse (path text : String) : Except SettingsError Settings :=
  match (Path.extension? path).getD "toml" with
  | "toml" => orError .malformedToml (ofToml? text)
  | "yaml" => orError .malformedYaml (ofYaml? text)
  | "yml" => orError .malformedYaml (ofYaml? text)
  | "json" => orError .malformedJson (ofJson? text)
  | ext => .error (.unknownFormat ext)

/-- Settings from the text of a file, with placeholders replaced from the environment. -/
def ofFileText (env : Environment) (path text : String) : Except SettingsError Settings :=
  parse path (Placeholder.replace env.get? text)

end Settings

end Repertoire
