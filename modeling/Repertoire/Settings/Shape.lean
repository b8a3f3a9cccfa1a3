import Repertoire.Json.Value
import Repertoire.Record
import Repertoire.Settings.Basic
import Repertoire.Toml.Document
import Repertoire.Yaml.Record

/-!
# Reading settings from a document

A shape says how the nodes of a document format are read as the few types of value that settings
have. Settings are read the same way from every format: missing fields have their defaults,
unknown ones are ignored, and a repeated field or a value of another type refuses the document.
-/

namespace Repertoire

/-- How the nodes of a document format are read. Records are told the names of their fields,
since some formats may list them by position. -/
structure Shape (α : Type) where
  members? : List String → α → Option (List (String × α))
  text? : α → Option String
  optionalText? : α → Option (Option String)
  texts? : α → Option (List String)
  bool? : α → Option Bool
  natural? : α → Option Nat
  optionalNatural? : α → Option (Option Nat)
  choice? : α → Option String

namespace Shape

/-- Natural numbers in settings fit sixty-four bits. -/
def naturalBound : Nat := Nat.pow 2 64

/-- An integer that is a natural number within the bound. -/
def naturalOf? (n : Int) : Option Nat :=
  if 0 ≤ n ∧ n.toNat < naturalBound then some n.toNat else none

/-- How TOML is read. A choice is a string, or a table of one member that is empty. -/
def toml : Shape Toml.Value where
  members? names
    | .table members => some members
    | .array items => some (Record.ofPositions names items)
    | .dateTime d => some [(Toml.Value.dateTimeKey, .string d.text)]
    | _ => none
  text?
    | .string s => some s
    | _ => none
  optionalText?
    | .string s => some (some s)
    | _ => none
  texts?
    | .array items => items.mapM fun
      | .string s => some s
      | _ => none
    | _ => none
  bool?
    | .bool b => some b
    | _ => none
  natural?
    | .integer n => naturalOf? n
    | _ => none
  optionalNatural?
    | .integer n => (naturalOf? n).map some
    | _ => none
  choice?
    | .string s => some s
    | .table [(name, .table [])] => some name
    | .table [(name, .array [])] => some name
    | _ => none

/-- A JSON string. -/
def jsonText? : Json.Tree → Option String
  | .string literal => Json.textOf? literal
  | _ => none

/-- A JSON number that is natural. -/
def jsonNatural? : Json.Tree → Option Nat
  | .number numeral =>
    match numeral.value? with
    | some (.integer n) => naturalOf? n
    | _ => none
  | _ => none

/-- How JSON is read. A choice is a string, or an object of one member that is null. -/
def json : Shape Json.Tree where
  members? names
    | .object members => members.mapM fun (literal, t) =>
      (Json.textOf? literal).map fun name => (name, t)
    | .array items =>
      if items.length ≤ names.length then some (Record.ofPositions names items) else none
    | _ => none
  text? := jsonText?
  optionalText?
    | .null => some none
    | t => (jsonText? t).map some
  texts?
    | .array items => items.mapM jsonText?
    | _ => none
  bool?
    | .bool b => some b
    | _ => none
  natural? := jsonNatural?
  optionalNatural?
    | .null => some none
    | t => (jsonNatural? t).map some
  choice?
    | .string literal => Json.textOf? literal
    | .object [(literal, .null)] => Json.textOf? literal
    | _ => none

/-- How the YAML of a document is read. -/
def yaml (d : Yaml.Document) : Shape Yaml.Node where
  members? _ := d.members?
  text? := d.text?
  optionalText? := d.optionalText?
  texts? := d.texts?
  bool? := d.bool?
  natural? := d.natural? naturalBound
  optionalNatural? := d.optionalNatural? naturalBound
  choice? := d.choice?

variable {α : Type} (shape : Shape α)

/-- The section on skills. -/
def skills? (node : α) : Option SkillsSettings := do
  let ms ← shape.members? ["enabled", "search_paths", "workspace_dir"] node
  let base := Settings.defaultSkills
  let enabled ← Record.get ["enabled"] base.enabled shape.bool? ms
  let searchPaths ← Record.get ["search_paths"] base.searchPaths shape.texts? ms
  let workspaceDir ← Record.get ["workspace_dir"] base.workspaceDir shape.text? ms
  return ⟨enabled, searchPaths, workspaceDir⟩

/-- The section on the catalog. -/
def catalog? (node : α) : Option CatalogSettings := do
  let ms ← shape.members? ["enabled", "repo_url", "dir", "fetcher"] node
  let base := Settings.defaultCatalog
  let enabled ← Record.get ["enabled"] base.enabled shape.bool? ms
  let repoUrl ← Record.get ["repo_url"] base.repoUrl shape.text? ms
  let dir ← Record.get ["dir"] base.dir shape.optionalText? ms
  let fetcher ← Record.get ["fetcher"] base.fetcher
    (fun node => (shape.choice? node).bind FetcherKind.ofName?) ms
  return ⟨enabled, repoUrl, dir, fetcher⟩

/-- The section on execution. -/
def exec? (node : α) : Option ExecSettings := do
  let ms ← shape.members? ["timeout_secs", "max_output_bytes", "working_dir"] node
  let base := Settings.defaultExec
  let timeoutSecs ← Record.get ["timeout_secs"] base.timeoutSecs shape.optionalNatural? ms
  let maxOutputBytes ← Record.get ["max_output_bytes"] base.maxOutputBytes shape.natural? ms
  let workingDir ← Record.get ["working_dir"] base.workingDir shape.optionalText? ms
  return ⟨timeoutSecs, maxOutputBytes, workingDir⟩

/-- The sections by name in the order of their fields. -/
def sectionNames : List String := ["skills", "catalog", "exec"]

/-- The settings that the members of a document hold. -/
def settingsOf? (ms : List (String × α)) : Option Settings := do
  let skills ← Record.get ["skills"] Settings.defaultSkills shape.skills? ms
  let catalog ← Record.get ["catalog"] Settings.defaultCatalog shape.catalog? ms
  let exec ← Record.get ["exec"] Settings.defaultExec shape.exec? ms
  return ⟨skills, catalog, exec⟩

end Shape

end Repertoire
