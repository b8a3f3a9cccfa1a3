import Repertoire.Error
import Repertoire.Manifest.Basic
import Repertoire.Record
import Repertoire.Toml.Document

/-!
# Manifests in TOML

A structured manifest has a table for the skill, which is required. Tools and prompts stand in
that table, at the top level, or in both places, where those of the top level come first. The
values of arguments may be of any type and are kept as text. A table may also be given as an
array of its fields in order.
-/

namespace Repertoire

open Repertoire.Toml

namespace StructuredManifest

/-- The table that must be present, as it is written. -/
def skillMarker : String := "[skill]"

/-- The fields of the table of a skill in order. -/
def skillFields : List String :=
  ["name", "description", "version", "author", "tags", "tools", "prompts"]

/-- The members of a record: those of a table, or the items of an array by position, of which
surplus ones are ignored. A date-time counts as a table with one member. -/
def members? (names : List String) : Value → Option (List (String × Value))
  | .table members => some members
  | .array items => some (Record.ofPositions names items)
  | .dateTime d => some [(Value.dateTimeKey, .string d.text)]
  | _ => none

/-- A string. -/
def text? : Value → Option String
  | .string s => some s
  | _ => none

/-- An array of strings. -/
def texts? : Value → Option (List String)
  | .array items => items.mapM text?
  | _ => none

/-- The text of an argument: a string as it is, any other value as it is written. A date-time is
written as the table it travels as. -/
def argText : Value → String
  | .string s => s
  | .dateTime d => (Value.table [(Value.dateTimeKey, .string d.text)]).text
  | v => v.text

/-- The arguments of a tool. -/
def args? : Value → Option (List ToolArg)
  | .table members =>
    members.mapM fun (key, v) => v.resolved?.map fun v => ⟨key, argText v⟩
  | .dateTime d => some [⟨Value.dateTimeKey, d.text⟩]
  | _ => none

/-- A tool. Its kind may go by two names. -/
def tool? (v : Value) : Option Tool := do
  let ms ← members? ["name", "description", "kind", "command", "args"] v
  let name ← Record.get ["name"] "" text? ms
  let description ← Record.get ["description"] "" text? ms
  let kind ← Record.get ["kind", "type"] "" text? ms
  let command ← Record.get ["command"] "" text? ms
  let args ← Record.get ["args"] [] args? ms
  return ⟨name, description, kind, command, args⟩

/-- An array of tools. -/
def tools? : Value → Option (List Tool)
  | .array items => items.mapM tool?
  | _ => none

/-- The contents of the table of a skill. -/
structure Skill where
  name : String
  description : String
  version : Option String
  author : Option String
  tags : List String
  tools : List Tool
  prompts : List String

/-- A record given by position lists all fields up to those that have a default. -/
def fieldsPresent : Value → Bool
  | .array items => 4 ≤ items.length
  | _ => true

/-- The table of a skill. -/
def skill? (v : Value) : Option Skill := do
  let ms ← members? skillFields v
  let name ← Record.get ["name"] "" text? ms
  let description ← Record.get ["description"] "" text? ms
  let version ← Record.get ["version"] none (fun v => (text? v).map some) ms
  let author ← Record.get ["author"] none (fun v => (text? v).map some) ms
  let tags ← Record.get ["tags"] [] texts? ms
  let tools ← Record.get ["tools"] [] tools? ms
  let prompts ← Record.get ["prompts"] [] texts? ms
  if fieldsPresent v then return ⟨name, description, version, author, tags, tools, prompts⟩
  else none

/-- A document: the table of a skill, if present, and the tools and prompts of the top level. -/
def document? (members : List (String × Value)) :
    Option (Option Skill × List Tool × List String) := do
  let skill ← Record.get ["skill"] none (fun v => (skill? v).map some) members
  let tools ← Record.get ["tools"] [] tools? members
  let prompts ← Record.get ["prompts"] [] texts? members
  return (skill, tools, prompts)

/-- The manifest of a skill with the tools and prompts of the top level in front. -/
def manifest (skill : Skill) (tools : List Tool) (prompts : List String) : Manifest where
  name := skill.name
  description := skill.description
  version := skill.version.getD defaultVersion
  author := skill.author.filter fun a => !a.isEmpty
  tags := skill.tags
  tools := tools ++ skill.tools
  prompts := prompts ++ skill.prompts
  location := none

/-- The manifest that the members of a document stand for. -/
def ofMembers (members : List (String × Value)) : Except Error Manifest :=
  match document? members with
  | none => .error (.malformed .structured "the document is no manifest")
  | some (none, _, _) => .error (.malformed .structured ("missing " ++ skillMarker ++ " table"))
  | some (some skill, tools, prompts) => .ok (manifest skill tools prompts)

/-- The manifest that a text writes. -/
def parse (content : String) : Except Error Manifest :=
  match Toml.ofString? content with
  | some members => ofMembers members
  | none => .error (.malformed .structured "the document is malformed")

end StructuredManifest

end Repertoire
