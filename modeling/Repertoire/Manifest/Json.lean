import Repertoire.Error
import Repertoire.Json.Value
import Repertoire.Manifest.Basic
import Repertoire.Record

/-!
# Manifests in JSON

The JSON form of a manifest has one member for each field. Reading accepts missing fields, which
have defaults, ignores unknown ones, and accepts an array of the fields in their order. Writing
gives all eight fields, and repeats the key of an argument as often as it is declared, so that
reading what was written gives the manifest back.
-/

namespace Repertoire

open Repertoire.Json

namespace Tool

/-- The fields of a tool in order. -/
def fieldNames : List String := ["name", "description", "kind", "command", "args"]

/-- The JSON form of a tool. -/
def toJson (t : Tool) : Value :=
  .object [
    ("name", .string t.name),
    ("description", .string t.description),
    ("kind", .string t.kind),
    ("command", .string t.command),
    ("args", .object (t.args.map fun a => (a.key, .string a.value)))]

end Tool

namespace Manifest

/-- The fields of a manifest in order. -/
def fieldNames : List String :=
  ["name", "description", "version", "author", "tags", "tools", "prompts", "location"]

/-- A text, or null where there is none. -/
def optionalJson : Option String → Value
  | none => .null
  | some s => .string s

/-- The JSON form of a manifest. -/
def toJson (m : Manifest) : Value :=
  .object [
    ("name", .string m.name),
    ("description", .string m.description),
    ("version", .string m.version),
    ("author", optionalJson m.author),
    ("tags", .array (m.tags.map .string)),
    ("tools", .array (m.tools.map Tool.toJson)),
    ("prompts", .array (m.prompts.map .string)),
    ("location", optionalJson m.location)]

/-- The written JSON form of a manifest. -/
def toJsonText (m : Manifest) : String := m.toJson.pretty

end Manifest

namespace JsonManifest

/-- The members of a record: those of an object, or the items of an array by position, of which
there are at most as many as fields. -/
def members? (names : List String) : Tree → Option (List (String × Tree))
  | .object members => members.mapM fun (literal, t) => (textOf? literal).map fun name => (name, t)
  | .array items =>
    if items.length ≤ names.length then some (Record.ofPositions names items) else none
  | _ => none

/-- A string. -/
def text? : Tree → Option String
  | .string literal => textOf? literal
  | _ => none

/-- A string or null. -/
def optionalText? : Tree → Option (Option String)
  | .null => some none
  | t => (text? t).map some

/-- An array of strings. -/
def texts? : Tree → Option (List String)
  | .array items => items.mapM text?
  | _ => none

/-- The text of an argument: a string as it is, any other value in its compact form. -/
def argText : Value → String
  | .string s => s
  | v => v.compact

/-- The number of levels around the value of an argument. -/
def levelsAroundArg : Nat := 4

/-- The arguments of a tool, with repeated keys kept. -/
def args? : Tree → Option (List ToolArg)
  | .object members =>
    members.mapM fun (literal, t) =>
      match textOf? literal, t.value? (nestingLimit - levelsAroundArg) with
      | some key, some v => some ⟨key, argText v⟩
      | _, _ => none
  | _ => none

/-- A tool. -/
def tool? (t : Tree) : Option Tool := do
  let ms ← members? Tool.fieldNames t
  let name ← Record.get ["name"] "" text? ms
  let description ← Record.get ["description"] "" text? ms
  let kind ← Record.get ["kind"] "" text? ms
  let command ← Record.get ["command"] "" text? ms
  let args ← Record.get ["args"] [] args? ms
  return ⟨name, description, kind, command, args⟩

/-- An array of tools. -/
def tools? : Tree → Option (List Tool)
  | .array items => items.mapM tool?
  | _ => none

/-- The manifest that a document stands for. -/
def ofTree? (t : Tree) : Option Manifest := do
  let ms ← members? Manifest.fieldNames t
  let name ← Record.get ["name"] "" text? ms
  let description ← Record.get ["description"] "" text? ms
  let version ← Record.get ["version"] defaultVersion text? ms
  let author ← Record.get ["author"] none optionalText? ms
  let tags ← Record.get ["tags"] [] texts? ms
  let tools ← Record.get ["tools"] [] tools? ms
  let prompts ← Record.get ["prompts"] [] texts? ms
  let location ← Record.get ["location"] none optionalText? ms
  return ⟨name, description, version, author, tags, tools, prompts, location⟩

/-- The manifest that a text writes. -/
def parse (content : String) : Except Error Manifest :=
  match (Tree.ofString? content).bind ofTree? with
  | some m => .ok m
  | none => .error (.malformed .json "the document is no manifest")

end JsonManifest

end Repertoire
