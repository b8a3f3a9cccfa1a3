import Repertoire.Json.Value
import Repertoire.Skill.Basic

/-!
# The tools of a host

A host keeps definitions of tools under names that are all different. Registering the tools of a
skill stops at the first name that is taken, and keeps what was registered before.
-/

namespace Repertoire

/-- The type under which a host knows a tool. -/
inductive ToolType where
  | shell
  | http
  | builtin
  | custom
deriving DecidableEq, Repr

/-- The name of a type. -/
def ToolType.name : ToolType → String
  | .shell => "shell"
  | .http => "http"
  | .builtin => "builtin"
  | .custom => "custom"

/-- The type under which a host knows tools of a kind. Hosts know no scripts. -/
def ToolKind.hostType : ToolKind → ToolType
  | .shell => .shell
  | .http => .http
  | .builtin => .builtin
  | .script => .custom
  | .custom => .custom

/-- A tool as a host knows it. It has no parameters. -/
structure ToolDefinition where
  name : String
  description : String
  type : ToolType
  command : String
deriving DecidableEq, Repr

/-- The definition of a tool. -/
def Tool.definition (t : Tool) : ToolDefinition :=
  ⟨t.name, t.description, t.toolKind.hostType, t.command⟩

namespace ToolDefinition

open Repertoire.Json

/-- The JSON form of a definition. -/
def toJson (d : ToolDefinition) : Value :=
  .object [
    ("name", .string d.name),
    ("description", .string d.description),
    ("type", .string d.type.name),
    ("command", .string d.command),
    ("parameters", .object [])]

/-- The JSON form of what a model is told of a tool. -/
def schema (d : ToolDefinition) : Value :=
  .object [
    ("name", .string d.name),
    ("description", .string d.description),
    ("parameters", .object [])]

end ToolDefinition

/-- The definitions that a host keeps, in the order in which they came. -/
structure ToolHost where
  tools : List ToolDefinition
deriving DecidableEq, Repr

namespace ToolHost

/-- A host without tools. -/
def empty : ToolHost := ⟨[]⟩

/-- The definition with the name. -/
def get? (h : ToolHost) (name : String) : Option ToolDefinition :=
  h.tools.find? fun d => d.name = name

/-- Adds a definition whose name is not taken. -/
def register (h : ToolHost) (d : ToolDefinition) : Except Error Unit × ToolHost :=
  match h.get? d.name with
  | some _ => (.error (.alreadyExists .tool d.name), h)
  | none => (.ok (), ⟨h.tools ++ [d]⟩)

/-- Adds definitions up to the first one whose name is taken. -/
def registerAll (h : ToolHost) : List ToolDefinition → Except Error Unit × ToolHost
  | [] => (.ok (), h)
  | d :: ds =>
    match h.register d with
    | (.ok (), h) => h.registerAll ds
    | (.error e, h) => (.error e, h)

/-- Adds the tools of a loaded skill, and returns their number. -/
def registerTools (h : ToolHost) (s : Skill) : Except Error Nat × ToolHost :=
  if !s.loaded then (.error s.notLoaded, h)
  else
    match h.registerAll (s.manifest.tools.map Tool.definition) with
    | (.ok (), h) => (.ok s.manifest.tools.length, h)
    | (.error e, h) => (.error e, h)

/-- The schemas of all tools. -/
def schemas (h : ToolHost) : List Json.Value := h.tools.map ToolDefinition.schema

end ToolHost

end Repertoire
