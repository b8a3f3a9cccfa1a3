import Repertoire.Error
import Repertoire.Manifest.Basic

/-!
# Validation of manifests

A manifest is fit for use when the skill and all its tools are named and described, no two tools
share a name, every kind exists, and every shell tool has a command. Validation reports the first
defect: those of the skill come before those of its tools, and tools are looked at in order.
-/

namespace Repertoire

/-- What makes a manifest unfit for use. Tools are numbered from one. -/
inductive Defect where
  | noName
  | noDescription (skill : String)
  | toolWithoutName (skill : String) (number : Nat)
  | repeatedTool (skill tool : String)
  | toolWithoutDescription (tool : String)
  | toolWithoutKind (tool : String)
  | unknownKind (tool kind : String)
  | noCommand (tool : String)
deriving DecidableEq, Repr

/-- The words for a defect. -/
def Defect.text : Defect → String
  | .noName => "skill name is empty"
  | .noDescription skill => "skill '" ++ skill ++ "' has an empty description"
  | .toolWithoutName skill number =>
    "skill '" ++ skill ++ "': tool #" ++ toString number ++ " has an empty name"
  | .repeatedTool skill tool => "skill '" ++ skill ++ "': duplicate tool '" ++ tool ++ "'"
  | .toolWithoutDescription tool => "tool '" ++ tool ++ "' has an empty description"
  | .toolWithoutKind tool => "tool '" ++ tool ++ "' has an empty kind"
  | .unknownKind tool kind => "tool '" ++ tool ++ "': " ++ ToolKind.unknownMessage kind
  | .noCommand tool => "shell tool '" ++ tool ++ "' has an empty command"

/-- The first defect of a tool, apart from its name. -/
def Tool.defect? (t : Tool) : Option Defect :=
  if Text.AllBlank t.description then some (.toolWithoutDescription t.name)
  else if Text.AllBlank t.kind then some (.toolWithoutKind t.name)
  else
    match ToolKind.ofName? t.kind with
    | none => some (.unknownKind t.name t.kind)
    | some kind =>
      if kind = .shell ∧ Text.AllBlank t.command then some (.noCommand t.name) else none

namespace Manifest

/-- The first defect of the tools behind those whose names are given, oldest last. -/
def toolDefect? (skill : String) : List String → List Tool → Option Defect
  | _, [] => none
  | seen, t :: rest =>
    if Text.AllBlank t.name then some (.toolWithoutName skill (seen.length + 1))
    else if t.name ∈ seen then some (.repeatedTool skill t.name)
    else
      match t.defect? with
      | some d => some d
      | none => toolDefect? skill (t.name :: seen) rest

/-- The first defect of a manifest. -/
def defect? (m : Manifest) : Option Defect :=
  if Text.AllBlank m.name then some .noName
  else if Text.AllBlank m.description then some (.noDescription m.name)
  else toolDefect? m.name [] m.tools

/-- Accepts a manifest that has no defect. -/
def validate (m : Manifest) : Except Error Unit :=
  match m.defect? with
  | none => .ok ()
  | some d => .error (.validation d.text)

end Manifest

end Repertoire
