import Repertoire.Manifest.Kind

/-!
# Manifests

A manifest describes a skill: what it is called, what it is for, and which tools and prompts it
brings. It is plain data. Whether it is fit for use is decided by validation, so a manifest may
hold empty names, repeated tools and kinds that do not exist.
-/

namespace Repertoire

/-- An argument that a tool declares, with its default value. -/
structure ToolArg where
  key : String
  value : String
deriving DecidableEq, Repr

/-- A tool that a skill brings. The kind is kept as declared. -/
structure Tool where
  name : String
  description : String
  kind : String
  command : String
  args : List ToolArg
deriving DecidableEq, Repr

/-- The version of a manifest that declares none. -/
def defaultVersion : String := "0.1.0"

/-- The description of a skill. The location is the file that the manifest was read from. -/
structure Manifest where
  name : String
  description : String
  version : String
  author : Option String
  tags : List String
  tools : List Tool
  prompts : List String
  location : Option String
deriving DecidableEq, Repr

namespace Tool

/-- The kind that the tool is treated as having. -/
def toolKind (t : Tool) : ToolKind := ToolKind.declared t.kind

/-- The default value of the first argument with the key. -/
def arg? (t : Tool) (key : String) : Option String :=
  (t.args.find? fun a => a.key = key).map ToolArg.value

end Tool

namespace Manifest

/-- The manifest without any content, not even a version. -/
def empty : Manifest := ⟨"", "", "", none, [], [], [], none⟩

/-- The first tool with the name. -/
def findTool? (m : Manifest) (name : String) : Option Tool :=
  m.tools.find? fun t => t.name = name

/-- The names of the tools in order. -/
def toolNames (m : Manifest) : List String := m.tools.map Tool.name

end Manifest

end Repertoire
