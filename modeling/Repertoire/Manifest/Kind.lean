import Repertoire.Text.Blank

/-!
# Kinds of tools

A tool declares its kind as a text. Validation reads that text strictly; everything else reads
it leniently, where a text that names no kind counts as the custom kind.
-/

namespace Repertoire

/-- The way in which a tool is executed. -/
inductive ToolKind where
  | shell
  | http
  | builtin
  | script
  | custom
deriving DecidableEq, Repr

namespace ToolKind

/-- The name of a kind. -/
def name : ToolKind → String
  | .shell => "shell"
  | .http => "http"
  | .builtin => "builtin"
  | .script => "script"
  | .custom => "custom"

/-- Every kind. -/
def all : List ToolKind := [.shell, .http, .builtin, .script, .custom]

/-- The kind that a text names, blanks at its ends aside. -/
def ofName? (text : String) : Option ToolKind :=
  all.find? fun kind => kind.name = Text.trim text

/-- The kind that a tool is treated as having. -/
def declared (text : String) : ToolKind := (ofName? text).getD .custom

/-- The message for a text that names no kind. -/
def unknownMessage (text : String) : String :=
  "unrecognized tool kind '" ++ text ++ "'"

end ToolKind

end Repertoire
