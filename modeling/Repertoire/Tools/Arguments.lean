import Repertoire.Json.Value
import Repertoire.Manifest.Basic
import Repertoire.Text.Blank
import Repertoire.Text.Cut

/-!
# Arguments of a call

The text of the arguments that a tool is called with. Raw text is passed on without the blanks
at its ends. Named values are merged over the defaults that the tool declares: declared arguments
come first, in their order, and values under other names follow in the order given. Empty texts
are left out.
-/

namespace Repertoire

open Repertoire.Json

/-- The arguments that a tool is called with. -/
inductive ToolArguments where
  | none
  | raw (text : String)
  | named (values : List (String × Value))
deriving Repr

namespace ToolArguments

/-- The text of a named value: a string as it is, nothing for null, else the compact form. -/
def valueText : Value → String
  | .string s => s
  | .null => ""
  | v => v.compact

/-- The text of a declared argument: that of the value under its key, or else its default. -/
def declaredText (values : List (String × Value)) (a : ToolArg) : String :=
  match values.find? fun (key, _) => key = a.key with
  | some (_, v) => valueText v
  | Option.none => a.value

/-- The values under names that the tool does not declare. -/
def undeclared (t : Tool) (values : List (String × Value)) : List (String × Value) :=
  values.filter fun (key, _) => (t.arg? key).isNone

/-- The texts of named values for a tool, empty ones among them. -/
def texts (t : Tool) (values : List (String × Value)) : List String :=
  t.args.map (declaredText values) ++ (undeclared t values).map fun (_, v) => valueText v

/-- The text of the arguments for a tool. -/
def render (t : Tool) : ToolArguments → String
  | .none => ""
  | .raw text => Text.trim text
  | .named values => Text.joinWith " " ((texts t values).filter fun s => !s.isEmpty)

end ToolArguments

/-- The command with arguments behind it, if there are any. -/
def commandWith (command arguments : String) : String :=
  if arguments.isEmpty then command else command ++ " " ++ arguments

end Repertoire
