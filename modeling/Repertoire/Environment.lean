/-!
# Environment variables

The variables a program is started with, and the home directory of the account it runs for. A
name that is empty or holds an equals sign or a zero character names no variable.
-/

namespace Repertoire

/-- Variables with their values, and the home directory of the account. -/
structure Environment where
  bindings : List (String × String)
  accountHome : Option String
deriving Repr

namespace Environment

/-- The text can be the name of a variable. -/
def isName (name : String) : Bool :=
  !name.isEmpty && !name.toList.contains '=' && !name.toList.contains '\x00'

/-- The value of a variable. -/
def get? (e : Environment) (name : String) : Option String :=
  if isName name then (e.bindings.find? fun (n, _) => n = name).map Prod.snd else none

/-- The value of a variable, unless it is empty. -/
def nonEmpty? (e : Environment) (name : String) : Option String :=
  (e.get? name).filter fun value => !value.isEmpty

/-- The home directory: that of the variable, or else that of the account. -/
def home? (e : Environment) : Option String := (e.nonEmpty? "HOME").or e.accountHome

/-- The variables with those in front that are not among them yet. -/
def withMissing (e : Environment) (more : List (String × String)) : Environment :=
  { e with bindings :=
      e.bindings ++ more.filter fun (n, _) => !e.bindings.any fun (m, _) => m = n }

end Environment

end Repertoire
