/-!
# Variables

The variables of a shell: names with values, the one that was set last in front. A name occurs
at most once when variables are only changed by the operations here.
-/

namespace Repertoire.Shell

/-- Names with their values. -/
abbrev Variables := List (String × String)

namespace Variables

/-- The value of a variable. -/
def get? (vs : Variables) (name : String) : Option String :=
  (vs.find? fun (n, _) => n = name).map Prod.snd

/-- Without a variable. -/
def erase (vs : Variables) (name : String) : Variables := vs.filter fun (n, _) => n ≠ name

/-- With a variable set. -/
def insert (vs : Variables) (name value : String) : Variables := (name, value) :: vs.erase name

/-- Variables with others set above them. -/
def insertAll (vs : Variables) (others : List (String × String)) : Variables :=
  others.foldl (fun vs (name, value) => vs.insert name value) vs

end Variables

end Repertoire.Shell
