/-!
# Members of a record

A record in a document is a list of named members in document order. Looking up a field yields
its member, nothing when there is none, and fails when there are several: a repeated field is
never resolved silently. Names that no field has are ignored.
-/

namespace Repertoire.Record

variable {α β : Type}

/-- The member of a field, which may go by several names. The outer level fails when the field
is repeated. -/
def field? (names : List String) (members : List (String × α)) : Option (Option α) :=
  match members.filter fun (name, _) => names.contains name with
  | [] => some none
  | [(_, value)] => some (some value)
  | _ => none

/-- The field read from its member, or the default when it is missing. -/
def get (names : List String) (default : β) (read : α → Option β) (members : List (String × α)) :
    Option β :=
  match field? names members with
  | none => none
  | some none => some default
  | some (some value) => read value

/-- The members of a record that lists its fields by position; missing fields are at the end. -/
def ofPositions (names : List String) (items : List α) : List (String × α) :=
  names.zip items

end Repertoire.Record
