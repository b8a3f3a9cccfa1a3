/-!
# Extensions of a skill

Values that a host attaches to a skill. There is one slot for each kind of value, so attaching a
value replaces the one of its kind.
-/

namespace Repertoire

/-- The kinds of values that can be attached. -/
inductive ExtensionKind where
  | text
  | number
  | flag
deriving DecidableEq, Repr

/-- A value that can be attached. -/
inductive ExtensionValue where
  | text (value : String)
  | number (value : Int)
  | flag (value : Bool)
deriving DecidableEq, Repr

/-- The kind of a value. -/
def ExtensionValue.kind : ExtensionValue → ExtensionKind
  | .text _ => .text
  | .number _ => .number
  | .flag _ => .flag

/-- The values attached to a skill. -/
structure Extensions where
  values : List ExtensionValue
deriving DecidableEq, Repr

namespace Extensions

/-- No values. -/
def empty : Extensions := ⟨[]⟩

/-- The number of values. -/
def size (x : Extensions) : Nat := x.values.length

/-- The value of a kind. -/
def get? (x : Extensions) (kind : ExtensionKind) : Option ExtensionValue :=
  x.values.find? fun v => v.kind = kind

/-- There is a value of the kind. -/
def has (x : Extensions) (kind : ExtensionKind) : Bool := (x.get? kind).isSome

/-- Without the value of a kind. -/
def erase (x : Extensions) (kind : ExtensionKind) : Extensions :=
  ⟨x.values.filter fun v => v.kind ≠ kind⟩

/-- With a value in the slot of its kind. -/
def insert (x : Extensions) (value : ExtensionValue) : Extensions :=
  ⟨(x.erase value.kind).values ++ [value]⟩

end Extensions

end Repertoire
