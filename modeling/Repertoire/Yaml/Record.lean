import Repertoire.Yaml.Node

/-!
# Reading YAML nodes as fields

How the nodes of a document are read as texts, lists of texts, records, truth values and
numbers. Any scalar is a text by the way it is written. Where a list or a record is expected,
nothing at all counts as an empty one; where a text is optional, nothing at all and the words
for null count as none, unless they are quoted.
-/

namespace Repertoire.Yaml

/-- The words for null. -/
def isNullWord (s : String) : Bool :=
  s == "~" || s == "null" || s == "Null" || s == "NULL"

namespace Document

variable (d : Document)

/-- A plain scalar without text: nothing is written at its place. -/
def isNothing : Node → Bool
  | .scalar _ _ .plain text => text.isEmpty
  | _ => false

/-- A text. -/
def text? (node : Node) : Option String :=
  match d.follow? node with
  | some (.scalar _ _ _ text) => some text
  | _ => none

/-- A text that may be absent. The tag for null allows nothing but a word for null. -/
def optionalText? (node : Node) : Option (Option String) :=
  match d.follow? node with
  | some (.scalar _ tag .plain text) =>
    match tag with
    | some "tag:yaml.org,2002:null" => if isNullWord text then some none else none
    | some _ => some (some text)
    | none => if text.isEmpty || isNullWord text then some none else some (some text)
  | some (.scalar _ _ _ text) => some (some text)
  | _ => none

/-- A list of texts. -/
def texts? (node : Node) : Option (List String) :=
  match d.follow? node with
  | some (.sequence _ _ items) => items.mapM d.text?
  | some n => if isNothing n then some [] else none
  | none => none

/-- The members of a record; every key is a text. -/
def members? (node : Node) : Option (List (String × Node)) :=
  match d.follow? node with
  | some (.mapping _ _ pairs) => pairs.mapM fun (k, v) => (d.text? k).map fun name => (name, v)
  | some n => if isNothing n then some [] else none
  | none => none

/-- The members of the record that the document is; an empty stream is an empty record. -/
def rootMembers? : Option (List (String × Node)) :=
  match d.root with
  | none => some []
  | some node => d.members? node

/-- A scalar that may be read as a value of the type with the tag: a plain one, or a literal one
that carries the tag. -/
def plainText? (expected : String) (node : Node) : Option String :=
  match d.follow? node with
  | some (.scalar _ _ .plain text) => some text
  | some (.scalar _ tag .literal text) => if tag = some expected then some text else none
  | _ => none

/-- A truth value. -/
def bool? (node : Node) : Option Bool :=
  match d.plainText? "tag:yaml.org,2002:bool" node with
  | some text =>
    if text == "true" || text == "True" || text == "TRUE" then some true
    else if text == "false" || text == "False" || text == "FALSE" then some false
    else none
  | none => none

/-- A natural number below a bound, in decimal or behind the mark of another base. A plus sign
may stand in front; decimal digits do not start with a zero. -/
def natural? (bound : Nat) (node : Node) : Option Nat :=
  match d.plainText? "tag:yaml.org,2002:int" node with
  | none => none
  | some text =>
    let unsigned := match text.toList with
      | '+' :: rest => rest
      | cs => cs
    let number := match unsigned with
      | '0' :: 'x' :: digits => Text.number? 16 digits
      | '0' :: 'o' :: digits => Text.number? 8 digits
      | '0' :: 'b' :: digits => Text.number? 2 digits
      | ['0'] => some 0
      | '0' :: _ => none
      | digits => Text.number? 10 digits
    number.filter fun n => n < bound

/-- A natural number that may be absent. -/
def optionalNatural? (bound : Nat) (node : Node) : Option (Option Nat) :=
  match d.optionalText? node with
  | none => none
  | some none => some none
  | some (some _) => (d.natural? bound node).map some

/-- The choice of a unit that a node names: by its text, or by a tag of its own with nothing
behind it. -/
def choice? (node : Node) : Option String :=
  match d.follow? node with
  | some (.scalar _ (some tag) style text) =>
    match tag.toList with
    | '!' :: name =>
      if style = .plain ∧ (text.isEmpty ∨ isNullWord text) then some (String.ofList name) else none
    | _ => some text
  | some (.scalar _ none _ text) => some text
  | _ => none

end Document

end Repertoire.Yaml
