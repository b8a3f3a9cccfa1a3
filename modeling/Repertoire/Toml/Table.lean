import Repertoire.Toml.Value

/-!
# Building TOML tables

A document defines its tables piece by piece: by headers, by headers of the tables within them,
and by keys with points. What a later statement may still add to a table depends on how the
table came about, so each table carries its standing while the document is read. A statement
that defines something twice is refused.
-/

namespace Repertoire.Toml

/-- How a table came about: by a header or as an inline table, as the parent of a header, or by
a key with points. -/
inductive Standing where
  | defined
  | implied
  | dotted
deriving DecidableEq, Repr

/-- A part of a document that is being built. What is assigned to keys is never looked into. -/
inductive Node (α : Type) where
  | leaf (value : α)
  | table (standing : Standing) (entries : List (String × Node α))
  | tables (elements : List (List (String × Node α)))

/-- The entries of a table, in the order of their definition. -/
abbrev Entries (α : Type) := List (String × Node α)

namespace Entries

variable {α : Type}

/-- The node under a key. -/
def get? (key : String) : Entries α → Option (Node α)
  | [] => none
  | (k, n) :: rest => if k = key then some n else get? key rest

/-- Puts a node in the place of the one under the key. -/
def replace (key : String) (node : Node α) : Entries α → Entries α
  | [] => []
  | (k, n) :: rest => if k = key then (k, node) :: rest else (k, n) :: replace key node rest

/-- The entries without the one under the key. -/
def erase (key : String) (entries : Entries α) : Entries α :=
  entries.filter fun (k, _) => k ≠ key

/-- Works on the entries of the node under a key, a new table of the given standing if there is
none; of an array of tables the last element counts. The work is told the standing of the
table. -/
def within (key : String) (fresh : Standing)
    (work : Standing → Entries α → Option (Entries α)) (entries : Entries α) :
    Option (Entries α) :=
  match get? key entries with
  | none => (work fresh []).map fun inner => entries ++ [(key, .table fresh inner)]
  | some (.leaf _) => none
  | some (.table standing inner) =>
    (work standing inner).map fun inner => replace key (.table standing inner) entries
  | some (.tables elements) =>
    match elements.getLast? with
    | none => none
    | some last =>
      (work .defined last).map fun inner =>
        replace key (.tables (elements.dropLast ++ [inner])) entries

/-- Works on the entries that the path of a header leads to. -/
def atPath : List String → (Entries α → Option (Entries α)) → Entries α → Option (Entries α)
  | [], work, entries => work entries
  | key :: path, work, entries =>
    within key .implied (fun _ inner => atPath path work inner) entries

/-- Assigns a value to a key of one part; a key is assigned once. -/
def assignKey (key : String) (value : α) (entries : Entries α) : Option (Entries α) :=
  match get? key entries with
  | none => some (entries ++ [(key, .leaf value)])
  | some _ => none

/-- Assigns a value to a key of several parts below a table: every table on the way must not be
defined otherwise, and the last one must be the work of keys with points. -/
def assignBelow : List String → String → α → Entries α → Option (Entries α)
  | [], key, value, entries => assignKey key value entries
  | part :: path, key, value, entries =>
    match get? part entries with
    | some (.table .defined _) => none
    | _ =>
      within part .dotted
        (fun standing inner =>
          if path.isEmpty && standing ≠ .dotted then none
          else assignBelow path key value inner)
        entries

/-- Assigns a value to a key. -/
def assign (path : List String) (value : α) (entries : Entries α) : Option (Entries α) :=
  match path.getLast? with
  | none => none
  | some key => assignBelow path.dropLast key value entries

/-- Opens the table of a header. A table that was only implied so far becomes defined and moves
to the end of its parent. -/
def openTable (path : List String) (entries : Entries α) : Option (Entries α) :=
  match path.getLast? with
  | none => none
  | some key =>
    atPath path.dropLast
      (fun parent =>
        match get? key parent with
        | none => some (parent ++ [(key, .table .defined [])])
        | some (.table .implied inner) => some (erase key parent ++ [(key, .table .defined inner)])
        | some _ => none)
      entries

/-- Appends an empty table to the array of tables of a header. -/
def openElement (path : List String) (entries : Entries α) : Option (Entries α) :=
  match path.getLast? with
  | none => none
  | some key =>
    atPath path.dropLast
      (fun parent =>
        match get? key parent with
        | none => some (parent ++ [(key, .tables [[]])])
        | some (.tables elements) => some (replace key (.tables (elements ++ [[]])) parent)
        | some _ => none)
      entries

end Entries

mutual

/-- The value that a finished node stands for. -/
def Node.value : Node Value → Value
  | .leaf v => v
  | .table _ entries => .table (Node.members entries)
  | .tables elements => .array (Node.elements elements)

/-- The members of a finished table. -/
def Node.members : Entries Value → List (String × Value)
  | [] => []
  | (key, n) :: rest => (key, n.value) :: Node.members rest

/-- The elements of a finished array of tables. -/
def Node.elements : List (Entries Value) → List Value
  | [] => []
  | e :: es => .table (Node.members e) :: Node.elements es

end

end Repertoire.Toml
