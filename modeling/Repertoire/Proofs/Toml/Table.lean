import Mathlib.Data.List.Basic
import Repertoire.Proofs.Text.Outline
import Repertoire.Toml.Document

/-!
# What tables are built from

Assignments and headers are carried out on tables by looking at keys and at how a table came to be,
and never at the values. So changing every value before carrying them out and changing every value
afterwards come to the same. Nothing that is carried out doubles a value: measured by any size of
values, a table is no larger than what was put in.
-/

namespace Repertoire.Toml

open Repertoire.Text

variable {α β : Type}

/-! ## Other values -/

mutual

/-- The node with other values at its keys. -/
def Node.map (f : α → β) : Node α → Node β
  | .leaf value => .leaf (f value)
  | .table standing entries => .table standing (Entries.map f entries)
  | .tables elements => .tables (Entries.mapEach f elements)

/-- The entries with other values at their keys. -/
def Entries.map (f : α → β) : Entries α → Entries β
  | [] => []
  | (key, n) :: rest => (key, n.map f) :: Entries.map f rest

/-- The elements of an array of tables with other values at their keys. -/
def Entries.mapEach (f : α → β) : List (Entries α) → List (Entries β)
  | [] => []
  | e :: es => Entries.map f e :: Entries.mapEach f es

end

namespace Entries

variable {f : α → β} {key : String} {path : List String} {entries : Entries α}

/-- Entries are changed one by one. -/
theorem map_eq_map (entries : Entries α) :
    map f entries = List.map (fun m => (m.1, m.2.map f)) entries := by
  induction entries with
  | nil => rfl
  | cons m entries ih => rw [map, ih, List.map_cons]

/-- Elements are changed one by one. -/
theorem mapEach_eq_map (elements : List (Entries α)) : mapEach f elements = elements.map (map f) := by
  induction elements with
  | nil => rfl
  | cons e elements ih => rw [mapEach, ih, List.map_cons]

/-- Entries behind others are changed as they are on their own. -/
theorem map_append (entries entries' : Entries α) :
    map f (entries ++ entries') = map f entries ++ map f entries' := by
  simp only [map_eq_map, List.map_append]

/-- What a key has among changed entries is changed. -/
theorem get?_map (entries : Entries α) :
    get? key (map f entries) = (get? key entries).map (Node.map f) := by
  induction entries with
  | nil => rfl
  | cons m entries ih =>
    rw [map, get?, get?, ih]
    split_ifs <;> rfl

/-- A changed node replaces one among changed entries. -/
theorem replace_map (node : Node α) (entries : Entries α) :
    replace key (node.map f) (map f entries) = map f (replace key node entries) := by
  induction entries with
  | nil => rfl
  | cons m entries ih =>
    rw [map, replace, replace, ih]
    split_ifs <;> rfl

/-- A key is erased from changed entries as it is from others. -/
theorem erase_map (entries : Entries α) :
    erase key (map f entries) = map f (erase key entries) := by
  simp only [erase, map_eq_map, List.filter_map]
  rfl

/-- Work that does not look at values is done the same below a key. -/
theorem within_map {fresh : Standing} {work : Standing → Entries α → Option (Entries α)}
    {work' : Standing → Entries β → Option (Entries β)}
    (hwork : ∀ standing inner, work' standing (map f inner) = (work standing inner).map (map f)) :
    within key fresh work' (map f entries) = (within key fresh work entries).map (map f) := by
  have hnil := hwork fresh []
  rw [map] at hnil
  simp only [within, get?_map]
  rcases get? key entries with _ | (value | ⟨standing, inner⟩ | elements)
  · simp only [Option.map_none, hnil, Option.map_map, Function.comp_def, map_append]
    rfl
  · rfl
  · simp only [Option.map_some, Node.map, hwork, Option.map_map, Function.comp_def, ← replace_map]
  · simp only [Option.map_some, Node.map, mapEach_eq_map, List.getLast?_map]
    cases elements.getLast? with
    | none => rfl
    | some last =>
      simp only [Option.map_some, hwork, Option.map_map, Function.comp_def, ← replace_map, Node.map,
        mapEach_eq_map, List.map_append, List.map_dropLast, List.map_cons, List.map_nil]

/-- Work that does not look at values is done the same at the end of a path. -/
theorem atPath_map {work : Entries α → Option (Entries α)} {work' : Entries β → Option (Entries β)}
    (hwork : ∀ inner, work' (map f inner) = (work inner).map (map f)) :
    atPath path work' (map f entries) = (atPath path work entries).map (map f) := by
  induction path generalizing entries with
  | nil => exact hwork entries
  | cons key path ih => exact within_map fun _ _ => ih

/-- A key is assigned without a look at the values. -/
theorem assignKey_map (value : α) :
    assignKey key (f value) (map f entries) = (assignKey key value entries).map (map f) := by
  simp only [assignKey, get?_map]
  cases get? key entries with
  | none => simp only [Option.map_none, Option.map_some, map_append]; rfl
  | some node => rfl

/-- A key below a path is assigned without a look at the values. -/
theorem assignBelow_map (value : α) :
    assignBelow path key (f value) (map f entries) =
      (assignBelow path key value entries).map (map f) := by
  induction path generalizing entries with
  | nil => exact assignKey_map value
  | cons part path ih =>
    have hwithin : within part .dotted
        (fun standing inner => if path.isEmpty && standing ≠ .dotted then none
          else assignBelow path key (f value) inner) (map f entries) =
        (within part .dotted (fun standing inner => if path.isEmpty && standing ≠ .dotted then none
          else assignBelow path key value inner) entries).map (map f) := by
      refine within_map fun standing inner => ?_
      split_ifs
      · rfl
      · exact ih
    simp only [assignBelow, get?_map]
    rcases get? part entries with _ | (value' | ⟨standing, inner⟩ | elements)
    · exact hwithin
    · exact hwithin
    · cases standing with
      | defined => rfl
      | implied => exact hwithin
      | dotted => exact hwithin
    · exact hwithin

/-- A path is assigned without a look at the values. -/
theorem assign_map (value : α) :
    assign path (f value) (map f entries) = (assign path value entries).map (map f) := by
  unfold assign
  cases path.getLast? with
  | none => rfl
  | some key => exact assignBelow_map value

/-- A table is opened without a look at the values. -/
theorem openTable_map : openTable path (map f entries) = (openTable path entries).map (map f) := by
  unfold openTable
  cases path.getLast? with
  | none => rfl
  | some key =>
    refine atPath_map fun parent => ?_
    simp only [get?_map]
    rcases get? key parent with _ | (value | ⟨standing, inner⟩ | elements)
    · simp only [Option.map_none, Option.map_some, map_append]
      rfl
    · rfl
    · cases standing with
      | implied =>
        simp only [Option.map_some, Node.map, erase_map, map_append]
        rfl
      | defined => rfl
      | dotted => rfl
    · rfl

/-- An element is opened without a look at the values. -/
theorem openElement_map :
    openElement path (map f entries) = (openElement path entries).map (map f) := by
  unfold openElement
  cases path.getLast? with
  | none => rfl
  | some key =>
    refine atPath_map fun parent => ?_
    simp only [get?_map]
    rcases get? key parent with _ | (value | ⟨standing, inner⟩ | elements)
    · simp only [Option.map_none, Option.map_some, map_append]
      rfl
    · rfl
    · rfl
    · simp only [Option.map_some, Node.map, ← replace_map, mapEach_eq_map, List.map_append]
      rfl

end Entries

/-! ## The size of values -/

mutual

/-- The size of all values in a node. -/
def Node.size (g : α → ℕ) : Node α → ℕ
  | .leaf value => g value
  | .table _ entries => Entries.size g entries
  | .tables elements => Entries.sizeEach g elements

/-- The size of all values in entries. -/
def Entries.size (g : α → ℕ) : Entries α → ℕ
  | [] => 0
  | (_, n) :: rest => n.size g + Entries.size g rest

/-- The size of all values in an array of tables. -/
def Entries.sizeEach (g : α → ℕ) : List (Entries α) → ℕ
  | [] => 0
  | e :: es => Entries.size g e + Entries.sizeEach g es

end

namespace Entries

variable {g : α → ℕ} {key : String} {path : List String} {entries entries' : Entries α} {added : ℕ}

/-- Entries and those behind them are as large as both. -/
theorem size_append (entries entries' : Entries α) :
    size g (entries ++ entries') = size g entries + size g entries' := by
  induction entries with
  | nil => simp [size]
  | cons m entries ih => rw [List.cons_append, size, size, ih, Nat.add_assoc]

/-- Elements and those behind them are as large as both. -/
theorem sizeEach_append (elements elements' : List (Entries α)) :
    sizeEach g (elements ++ elements') = sizeEach g elements + sizeEach g elements' := by
  induction elements with
  | nil => simp [sizeEach]
  | cons e elements ih => rw [List.cons_append, sizeEach, sizeEach, ih, Nat.add_assoc]

/-- A node that replaces another changes the size by the difference. -/
theorem size_replace {node : Node α} (h : get? key entries = some node) (node' : Node α) :
    size g (replace key node' entries) + node.size g = size g entries + node'.size g := by
  induction entries with
  | nil => simp [get?] at h
  | cons m entries ih =>
    rw [get?] at h
    rw [replace, size]
    split_ifs at h ⊢
    · obtain rfl := Option.some.inj h
      rw [size]
      omega
    · have hrest := ih h
      rw [size]
      omega

/-- Erasing a key makes nothing larger. -/
theorem size_erase_le (entries : Entries α) : size g (erase key entries) ≤ size g entries := by
  induction entries with
  | nil => exact le_rfl
  | cons m entries ih =>
    rw [erase, List.filter_cons, size]
    split_ifs
    · rw [size]
      exact Nat.add_le_add_left ih _
    · exact ih.trans (Nat.le_add_left _ _)

/-- Erasing a key takes away at least the size of its node. -/
theorem size_erase {node : Node α} (h : get? key entries = some node) :
    size g (erase key entries) + node.size g ≤ size g entries := by
  induction entries with
  | nil => simp [get?] at h
  | cons m entries ih =>
    rw [get?] at h
    rw [erase, List.filter_cons, size]
    split_ifs at h with hkey
    · obtain rfl := Option.some.inj h
      have hle : size g (erase key entries) ≤ size g entries := size_erase_le entries
      rw [if_neg (by simpa using hkey)]
      rw [erase] at hle
      omega
    · have hrest := ih h
      rw [if_pos (by simpa using hkey), size]
      rw [erase] at hrest
      omega

/-- Work below a key adds no more than it adds to the entries there. -/
theorem size_within {fresh : Standing} {work : Standing → Entries α → Option (Entries α)}
    (hwork : ∀ standing inner inner', work standing inner = some inner' →
      size g inner' ≤ size g inner + added)
    (h : within key fresh work entries = some entries') :
    size g entries' ≤ size g entries + added := by
  unfold within at h
  split at h
  · obtain ⟨inner, hinner, rfl⟩ := Option.map_eq_some_iff.mp h
    have hle := hwork _ _ _ hinner
    rw [size_append]
    simp only [size, Node.size] at hle ⊢
    omega
  · simp at h
  · rename_i standing inner hget
    obtain ⟨inner', hinner, rfl⟩ := Option.map_eq_some_iff.mp h
    have hle := hwork _ _ _ hinner
    have hreplace := size_replace (g := g) hget (.table standing inner')
    simp only [Node.size] at hreplace
    omega
  · rename_i elements hget
    split at h
    · simp at h
    · rename_i last hlast
      obtain ⟨inner', hinner, rfl⟩ := Option.map_eq_some_iff.mp h
      have hle := hwork _ _ _ hinner
      have hreplace := size_replace (g := g) hget (.tables (elements.dropLast ++ [inner']))
      have helements := congrArg (sizeEach g) (List.dropLast_append_getLast? last hlast)
      simp only [Node.size, sizeEach_append, sizeEach] at hreplace helements
      omega

/-- Work at the end of a path adds no more than it adds there. -/
theorem size_atPath {work : Entries α → Option (Entries α)}
    (hwork : ∀ inner inner', work inner = some inner' → size g inner' ≤ size g inner + added)
    (h : atPath path work entries = some entries') :
    size g entries' ≤ size g entries + added := by
  induction path generalizing entries entries' with
  | nil => exact hwork _ _ h
  | cons key path ih => exact size_within (fun _ _ _ hinner => ih hinner) h

/-- Assigning a key adds no more than its value. -/
theorem size_assignKey {value : α} (h : assignKey key value entries = some entries') :
    size g entries' ≤ size g entries + g value := by
  unfold assignKey at h
  split at h
  · obtain rfl := Option.some.inj h
    rw [size_append]
    simp only [size, Node.size]
    omega
  · simp at h

/-- Assigning a key below a path adds no more than its value. -/
theorem size_assignBelow {value : α} (h : assignBelow path key value entries = some entries') :
    size g entries' ≤ size g entries + g value := by
  induction path generalizing entries entries' with
  | nil => exact size_assignKey h
  | cons part path ih =>
    rw [assignBelow] at h
    split at h
    · simp at h
    · refine size_within (fun standing inner inner' hinner => ?_) h
      split_ifs at hinner
      exact ih hinner

/-- An assignment adds its value. -/
theorem size_assign {value : α} (h : assign path value entries = some entries') :
    size g entries' ≤ size g entries + g value := by
  unfold assign at h
  split at h
  · simp at h
  · exact size_assignBelow h

/-- A header adds no value. -/
theorem size_openTable (h : openTable path entries = some entries') :
    size g entries' ≤ size g entries := by
  unfold openTable at h
  split at h
  · simp at h
  · change size g entries' ≤ size g entries + 0
    refine size_atPath (fun parent parent' hparent => ?_) h
    split at hparent
    · obtain rfl := Option.some.inj hparent
      simp [size_append, size, Node.size]
    · rename_i hget
      obtain rfl := Option.some.inj hparent
      have herase := size_erase (g := g) hget
      simp only [size_append, size, Node.size] at herase ⊢
      omega
    · simp at hparent

/-- A header of an array of tables adds no value. -/
theorem size_openElement (h : openElement path entries = some entries') :
    size g entries' ≤ size g entries := by
  unfold openElement at h
  split at h
  · simp at h
  · change size g entries' ≤ size g entries + 0
    refine size_atPath (fun parent parent' hparent => ?_) h
    split at hparent
    · obtain rfl := Option.some.inj hparent
      simp [size_append, size, Node.size, sizeEach]
    · rename_i elements hget
      obtain rfl := Option.some.inj hparent
      have hreplace := size_replace (g := g) hget (.tables (elements ++ [[]]))
      simp only [Node.size, sizeEach_append, sizeEach, size] at hreplace
      omega
    · simp at hparent

end Entries

/-! ## Keys -/

namespace Value

mutual

/-- The keys of all members in a value. -/
def keys : Value → List String
  | .array items => itemKeys items
  | .table members => memberKeys members
  | _ => []

/-- The keys of all members in items. -/
def itemKeys : List Value → List String
  | [] => []
  | v :: vs => keys v ++ itemKeys vs

/-- The keys of members and of all members in them. -/
def memberKeys : List (String × Value) → List String
  | [] => []
  | (key, v) :: ms => key :: keys v ++ memberKeys ms

end

/-- Members and those behind them have the keys of both. -/
theorem memberKeys_append (ms ms' : List (String × Value)) :
    memberKeys (ms ++ ms') = memberKeys ms ++ memberKeys ms' := by
  induction ms with
  | nil => rfl
  | cons m ms ih => simp only [List.cons_append, memberKeys, ih, List.append_assoc]

end Value

/-- Entries are finished one by one. -/
theorem Node.members_append (entries entries' : Entries Value) :
    Node.members (entries ++ entries') = Node.members entries ++ Node.members entries' := by
  induction entries with
  | nil => rfl
  | cons m entries ih => simp only [List.cons_append, Node.members, ih]

/-- Elements are finished one by one. -/
theorem Node.elements_append (elements elements' : List (Entries Value)) :
    Node.elements (elements ++ elements') = Node.elements elements ++ Node.elements elements' := by
  induction elements with
  | nil => rfl
  | cons e elements ih => simp only [List.cons_append, Node.elements, ih]

/-- Items and those behind them have the keys of both. -/
theorem Value.itemKeys_append (vs vs' : List Value) :
    Value.itemKeys (vs ++ vs') = Value.itemKeys vs ++ Value.itemKeys vs' := by
  induction vs with
  | nil => rfl
  | cons v vs ih => simp only [List.cons_append, Value.itemKeys, ih, List.append_assoc]

namespace Entries

open Value

variable {key : String} {path more : List String} {entries entries' : Entries Value} {v : Value}

/-- The keys of all members in entries. -/
def keys (entries : Entries Value) : List String := memberKeys (Node.members entries)

/-- Entries and those behind them have the keys of both. -/
theorem keys_append (entries entries' : Entries Value) :
    keys (entries ++ entries') = keys entries ++ keys entries' := by
  rw [keys, Node.members_append, memberKeys_append]
  rfl

/-- The keys of entries are the first key, those of its value and those of the rest. -/
theorem keys_cons (key : String) (node : Node Value) (entries : Entries Value) :
    keys ((key, node) :: entries) = key :: (node.value.keys ++ keys entries) := by
  rw [keys, Node.members, memberKeys]
  rfl

/-- All keys of the first entries and more are in the second. -/
def Keeps (more : List String) (entries entries' : Entries Value) : Prop :=
  ∀ name, name ∈ keys entries ∨ name ∈ more → name ∈ keys entries'

/-- A node that keeps the keys and has more of them may be put in the place of a node. -/
theorem keeps_replace {node node' : Node Value} (h : get? key entries = some node)
    (hnode : ∀ name, name ∈ node.value.keys ∨ name ∈ more → name ∈ node'.value.keys) :
    Keeps (key :: more) entries (replace key node' entries) := by
  induction entries with
  | nil => simp [get?] at h
  | cons m entries ih =>
    obtain ⟨key', n⟩ := m
    rw [get?] at h
    intro name hname
    rw [replace]
    simp only [keys_cons, List.mem_cons, List.mem_append] at hname
    split_ifs at h ⊢ with hkey
    · obtain rfl := Option.some.inj h
      have hold := hnode name
      simp only [keys_cons, List.mem_cons, List.mem_append]
      grind
    · have hrest := ih h name
      simp only [keys_cons, List.mem_cons, List.mem_append] at hrest ⊢
      grind

/-- Work below a key keeps the keys, and its own are kept below the key. -/
theorem keeps_within {fresh : Standing}
    {work : Standing → Entries Value → Option (Entries Value)}
    (hwork : ∀ standing inner inner', work standing inner = some inner' → Keeps more inner inner')
    (h : within key fresh work entries = some entries') :
    Keeps (key :: more) entries entries' := by
  unfold within at h
  split at h
  -- The key is new, or has entries below it, or stands for tables in a row, of which the last one
  -- is worked on.
  · obtain ⟨inner, hinner, rfl⟩ := Option.map_eq_some_iff.mp h
    intro name hname
    have hmore := hwork _ _ _ hinner name
    simp only [keys_append, keys_cons, Node.value, Value.keys, List.mem_append, List.mem_cons]
    change name ∈ keys entries ∨ name = key ∨ name ∈ keys inner ∨ name ∈ keys []
    rcases hname with hname | hname
    · exact .inl hname
    · rcases List.mem_cons.mp hname with rfl | hname
      · exact .inr (.inl rfl)
      · exact .inr (.inr (.inl (hmore (.inr hname))))
  · simp at h
  · rename_i standing inner hget
    obtain ⟨inner', hinner, rfl⟩ := Option.map_eq_some_iff.mp h
    exact keeps_replace hget (hwork _ _ _ hinner)
  · rename_i elements hget
    split at h
    · simp at h
    · rename_i last hlast
      obtain ⟨inner', hinner, rfl⟩ := Option.map_eq_some_iff.mp h
      refine keeps_replace hget fun name hname => ?_
      have hmore := hwork _ _ _ hinner name
      rw [← List.dropLast_append_getLast? last hlast] at hname
      simp only [Node.value, Value.keys, Node.elements_append, itemKeys_append, Node.elements,
        itemKeys, List.mem_append] at hname ⊢
      rcases hname with (hname | hname | hname) | hname
      · exact .inl hname
      · exact .inr (.inl (hmore (.inl hname)))
      · exact .inr (.inr hname)
      · exact .inr (.inl (hmore (.inr hname)))

/-- Assigning a key keeps all keys and brings in the key and those of the value. -/
theorem keeps_assignKey (h : assignKey key v entries = some entries') :
    Keeps (key :: v.keys) entries entries' := by
  unfold assignKey at h
  split at h
  · obtain rfl := Option.some.inj h
    intro name hname
    simp only [keys_append, keys_cons, Node.value, List.mem_append, List.mem_cons] at hname ⊢
    rcases hname with hname | hname | hname
    · exact .inl hname
    · exact .inr (.inl hname)
    · exact .inr (.inr (.inl hname))
  · simp at h

/-- Assigning a key below a path keeps all keys and brings in those of the path and of the value. -/
theorem keeps_assignBelow (h : assignBelow path key v entries = some entries') :
    Keeps (path ++ key :: v.keys) entries entries' := by
  induction path generalizing entries entries' with
  | nil => exact keeps_assignKey h
  | cons part path ih =>
    rw [assignBelow] at h
    split at h
    · simp at h
    · refine keeps_within (fun standing inner inner' hinner => ?_) h
      split_ifs at hinner
      exact ih hinner

/-- An assignment keeps the keys and adds its own and those of its value. -/
theorem keeps_assign (h : assign path v entries = some entries') :
    Keeps (path ++ v.keys) entries entries' := by
  unfold assign at h
  split at h
  · simp at h
  · rename_i key hkey
    have hpath := List.dropLast_append_getLast? key hkey
    have hkeeps := keeps_assignBelow h
    rwa [← List.singleton_append, ← List.append_assoc, hpath] at hkeeps

end Entries

end Repertoire.Toml
