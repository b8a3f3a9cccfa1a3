import Mathlib.Data.List.Nodup
import Repertoire.Manifest.Structured
import Repertoire.Proofs.Toml.Outline
import Repertoire.Proofs.Toml.Reading

/-!
# Tables with distinct keys

No table that a document writes has two members of one key, at any depth. A statement that would
give a key a second meaning is refused, and what is added to a table stands under a new key or in
the place of what was there. The invariant is carried by everything that is done to entries while a
document is read, from a single key up to a header, and inline tables bring it along.

So the arguments of a tool that was read from a table have distinct keys, whereas other formats may
declare a key twice.
-/

namespace Repertoire.Toml

open Repertoire.Text Literal

/-- No table in the value has two members of one key. -/
inductive Value.Distinct : Value → Prop
  | string (text : String) : Distinct (.string text)
  | integer (value : Int) : Distinct (.integer value)
  | float (value : Decimal.Binary64) : Distinct (.float value)
  | bool (value : Bool) : Distinct (.bool value)
  | dateTime (value : DateTime) : Distinct (.dateTime value)
  | array {items : List Value} (h : ∀ v ∈ items, v.Distinct) : Distinct (.array items)
  | table {members : List (String × Value)} (hkeys : (members.map Prod.fst).Nodup)
      (h : ∀ m ∈ members, m.2.Distinct) : Distinct (.table members)

/-- The members of a finished table are those of its nodes. -/
theorem Node.members_eq_map (entries : Entries Value) :
    Node.members entries = List.map (fun m => (m.1, m.2.value)) entries := by
  induction entries with
  | nil => rfl
  | cons m entries ih => rw [Node.members, ih, List.map_cons]

/-- The elements of a finished array are its finished tables. -/
theorem Node.elements_eq_map (elements : List (Entries Value)) :
    Node.elements elements = elements.map fun e => .table (Node.members e) := by
  induction elements with
  | nil => rfl
  | cons e elements ih => rw [Node.elements, ih, List.map_cons]

namespace Entries

/-- The keys of entries, without those further down. -/
def names (entries : Entries Value) : List String := List.map Prod.fst entries

/-- The keys are distinct, here and in all values. -/
structure Distinct (entries : Entries Value) : Prop where
  nodup : (names entries).Nodup
  values : ∀ m ∈ entries, m.2.value.Distinct

variable {key : String} {path : List String} {entries entries' : Entries Value} {v : Value}

/-- Entries have distinct keys exactly when the table of them has. -/
theorem distinct_iff : Distinct entries ↔ (Value.table (Node.members entries)).Distinct := by
  rw [Node.members_eq_map]
  constructor
  · intro h
    refine .table ?_ fun m hm => ?_
    · rw [List.map_map]
      exact h.nodup
    · obtain ⟨n, hn, rfl⟩ := List.mem_map.mp hm
      exact h.values n hn
  · rintro (_ | _ | _ | _ | _ | _ | ⟨hnames, hvalues⟩)
    rw [List.map_map] at hnames
    exact ⟨hnames, fun m hm => hvalues _ (List.mem_map_of_mem hm)⟩

theorem distinct_nil : Distinct [] := ⟨List.nodup_nil, fun _ h => absurd h List.not_mem_nil⟩

/-- What is found under a key is one of the entries. -/
theorem mem_of_get? {node : Node Value} (h : get? key entries = some node) :
    (key, node) ∈ entries := by
  induction entries with
  | nil => simp [get?] at h
  | cons m entries ih =>
    rw [get?] at h
    split_ifs at h with hkey
    · obtain rfl := Option.some.inj h
      exact hkey ▸ List.mem_cons_self
    · exact List.mem_cons_of_mem _ (ih h)

/-- Nothing is found under a key exactly when it is none of the keys. -/
theorem get?_eq_none_iff : get? key entries = none ↔ key ∉ names entries := by
  induction entries with
  | nil => simp [get?, names]
  | cons m entries ih =>
    rw [get?, names, List.map_cons, List.mem_cons, not_or, ← names, ← ih]
    split_ifs with hkey
    · simp [hkey]
    · simp [Ne.symm hkey]

/-- Replacing a node leaves the keys. -/
theorem names_replace (node : Node Value) (entries : Entries Value) :
    names (replace key node entries) = names entries := by
  induction entries with
  | nil => rfl
  | cons m entries ih =>
    rw [names] at ih
    rw [replace, names]
    split_ifs
    · rfl
    · rw [List.map_cons, ih]
      rfl

/-- Replacing a node brings in that node only. -/
theorem eq_or_mem_of_mem_replace {node : Node Value} {m : String × Node Value}
    (h : m ∈ replace key node entries) : m.2 = node ∨ m ∈ entries := by
  induction entries with
  | nil => exact .inr h
  | cons n entries ih =>
    rw [replace] at h
    split_ifs at h
    · rcases List.mem_cons.mp h with rfl | h
      · exact .inl rfl
      · exact .inr (List.mem_cons_of_mem _ h)
    · rcases List.mem_cons.mp h with rfl | h
      · exact .inr List.mem_cons_self
      · exact (ih h).imp_right (List.mem_cons_of_mem _)

/-- A node under a new key keeps the keys distinct. -/
theorem Distinct.append (h : Distinct entries) {node : Node Value} (hnew : key ∉ names entries)
    (hnode : node.value.Distinct) : Distinct (entries ++ [(key, node)]) where
  nodup := by
    rw [names, List.map_append, List.nodup_append_comm]
    exact List.nodup_cons.mpr ⟨hnew, h.nodup⟩
  values := by
    intro m hm
    rcases List.mem_append.mp hm with hm | hm
    · exact h.values m hm
    · obtain rfl := List.mem_singleton.mp hm
      exact hnode

/-- A node in the place of another keeps the keys distinct. -/
theorem Distinct.replace (h : Distinct entries) {node : Node Value} (hnode : node.value.Distinct) :
    Distinct (replace key node entries) where
  nodup := names_replace node entries ▸ h.nodup
  values := by
    intro m hm
    rcases eq_or_mem_of_mem_replace hm with hm | hm
    · exact hm ▸ hnode
    · exact h.values m hm

/-- Fewer entries have distinct keys. -/
theorem Distinct.erase (h : Distinct entries) (key : String) : Distinct (erase key entries) where
  nodup := h.nodup.sublist (List.filter_sublist.map Prod.fst)
  values := fun m hm => h.values m (List.mem_of_mem_filter hm)

/-- A key that was erased is none of the keys. -/
theorem not_mem_names_erase (entries : Entries Value) : key ∉ names (erase key entries) := by
  simp [names, erase]

/-- Work keeps keys distinct. -/
def KeepsDistinct (work : Entries Value → Option (Entries Value)) : Prop :=
  ∀ entries entries', work entries = some entries' → Distinct entries → Distinct entries'

/-- An array of tables has distinct keys exactly when every element has. -/
theorem distinct_tables_iff {elements : List (Entries Value)} :
    (Node.tables elements).value.Distinct ↔ ∀ e ∈ elements, Distinct e := by
  rw [Node.value, Node.elements_eq_map]
  constructor
  · rintro (_ | _ | _ | _ | _ | hall | _) e he
    exact distinct_iff.mpr (hall _ (List.mem_map_of_mem he))
  · intro hall
    refine .array fun v hv => ?_
    obtain ⟨e, he, rfl⟩ := List.mem_map.mp hv
    exact distinct_iff.mp (hall e he)

/-- Work that keeps keys distinct does so below a key. -/
theorem keepsDistinct_within {fresh : Standing}
    {work : Standing → Entries Value → Option (Entries Value)}
    (hwork : ∀ standing, KeepsDistinct (work standing)) :
    KeepsDistinct (within key fresh work) := by
  intro entries entries' h hd
  unfold within at h
  split at h
  · rename_i hget
    obtain ⟨inner, hinner, rfl⟩ := Option.map_eq_some_iff.mp h
    have hnew := hwork _ _ _ hinner distinct_nil
    exact hd.append (get?_eq_none_iff.mp hget) (distinct_iff.mp hnew)
  · simp at h
  · rename_i standing inner hget
    obtain ⟨inner', hinner, rfl⟩ := Option.map_eq_some_iff.mp h
    have hold : Distinct inner := distinct_iff.mpr (hd.values _ (mem_of_get? hget))
    exact hd.replace (distinct_iff.mp (hwork _ _ _ hinner hold))
  · rename_i elements hget
    split at h
    · simp at h
    · rename_i last hlast
      obtain ⟨inner', hinner, rfl⟩ := Option.map_eq_some_iff.mp h
      have hall := distinct_tables_iff.mp (hd.values _ (mem_of_get? hget))
      have hnew := hwork _ _ _ hinner (hall last (List.mem_of_getLast? hlast))
      refine hd.replace (distinct_tables_iff.mpr fun e he => ?_)
      rcases List.mem_append.mp he with he | he
      · exact hall e ((List.dropLast_sublist elements).subset he)
      · exact List.mem_singleton.mp he ▸ hnew

/-- Work that keeps keys distinct does so at the end of a path. -/
theorem keepsDistinct_atPath {work : Entries Value → Option (Entries Value)}
    (hwork : KeepsDistinct work) : KeepsDistinct (atPath path work) := by
  induction path with
  | nil => exact hwork
  | cons key path ih => exact keepsDistinct_within fun _ => ih

/-- Assigning a key keeps keys distinct. -/
theorem keepsDistinct_assignKey (hv : v.Distinct) : KeepsDistinct (assignKey key v) := by
  intro entries entries' h hd
  unfold assignKey at h
  split at h
  · rename_i hget
    obtain rfl := Option.some.inj h
    exact hd.append (get?_eq_none_iff.mp hget) hv
  · simp at h

/-- Assigning a key below a path keeps keys distinct. -/
theorem keepsDistinct_assignBelow (hv : v.Distinct) : KeepsDistinct (assignBelow path key v) := by
  induction path with
  | nil => exact keepsDistinct_assignKey hv
  | cons part path ih =>
    intro entries entries' h
    rw [assignBelow] at h
    split at h
    · simp at h
    · refine keepsDistinct_within (fun standing inner inner' hinner => ?_) entries entries' h
      split_ifs at hinner
      exact ih inner inner' hinner

/-- An assignment keeps keys distinct. -/
theorem keepsDistinct_assign (hv : v.Distinct) : KeepsDistinct (assign path v) := by
  intro entries entries' h
  unfold assign at h
  split at h
  · simp at h
  · exact keepsDistinct_assignBelow hv entries entries' h

/-- A header keeps keys distinct. -/
theorem keepsDistinct_openTable : KeepsDistinct (openTable path) := by
  intro entries entries' h
  unfold openTable at h
  split at h
  · simp at h
  · refine keepsDistinct_atPath (fun parent parent' hparent hd => ?_) entries entries' h
    split at hparent
    · rename_i hget
      obtain rfl := Option.some.inj hparent
      exact hd.append (get?_eq_none_iff.mp hget) (distinct_iff.mp distinct_nil)
    · rename_i inner hget
      obtain rfl := Option.some.inj hparent
      exact (hd.erase _).append (not_mem_names_erase parent) (hd.values _ (mem_of_get? hget))
    · simp at hparent

/-- A header of an array of tables keeps keys distinct. -/
theorem keepsDistinct_openElement : KeepsDistinct (openElement path) := by
  intro entries entries' h
  unfold openElement at h
  split at h
  · simp at h
  · refine keepsDistinct_atPath (fun parent parent' hparent hd => ?_) entries entries' h
    split at hparent
    · rename_i hget
      obtain rfl := Option.some.inj hparent
      refine hd.append (get?_eq_none_iff.mp hget) (distinct_tables_iff.mpr fun e he => ?_)
      exact List.mem_singleton.mp he ▸ distinct_nil
    · rename_i elements hget
      obtain rfl := Option.some.inj hparent
      have hall := distinct_tables_iff.mp (hd.values _ (mem_of_get? hget))
      refine hd.replace (distinct_tables_iff.mpr fun e he => ?_)
      rcases List.mem_append.mp he with he | he
      · exact hall e he
      · exact List.mem_singleton.mp he ▸ distinct_nil
    · simp at hparent

/-- Steps that keep keys distinct do so one after another. -/
theorem distinct_foldlM {σ ι : Type} {step : σ → ι → Option σ} {s s' : σ} {xs : List ι}
    (entries : σ → Entries Value) (h : xs.foldlM step s = some s')
    (hstep : ∀ x ∈ xs, ∀ s s', step s x = some s' → Distinct (entries s) → Distinct (entries s'))
    (hd : Distinct (entries s)) : Distinct (entries s') := by
  induction xs generalizing s with
  | nil =>
    obtain rfl := Option.some.inj h
    exact hd
  | cons x xs ih =>
    rw [List.foldlM_cons] at h
    obtain ⟨s₁, hs₁, hrest⟩ := Option.bind_eq_some_iff.mp h
    have hfirst := hstep x List.mem_cons_self s s₁ hs₁ hd
    exact ih hrest (fun y hy => hstep y (List.mem_cons_of_mem _ hy)) hfirst

/-- An inline table has distinct keys if what is assigned in it has. -/
theorem distinct_inlineEntries? {assignments : List (List String × Value)}
    (h : inlineEntries? assignments = some entries) (hall : ∀ a ∈ assignments, a.2.Distinct) :
    Distinct entries := by
  rw [inlineEntries?_eq_foldlM] at h
  exact distinct_foldlM id h
    (fun a ha s s' hs => keepsDistinct_assign (hall a ha) s s' hs) distinct_nil

end Entries

/-! ## What is read -/

variable {fuel : ℕ}

/-- A number or date has no members. -/
theorem distinct_scanNumeric {cs rest : List Char} {v : Value}
    (h : scanNumeric cs = some (v, rest)) : v.Distinct := by
  unfold scanNumeric at h
  split at h
  · obtain ⟨rfl, -⟩ := Prod.mk.inj (Option.some.inj h)
    exact .dateTime _
  · split at h
    · obtain ⟨rfl, -⟩ := Prod.mk.inj (Option.some.inj h)
      exact .float _
    · split at h
      · obtain ⟨rfl, -⟩ := Prod.mk.inj (Option.some.inj h)
        exact .float _
      · obtain ⟨x, -, hx⟩ := Option.map_eq_some_iff.mp h
        obtain ⟨rfl, -⟩ := Prod.mk.inj hx
        exact .integer _

/-- All values that a reader finds with some fuel have distinct keys. -/
structure ReadsDistinct (fuel : ℕ) : Prop where
  value : ∀ {room cs v rest}, scanValue fuel room cs = some (v, rest) → v.Distinct
  items : ∀ {room cs items rest}, scanItems fuel room cs = some (items, rest) →
    ∀ v ∈ items, v.Distinct
  assignments : ∀ {room cs assignments rest}, scanAssignments fuel room cs =
    some (assignments, rest) → ∀ a ∈ assignments, a.2.Distinct

/-- Values have distinct keys if what they contain has. -/
theorem Front.distinct {room : ℕ} {cs rest : List Char} {v : Value}
    (h : Front fuel room cs v rest) (ih : ReadsDistinct fuel) : v.Distinct := by
  cases h with
  | string => exact .string _
  | emptyArray => exact .array fun v hv => absurd hv List.not_mem_nil
  | array _ _ _ _ _ hread => exact .array (ih.items hread)
  | emptyTable => exact .table List.nodup_nil fun m hm => absurd hm List.not_mem_nil
  | table _ _ _ _ _ _ hread hentries =>
    exact Entries.distinct_iff.mp (Entries.distinct_inlineEntries? hentries (ih.assignments hread))
  | true => exact .bool _
  | false => exact .bool _
  | numeric _ _ _ _ hnumeric => exact distinct_scanNumeric hnumeric

/-- Every value that is read has distinct keys. The induction is on the fuel, for values together
with the items and the assignments in them. -/
theorem readsDistinct (fuel : ℕ) : ReadsDistinct fuel := by
  induction fuel with
  | zero =>
    constructor
    · intro room cs v rest h
      simp [scanValue] at h
    · intro room cs items rest h
      simp [scanItems] at h
    · intro room cs assignments rest h
      simp [scanAssignments] at h
  | succ fuel ih =>
    constructor
    · intro room cs v rest h
      exact (scanValue_eq_some.mp h).distinct ih
    · intro room cs items rest h
      rcases scanItems_eq_some.mp h with ⟨v, ⟨_, hitem, -⟩, rfl⟩ | ⟨v, _, ⟨_, hitem, -⟩, -, rfl⟩ |
        ⟨v, _, items', ⟨_, hitem, -⟩, -, hmore, rfl⟩
      · exact List.forall_mem_singleton.mpr (ih.value hitem)
      · exact List.forall_mem_singleton.mpr (ih.value hitem)
      · exact List.forall_mem_cons.mpr ⟨ih.value hitem, ih.items hmore⟩
    · intro room cs assignments rest h
      rcases scanAssignments_eq_some.mp h with ⟨path, v, ⟨_, _, -, hvalue, -⟩, rfl⟩ |
        ⟨path, v, _, assignments', ⟨_, _, -, hvalue, -⟩, hmore, rfl⟩
      · exact List.forall_mem_singleton.mpr (ih.value hvalue)
      · exact List.forall_mem_cons.mpr ⟨ih.value hvalue, ih.assignments hmore⟩

/-- What a statement brings in has distinct keys. -/
def Statement.Distinct : Statement Value → Prop
  | .assignment _ v => v.Distinct
  | _ => True

/-- A statement that is read brings in distinct keys. -/
theorem StatementAt.distinct {cs rest : List Char} {s : Statement Value}
    (h : StatementAt cs s rest) : s.Distinct := by
  cases h with
  | element | header => trivial
  | assignment _ _ _ _ _ _ _ _ _ hvalue => exact (readsDistinct _).value hvalue

/-- All statements that are read bring in distinct keys. -/
theorem StatementsAt.distinct {cs : List Char} {ss : List (Statement Value)}
    (h : StatementsAt cs ss) : ∀ s ∈ ss, s.Distinct := by
  induction h with
  | done => exact fun s hs => absurd hs List.not_mem_nil
  | comment => exact fun s hs => absurd hs List.not_mem_nil
  | next cs after s ss h hrest ih => exact List.forall_mem_cons.mpr ⟨h.distinct, ih⟩

/-- A statement that is carried out keeps keys distinct. -/
theorem Statement.distinct_carryOut {s : Statement Value} (hs : s.Distinct)
    (state state' : List String × Entries Value) (h : Statement.carryOut state s = some state')
    (hd : Entries.Distinct state.2) : Entries.Distinct state'.2 := by
  cases s with
  | header path =>
    obtain ⟨e, he, rfl⟩ := Option.map_eq_some_iff.mp h
    exact Entries.keepsDistinct_openTable _ _ he hd
  | element path =>
    obtain ⟨e, he, rfl⟩ := Option.map_eq_some_iff.mp h
    exact Entries.keepsDistinct_openElement _ _ he hd
  | assignment path value =>
    obtain ⟨e, he, rfl⟩ := Option.map_eq_some_iff.mp h
    exact Entries.keepsDistinct_atPath (Entries.keepsDistinct_assign hs) _ _ he hd

/-- A document writes a table with distinct keys. -/
theorem distinct_ofString? {content : String} {members : List (String × Value)}
    (h : ofString? content = some members) : (Value.table members).Distinct := by
  rw [ofString?, readDocument] at h
  split at h
  · simp at h
  · rename_i statements hstatements
    obtain ⟨state, hstate, rfl⟩ := Option.map_eq_some_iff.mp h
    have hall := (statementsAt_of_scanStatements hstatements).distinct
    refine Entries.distinct_iff.mp ?_
    exact Entries.distinct_foldlM Prod.snd hstate
      (fun s hs => Statement.distinct_carryOut (hall s hs)) Entries.distinct_nil

end Repertoire.Toml
