import Mathlib.Algebra.GroupWithZero.Nat
import Repertoire.Proofs.Toml.Table

/-!
# TOML values and statements with gaps

Tables are put together without a look at what is assigned to their keys. So they can be put
together from values with gaps, and a word put into the gaps of the result gives what the values
with the word in their gaps are put together to. No gap is doubled on the way.
-/

namespace Repertoire.Toml

open Repertoire.Text

variable {α β : Type} {word w : List Char}

/-- What TOML makes of texts, lists and records. -/
def Value.form : Form Value String := ⟨fun cs => .string (String.ofList cs), .array, .table⟩

/-- A value with gaps. -/
abbrev Value.Draft := Outline Value String

/-- The value with a word in its gaps. -/
abbrev Value.Draft.fill (w : List Char) (o : Value.Draft) : Value := Outline.fill Value.form w o

/-! ## Finished tables -/

mutual

/-- What a finished node stands for. -/
def Node.outline : Node Value.Draft → Value.Draft
  | .leaf o => o
  | .table _ entries => .record (Entries.outlines entries)
  | .tables elements => .list (Entries.eachOutline elements)

/-- The members of a finished table. -/
def Entries.outlines : Entries Value.Draft → List (String × Value.Draft)
  | [] => []
  | (key, n) :: rest => (key, n.outline) :: Entries.outlines rest

/-- The elements of a finished array of tables. -/
def Entries.eachOutline : List (Entries Value.Draft) → List Value.Draft
  | [] => []
  | e :: es => .record (Entries.outlines e) :: Entries.eachOutline es

end

mutual

/-- A word in the gaps of a finished node is the word in the values that it is made of. -/
theorem Node.fill_outline (n : Node Value.Draft) :
    n.outline.fill w = (n.map (Value.Draft.fill w)).value := by
  cases n with
  | leaf o => rfl
  | table standing entries =>
    rw [Node.outline, Node.map, Node.value, ← Entries.fill_outlines entries]
    rfl
  | tables elements =>
    rw [Node.outline, Node.map, Node.value, ← Entries.fill_eachOutline elements]
    rfl

/-- A word in the gaps of finished entries is the word in the values that they are made of. -/
theorem Entries.fill_outlines (entries : Entries Value.Draft) :
    Outline.fillMembers Value.form w (Entries.outlines entries) =
      Node.members (Entries.map (Value.Draft.fill w) entries) := by
  match entries with
  | [] => rfl
  | (key, n) :: rest =>
    rw [Entries.outlines, Outline.fillMembers, Entries.map, Node.members,
      Entries.fill_outlines rest, ← Node.fill_outline n]

/-- A word in the gaps of finished elements is the word in the values that they are made of. -/
theorem Entries.fill_eachOutline (elements : List (Entries Value.Draft)) :
    Outline.fillItems Value.form w (Entries.eachOutline elements) =
      Node.elements (Entries.mapEach (Value.Draft.fill w) elements) := by
  match elements with
  | [] => rfl
  | e :: es =>
    rw [Entries.eachOutline, Outline.fillItems, Entries.mapEach, Node.elements,
      Entries.fill_eachOutline es, ← Entries.fill_outlines e]
    rfl

end

mutual

/-- A finished node has the gaps of the values that it is made of. -/
theorem Node.gaps_outline (n : Node Value.Draft) : n.outline.gaps = n.size Outline.gaps := by
  cases n with
  | leaf o => rfl
  | table standing entries => exact Entries.gaps_outlines entries
  | tables elements => exact Entries.gaps_eachOutline elements

/-- Finished entries have the gaps of the values that they are made of. -/
theorem Entries.gaps_outlines (entries : Entries Value.Draft) :
    Outline.membersGaps (Entries.outlines entries) = Entries.size Outline.gaps entries := by
  match entries with
  | [] => rfl
  | (key, n) :: rest =>
    rw [Entries.outlines, Outline.membersGaps, Entries.size, Entries.gaps_outlines rest,
      Node.gaps_outline n]

/-- Finished elements have the gaps of the values that they are made of. -/
theorem Entries.gaps_eachOutline (elements : List (Entries Value.Draft)) :
    Outline.itemsGaps (Entries.eachOutline elements) =
      Entries.sizeEach Outline.gaps elements := by
  match elements with
  | [] => rfl
  | e :: es =>
    rw [Entries.eachOutline, Outline.itemsGaps, Entries.sizeEach, Entries.gaps_eachOutline es,
      ← Entries.gaps_outlines e]
    rfl

end

/-! ## Putting tables together -/

/-- Steps that do not look at the data take other data along. -/
theorem foldlM_map_some {σ τ ι κ : Type} {step : σ → ι → Option σ} {step' : τ → κ → Option τ}
    (f : σ → τ) (g : ι → κ) (hstep : ∀ s x, step' (f s) (g x) = (step s x).map f) (s : σ)
    (xs : List ι) : (xs.map g).foldlM step' (f s) = (xs.foldlM step s).map f := by
  induction xs generalizing s with
  | nil => rfl
  | cons x xs ih =>
    rw [List.map_cons, List.foldlM_cons, List.foldlM_cons, hstep]
    cases step s x with
    | none => rfl
    | some s' => exact ih s'

/-- Assignments with other values. -/
def mapValues (f : α → β) (assignments : List (List String × α)) : List (List String × β) :=
  assignments.map fun a => (a.1, f a.2)

/-- An inline table is put together assignment by assignment. -/
theorem inlineEntries?_eq_foldlM (assignments : List (List String × α)) :
    inlineEntries? assignments =
      assignments.foldlM (fun entries a => Entries.assign a.1 a.2 entries) [] := rfl

/-- An inline table is put together without a look at the values. -/
theorem inlineEntries?_map (f : α → β) (assignments : List (List String × α)) :
    inlineEntries? (mapValues f assignments) =
      (inlineEntries? assignments).map (Entries.map f) :=
  foldlM_map_some (Entries.map f) (fun a : List String × α => (a.1, f a.2))
    (fun _ _ => Entries.assign_map _) [] assignments

/-- The statement with another value. -/
def Statement.map (f : α → β) : Statement α → Statement β
  | .header path => .header path
  | .element path => .element path
  | .assignment path value => .assignment path (f value)

/-- A statement is carried out without a look at its value. -/
theorem Statement.carryOut_map (f : α → β) (state : List String × Entries α) (s : Statement α) :
    Statement.carryOut (state.1, Entries.map f state.2) (s.map f) =
      (Statement.carryOut state s).map fun out => (out.1, Entries.map f out.2) := by
  obtain ⟨current, entries⟩ := state
  cases s with
  | header path =>
    simp only [Statement.map, Statement.carryOut, Entries.openTable_map, Option.map_map]
    rfl
  | element path =>
    simp only [Statement.map, Statement.carryOut, Entries.openElement_map, Option.map_map]
    rfl
  | assignment path value =>
    have hassign : ∀ inner, Entries.assign path (f value) (Entries.map f inner) =
        (Entries.assign path value inner).map (Entries.map f) := fun _ => Entries.assign_map value
    simp only [Statement.map, Statement.carryOut, Option.map_map, Entries.atPath_map hassign]
    rfl

/-- The entries of a document from its statements in order. -/
def Entries.ofStatements? (statements : List (Statement α)) : Option (Entries α) :=
  (statements.foldlM Statement.carryOut ([], [])).map Prod.snd

/-- A document is put together without a look at its values. -/
theorem Entries.ofStatements?_map (f : α → β) (statements : List (Statement α)) :
    Entries.ofStatements? (statements.map (Statement.map f)) =
      (Entries.ofStatements? statements).map (Entries.map f) := by
  have hfold := foldlM_map_some (fun out : List String × Entries α => (out.1, Entries.map f out.2))
    (Statement.map f) (Statement.carryOut_map f) ([], []) statements
  rw [Entries.map] at hfold
  rw [Entries.ofStatements?, hfold, Entries.ofStatements?, Option.map_map, Option.map_map]
  rfl

/-! ## No gap is doubled -/

/-- The size of the value of a statement. -/
def Statement.size (g : α → ℕ) : Statement α → ℕ
  | .assignment _ value => g value
  | _ => 0

variable {g : α → ℕ}

/-- Steps that add no more than the size of what they are given. -/
theorem size_foldlM {σ ι : Type} {step : σ → ι → Option σ} {s s' : σ} {xs : List ι}
    (h : xs.foldlM step s = some s') (size : σ → ℕ) (weight : ι → ℕ)
    (hstep : ∀ s x s', step s x = some s' → size s' ≤ size s + weight x) :
    size s' ≤ size s + (xs.map weight).sum := by
  induction xs generalizing s with
  | nil =>
    obtain rfl := Option.some.inj h
    simp
  | cons x xs ih =>
    rw [List.foldlM_cons] at h
    obtain ⟨s₁, hs₁, h⟩ := Option.bind_eq_some_iff.mp h
    have hfirst := hstep _ _ _ hs₁
    have hrest := ih h
    rw [List.map_cons, List.sum_cons]
    omega

/-- An inline table is no larger than what is assigned in it. -/
theorem size_inlineEntries? {assignments : List (List String × α)} {entries : Entries α}
    (h : inlineEntries? assignments = some entries) :
    Entries.size g entries ≤ (assignments.map fun a => g a.2).sum := by
  rw [inlineEntries?_eq_foldlM] at h
  have hle := size_foldlM h (Entries.size g) (fun a => g a.2)
    fun _ _ _ hassign => Entries.size_assign hassign
  simpa [Entries.size] using hle

/-- A statement adds no more than its value. -/
theorem Statement.size_carryOut {state state' : List String × Entries α} {s : Statement α}
    (h : Statement.carryOut state s = some state') :
    Entries.size g state'.2 ≤ Entries.size g state.2 + s.size g := by
  obtain ⟨current, entries⟩ := state
  cases s with
  | header path =>
    obtain ⟨e, he, rfl⟩ := Option.map_eq_some_iff.mp h
    exact Entries.size_openTable he
  | element path =>
    obtain ⟨e, he, rfl⟩ := Option.map_eq_some_iff.mp h
    exact Entries.size_openElement he
  | assignment path value =>
    obtain ⟨e, he, rfl⟩ := Option.map_eq_some_iff.mp h
    exact Entries.size_atPath (fun _ _ hassign => Entries.size_assign hassign) he

/-- A document is no larger than its statements. -/
theorem Entries.size_ofStatements? {statements : List (Statement α)} {entries : Entries α}
    (h : Entries.ofStatements? statements = some entries) :
    Entries.size g entries ≤ (statements.map (Statement.size g)).sum := by
  obtain ⟨state, hstate, rfl⟩ := Option.map_eq_some_iff.mp h
  have hle := size_foldlM hstate (fun state => Entries.size g state.2) (Statement.size g)
    fun _ _ _ hs => Statement.size_carryOut hs
  simpa [Entries.size] using hle

/-- The keys in a statement and in its value. -/
def Statement.keys : Statement Value → List String
  | .header path => path
  | .element path => path
  | .assignment path value => path ++ value.keys

/-- The keys in the assignments of an inline table are in the table. -/
theorem keys_inlineEntries? {assignments : List (List String × Value)} {entries : Entries Value}
    (h : inlineEntries? assignments = some entries) :
    ∀ a ∈ assignments, ∀ name ∈ a.1 ++ a.2.keys, name ∈ Entries.keys entries := by
  rw [inlineEntries?_eq_foldlM] at h
  have hfold : ∀ {start : Entries Value}, assignments.foldlM
      (fun entries a => Entries.assign a.1 a.2 entries) start = some entries →
      ∀ name, name ∈ Entries.keys start ∨ (∃ a ∈ assignments, name ∈ a.1 ++ a.2.keys) →
        name ∈ Entries.keys entries := by
    intro start hstart name hname
    clear h
    induction assignments generalizing start with
    | nil =>
      obtain rfl := Option.some.inj hstart
      simpa using hname
    | cons a assignments ih =>
      rw [List.foldlM_cons] at hstart
      obtain ⟨next, hnext, hrest⟩ := Option.bind_eq_some_iff.mp hstart
      have hkeeps := Entries.keeps_assign hnext name
      refine ih hrest ?_
      rcases hname with hname | ⟨a', ha', hname⟩
      · exact .inl (hkeeps (.inl hname))
      · rcases List.mem_cons.mp ha' with rfl | ha'
        · exact .inl (hkeeps (.inr hname))
        · exact .inr ⟨a', ha', hname⟩
  exact fun a ha name hname => hfold h name (.inr ⟨a, ha, hname⟩)

end Repertoire.Toml
