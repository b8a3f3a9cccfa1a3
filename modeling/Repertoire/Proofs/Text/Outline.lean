import Repertoire.Proofs.Text.Draft

/-!
# Documents with a gap

An outline is a document in which texts are drafts: lists and records are there as they will be,
and a word put in changes nothing but the texts that have a gap. Formats differ in what a text, a
list and a record are to them; a form says that much about a format.
-/

namespace Repertoire.Text

/-- What texts, lists and records are to a format. -/
structure Form (α κ : Type) where
  text : List Char → α
  list : List α → α
  record : List (κ × α) → α

/-- A document whose texts may have gaps. -/
inductive Outline (α κ : Type) where
  | fixed (value : α)
  | text (draft : Draft)
  | list (items : List (Outline α κ))
  | record (members : List (κ × Outline α κ))

/-- No name has the word in it that a dollar sign starts. -/
def Unnamed (word : List Char) (names : List (List Char)) : Prop :=
  ∀ name ∈ names, ¬ '$' :: word <:+: name

namespace Outline

variable {α κ : Type} (form : Form α κ) (w : List Char)

mutual

/-- The document with a word in its gaps. -/
def fill : Outline α κ → α
  | fixed value => value
  | text draft => form.text (draft.fill w)
  | list items => form.list (fillItems items)
  | record members => form.record (fillMembers members)

/-- The items of a list with a word in their gaps. -/
def fillItems : List (Outline α κ) → List α
  | [] => []
  | o :: os => fill o :: fillItems os

/-- The members of a record with a word in their gaps. -/
def fillMembers : List (κ × Outline α κ) → List (κ × α)
  | [] => []
  | (key, o) :: os => (key, fill o) :: fillMembers os

end

/-- A word is put into each of the items. -/
theorem fillItems_eq_map (os : List (Outline α κ)) : fillItems form w os = os.map (fill form w) := by
  induction os with
  | nil => rfl
  | cons o os ih => rw [fillItems, ih, List.map_cons]

/-- A word is put into each of the members and into no name. -/
theorem fillMembers_eq_map (os : List (κ × Outline α κ)) :
    fillMembers form w os = os.map fun m => (m.1, m.2.fill form w) := by
  induction os with
  | nil => rfl
  | cons m os ih => rw [fillMembers, ih, List.map_cons]

mutual

/-- The number of gaps. -/
def gaps : Outline α κ → ℕ
  | fixed _ => 0
  | text draft => draft.gaps
  | list items => itemsGaps items
  | record members => membersGaps members

/-- The number of gaps in the items of a list. -/
def itemsGaps : List (Outline α κ) → ℕ
  | [] => 0
  | o :: os => gaps o + itemsGaps os

/-- The number of gaps in the members of a record. -/
def membersGaps : List (κ × Outline α κ) → ℕ
  | [] => 0
  | (_, o) :: os => gaps o + membersGaps os

end

end Outline

end Repertoire.Text
