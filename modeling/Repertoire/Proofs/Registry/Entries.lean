import Mathlib.Data.List.Basic
import Mathlib.Data.Nat.Notation
import Repertoire.Registry

/-!
# The entries of a registry

What a search by name finds among skills, and what an attempt to add a skill does. An addition is
refused for exactly one reason, which depends on the manifest and on the names that are taken;
everything that later modules say about registering rests on this one equation.
-/

namespace Repertoire

namespace Manifest

/-- Validation answers with the first defect. -/
theorem validate_eq (m : Manifest) :
    m.validate = match m.defect? with
      | none => .ok ()
      | some d => .error (.validation d.text) := rfl

/-- A manifest is accepted exactly when it has no defect. -/
theorem validate_eq_ok_iff (m : Manifest) : m.validate = .ok () ↔ m.defect? = none := by
  rw [validate_eq]
  cases m.defect? <;> simp

end Manifest

namespace Registry

/-- The names of skills in order. -/
def namesOf (skills : List Skill) : List String := skills.map Skill.name

@[simp] theorem namesOf_nil : namesOf [] = [] := rfl

@[simp] theorem namesOf_cons (s : Skill) (skills : List Skill) :
    namesOf (s :: skills) = s.name :: namesOf skills := rfl

@[simp] theorem namesOf_append (a b : List Skill) : namesOf (a ++ b) = namesOf a ++ namesOf b := by
  simp [namesOf]

/-- A name is listed exactly when a skill has it. -/
theorem mem_namesOf_iff (name : String) (skills : List Skill) :
    name ∈ namesOf skills ↔ ∃ s ∈ skills, s.name = name := by
  simp [namesOf]

/-- The test for a name agrees with the list of names. -/
theorem hasName_iff (name : String) (skills : List Skill) :
    hasName name skills = true ↔ name ∈ namesOf skills := by
  simp [hasName, mem_namesOf_iff]

/-- A cut fails exactly when no skill has the name. -/
theorem cutAt?_eq_none_iff (name : String) (skills : List Skill) :
    cutAt? name skills = none ↔ name ∉ namesOf skills := by
  induction skills with
  | nil => simp [cutAt?]
  | cons s rest ih =>
    by_cases h : s.name = name
    · simp [cutAt?, h]
    · simp [cutAt?, h, ih, Ne.symm h]

/-- A cut loses nothing, and it is made at the first skill of the name. -/
theorem cutAt?_eq_some {name : String} {skills before after : List Skill} {s : Skill}
    (h : cutAt? name skills = some (before, s, after)) :
    skills = before ++ s :: after ∧ s.name = name ∧ name ∉ namesOf before := by
  induction skills generalizing before with
  | nil => simp [cutAt?] at h
  | cons t rest ih =>
    by_cases ht : t.name = name
    · simp only [cutAt?, if_pos ht, Option.some.injEq, Prod.mk.injEq] at h
      obtain ⟨rfl, rfl, rfl⟩ := h
      exact ⟨rfl, ht, by simp⟩
    · simp only [cutAt?, if_neg ht, Option.map_eq_some_iff] at h
      obtain ⟨⟨front, found, back⟩, hcut, heq⟩ := h
      obtain ⟨rfl, rfl, rfl⟩ := heq
      obtain ⟨hrest, hname, hfront⟩ := ih hcut
      exact ⟨by rw [hrest, List.cons_append], hname, by simp [hfront, Ne.symm ht]⟩

/-! ## Adding a skill -/

/-- Why a skill cannot be added to those that are held: a defect of its manifest, or else its name
being taken. -/
def refusal? (held : List Skill) (s : Skill) : Option Error :=
  match s.manifest.defect? with
  | some d => some (.validation d.text)
  | none => if s.name ∈ namesOf held then some (.alreadyExists .skill s.name) else none

/-- The registry with one more skill. -/
def added (r : Registry) (s : Skill) : Registry := ⟨r.skills ++ [s], r.initialized, r.grown⟩

/-- Nothing stands against a skill exactly when it is fit for use and its name is free. -/
theorem refusal?_eq_none_iff (held : List Skill) (s : Skill) :
    refusal? held s = none ↔ s.validate = .ok () ∧ s.name ∉ namesOf held := by
  rw [Skill.validate, Manifest.validate_eq_ok_iff, refusal?]
  cases s.manifest.defect? <;> simp

/-- An addition happens unless something stands against it, and then changes nothing. -/
theorem insert_eq (r : Registry) (s : Skill) :
    r.insert s = match refusal? r.skills s with
      | some e => (.error e, r)
      | none => (.ok (), r.added s) := by
  simp only [insert, refusal?, Skill.validate, Manifest.validate_eq]
  cases s.manifest.defect? with
  | some d => rfl
  | none => by_cases h : s.name ∈ namesOf r.skills <;> simp [hasName_iff, h, added]

/-- An open registry adds a skill unless something stands against it. -/
theorem register_eq {r : Registry} (hopen : r.initialized = true) (s : Skill) :
    r.register s = match refusal? r.skills s with
      | some e => (.error e, r)
      | none => (.ok (), r.added s) := by
  rw [register, hopen, insert_eq]
  cases refusal? r.skills s <;> rfl

/-- A reloaded skill is accepted under the same conditions as a new one. -/
theorem accept_eq_ok_iff (others : List Skill) (s : Skill) :
    accept others s = .ok () ↔ s.validate = .ok () ∧ s.name ∉ namesOf others := by
  rw [accept]
  cases s.validate with
  | error e => simp
  | ok u => by_cases h : s.name ∈ namesOf others <;> simp [hasName_iff, h]

end Registry

end Repertoire
