import Mathlib.Data.List.Perm.Basic
import Repertoire.Proofs.Registry.History

/-!
# A batch is its skills registered one by one

A batch keeps two lists while it goes through its skills, and each skill meets the registry that the
skills before it left. Registering them by calls of their own leaves the same registry, room
included, and the answers of these calls sort the skills into the same two lists.

The induction is on the batch and holds for every registry that is open, since the second skill
already meets another registry than the first. A registry that is shut answers a batch with one
error and not with an outcome.
-/

namespace Repertoire.Registry

/-- The calls that register skills in order. -/
def calls (skills : List Skill) : List Change := skills.map .register

/-- The skills that calls registered, in the order of the calls. -/
def entered (log : List Answered) : List Skill :=
  log.filterMap fun x => match x.call, x.answer with
    | .register s, .ok () => some s
    | _, _ => none

/-- The skills that calls did not register, each with the answer that it got. -/
def refused (log : List Answered) : List (Skill × Error) :=
  log.filterMap fun x => match x.call, x.answer with
    | .register s, .error e => some (s, e)
    | _, _ => none

/-- An outcome and a registry are those of registering skills one by one. Each skill is in one of
the two lists of the outcome, and both lists have the order of the skills. -/
structure OneByOne (r : Registry) (skills : List Skill) (outcome : BatchOutcome) (r' : Registry) :
    Prop where
  state : r' = r.after (calls skills)
  registered : outcome.registered = entered (r.history (calls skills))
  rejected : outcome.rejected = refused (r.history (calls skills))
  registeredInOrder : outcome.registered.Sublist skills
  rejectedInOrder : (outcome.rejected.map Prod.fst).Sublist skills
  once : (outcome.registered ++ outcome.rejected.map Prod.fst).Perm skills

/-- A registry takes every batch as skills one by one, and a batch in two parts as two batches. -/
structure BatchesOneByOne (r : Registry) : Prop where
  whole : ∀ skills, ∃ outcome r',
    r.registerBatch skills = (.ok outcome, r') ∧ OneByOne r skills outcome r'
  parts : ∀ a b, ∃ first between second last,
    r.registerBatch a = (.ok first, between) ∧ between.registerBatch b = (.ok second, last) ∧
      r.registerBatch (a ++ b) = (.ok ⟨first.registered ++ second.registered,
        first.rejected ++ second.rejected⟩, last)

variable {r : Registry}

/-! ## One skill more -/

/-- The history of registering skills begins with the answer to the first. -/
theorem history_calls_cons (r : Registry) (s : Skill) (rest : List Skill) :
    r.history (calls (s :: rest)) =
      ⟨.register s, (r.register s).1⟩ :: (r.register s).2.history (calls rest) := rfl

/-- A registered skill comes before those that are registered later. -/
@[simp] theorem entered_cons_ok (s : Skill) (log : List Answered) :
    entered (⟨.register s, .ok ()⟩ :: log) = s :: entered log := rfl

/-- A skill that is turned away is not registered. -/
@[simp] theorem entered_cons_error (s : Skill) (e : Error) (log : List Answered) :
    entered (⟨.register s, .error e⟩ :: log) = entered log := rfl

/-- A skill that is registered is not turned away. -/
@[simp] theorem refused_cons_ok (s : Skill) (log : List Answered) :
    refused (⟨.register s, .ok ()⟩ :: log) = refused log := rfl

/-- A skill that is turned away comes with its answer, before those that are turned away later. -/
@[simp] theorem refused_cons_error (s : Skill) (e : Error) (log : List Answered) :
    refused (⟨.register s, .error e⟩ :: log) = (s, e) :: refused log := rfl

/-! ## All skills -/

/-- Registered skills are in the order of the calls. -/
theorem entered_sublist (r : Registry) (skills : List Skill) :
    (entered (r.history (calls skills))).Sublist skills := by
  induction skills generalizing r with
  | nil => exact List.Sublist.slnil
  | cons s rest ih =>
    rw [history_calls_cons]
    cases (r.register s).1 with
    | error e => exact (ih _).cons s
    | ok _ => exact (ih _).cons_cons s

/-- Skills that are turned away are in the order of the calls. -/
theorem refused_sublist (r : Registry) (skills : List Skill) :
    ((refused (r.history (calls skills))).map Prod.fst).Sublist skills := by
  induction skills generalizing r with
  | nil => exact List.Sublist.slnil
  | cons s rest ih =>
    rw [history_calls_cons]
    cases (r.register s).1 with
    | error e => exact (ih _).cons_cons s
    | ok _ => exact (ih _).cons s

/-- Every skill is registered or turned away, and none is both or twice. -/
theorem entered_append_refused_perm (r : Registry) (skills : List Skill) :
    (entered (r.history (calls skills)) ++
      (refused (r.history (calls skills))).map Prod.fst).Perm skills := by
  induction skills generalizing r with
  | nil => exact List.Perm.nil
  | cons s rest ih =>
    rw [history_calls_cons]
    cases (r.register s).1 with
    | error e => exact List.perm_middle.trans ((ih _).cons s)
    | ok _ => exact (ih _).cons s

/-- Adding skills in order to an open registry does what the calls for them do. -/
theorem insertAll_eq_calls (hopen : r.initialized = true) (skills : List Skill) :
    r.insertAll skills =
      (⟨entered (r.history (calls skills)), refused (r.history (calls skills))⟩,
        r.after (calls skills)) := by
  induction skills generalizing r with
  | nil => rfl
  | cons s rest ih =>
    have hafter : r.after (calls (s :: rest)) = (r.register s).2.after (calls rest) := rfl
    rw [insertAll_cons, history_calls_cons, hafter, register_eq hopen]
    cases refusal? r.skills s with
    | some e => simp [ih hopen]
    | none => simp [ih (r := r.added s) hopen]

/-- An open registry takes batches as skills one by one. -/
theorem batchesOneByOne (hopen : r.initialized = true) : BatchesOneByOne r where
  whole skills := by
    refine ⟨_, _, registerBatch_eq hopen skills, ?_⟩
    rw [insertAll_eq_calls hopen]
    exact ⟨rfl, rfl, rfl, entered_sublist r skills, refused_sublist r skills,
      entered_append_refused_perm r skills⟩
  parts a b := by
    have hbetween : (r.insertAll a).2.initialized = true :=
      (insertAll_initialized r a).trans hopen
    refine ⟨_, _, _, _, registerBatch_eq hopen a, registerBatch_eq hbetween b, ?_⟩
    rw [registerBatch_eq hopen, insertAll_append]

/-- A skill that is fit for use. -/
def lantern : Skill := .ofManifest 0 ⟨"lantern", "Gives light.", "", none, [], [], [], none⟩

/-- A new registry takes a batch as skills one by one. In this one a skill is unfit for use, and the
last has the name of the first, which is taken by then. -/
theorem batchesOneByOne_lantern :
    new.initialized = true ∧ BatchesOneByOne new ∧
      (new.registerBatch [lantern, .ofManifest 0 .empty, lantern]).1 = .ok ⟨[lantern],
        [(.ofManifest 0 .empty, .validation "skill name is empty"),
          (lantern, .alreadyExists .skill "lantern")]⟩ :=
  ⟨rfl, batchesOneByOne rfl, by decide +kernel⟩

end Repertoire.Registry
