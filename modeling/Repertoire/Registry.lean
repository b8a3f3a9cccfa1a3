import Repertoire.Skill.Basic

/-!
# The registry

The registered skills, in the order in which they came, under names that are all different. A
skill enters only when its manifest is fit for use. A registry that was shut down holds nothing
and refuses everything until it is opened again. The capacity is the room that was set aside for
skills: it starts at nothing, doubles when a skill finds no room, and is given up only by
shutting down.

Operations that can change the registry return their outcome together with the registry
afterwards.
-/

namespace Repertoire

/-- The registered skills. -/
structure Registry where
  skills : List Skill
  initialized : Bool
  capacity : Nat
deriving DecidableEq, Repr

/-- The skills that entered, and those that did not with the reasons. -/
structure BatchOutcome where
  registered : List Skill
  rejected : List (Skill × Error)
deriving DecidableEq, Repr

namespace Registry

/-- The least room that is set aside. -/
def minCapacity : Nat := 8

/-- An open registry without skills. -/
def new : Registry := ⟨[], true, 0⟩

/-- The number of skills. -/
def size (r : Registry) : Nat := r.skills.length

/-- A skill of the name is among the skills. -/
def hasName (name : String) (skills : List Skill) : Bool := skills.any fun s => s.name = name

/-- The skills cut at the first one of the name: those before it, the skill, and those after. -/
def cutAt? (name : String) : List Skill → Option (List Skill × Skill × List Skill)
  | [] => none
  | s :: rest =>
    if s.name = name then some ([], s, rest)
    else (cutAt? name rest).map fun (before, found, after) => (s :: before, found, after)

/-- Opens a registry that was shut down. -/
def reopen (r : Registry) : Registry := { r with initialized := true }

/-- Forgets all skills and refuses everything from now on. -/
def shutdown (_ : Registry) : Registry := ⟨[], false, 0⟩

/-- The room after making place for one more skill. -/
def grown (r : Registry) : Nat :=
  if r.skills.length < r.capacity then r.capacity else max (2 * r.capacity) minCapacity

/-- Adds a skill that is fit for use and whose name is not taken. -/
def insert (r : Registry) (s : Skill) : Except Error Unit × Registry :=
  match s.validate with
  | .error e => (.error e, r)
  | .ok () =>
    if hasName s.name r.skills then (.error (.alreadyExists .skill s.name), r)
    else (.ok (), ⟨r.skills ++ [s], r.initialized, r.grown⟩)

/-- Registers a skill. -/
def register (r : Registry) (s : Skill) : Except Error Unit × Registry :=
  if !r.initialized then (.error .notInitialized, r) else r.insert s

/-- Adds skills in order, and sorts out those that cannot be added. -/
def insertAll (r : Registry) : List Skill → BatchOutcome × Registry
  | [] => (⟨[], []⟩, r)
  | s :: rest =>
    match r.insert s with
    | (.ok (), r) =>
      let (outcome, r) := r.insertAll rest
      (⟨s :: outcome.registered, outcome.rejected⟩, r)
    | (.error e, r) =>
      let (outcome, r) := r.insertAll rest
      (⟨outcome.registered, (s, e) :: outcome.rejected⟩, r)

/-- Registers skills in order. A skill that cannot enter does not stop the others. -/
def registerBatch (r : Registry) (skills : List Skill) : Except Error BatchOutcome × Registry :=
  if !r.initialized then (.error .notInitialized, r)
  else
    let (outcome, r) := r.insertAll skills
    (.ok outcome, r)

/-- Removes the skill of a name. -/
def unregister (r : Registry) (name : String) : Except Error Unit × Registry :=
  if !r.initialized then (.error .notInitialized, r)
  else
    match cutAt? name r.skills with
    | none => (.error (.notFound .skill name), r)
    | some (before, _, after) => (.ok (), { r with skills := before ++ after })

/-- Accepts a reloaded skill among the others. -/
def accept (others : List Skill) (s : Skill) : Except Error Unit :=
  match s.validate with
  | .error e => .error e
  | .ok () =>
    if hasName s.name others then .error (.alreadyExists .skill s.name) else .ok ()

/-- Reloads the skill of a name in its place. When that fails, or gives a skill that cannot be
accepted among the others, the skill is removed. -/
def reload (fs : FileSystem) (r : Registry) (name : String) : Except Error Unit × Registry :=
  if !r.initialized then (.error .notInitialized, r)
  else
    match cutAt? name r.skills with
    | none => (.error (.notFound .skill name), r)
    | some (before, s, after) =>
      let without : Registry := { r with skills := before ++ after }
      match s.reload fs with
      | (.error e, _) => (.error e, without)
      | (.ok (), fresh) =>
        match accept (before ++ after) fresh with
        | .error e => (.error e, without)
        | .ok () => (.ok (), { r with skills := before ++ fresh :: after })

/-- The skills, while the registry is open. -/
def list (r : Registry) : Except Error (List Skill) :=
  if r.initialized then .ok r.skills else .error .notInitialized

/-- The names of the skills, while the registry is open. -/
def names (r : Registry) : Except Error (List String) :=
  if r.initialized then .ok (r.skills.map Skill.name) else .error .notInitialized

/-- The skill of a name. -/
def find (r : Registry) (name : String) : Except Error Skill :=
  if !r.initialized then .error .notInitialized
  else
    match r.skills.find? fun s => s.name = name with
    | some s => .ok s
    | none => .error (.notFound .skill name)

/-- A skill of the name is registered. -/
def contains (r : Registry) (name : String) : Bool := r.initialized && hasName name r.skills

end Registry

end Repertoire
