import Mathlib.Logic.Relation
import Repertoire.Proofs.Registry.Entries
import Repertoire.Proofs.Skill.Reloading
import Repertoire.Proofs.Skill.Scanning

/-!
# Elementary changes of a registry

Every operation is a sequence of five elementary changes: a skill is added at the end, removed
where it stands, or replaced there by a reloaded one, and the registry is shut down or opened. The
conditions that an operation checks before it changes anything are the hypotheses of the change,
so an invariant has to be shown for five changes and not for every exit of every operation.

Where an added skill comes from is left to a predicate. Which operation was called, and what it
answered, is forgotten here.
-/

namespace Repertoire

namespace Registry

/-- One change of a registry, in which only skills that satisfy `P` are added. -/
inductive Edit (P : Skill → Prop) : Registry → Registry → Prop
  | add {r : Registry} {s : Skill} (hopen : r.initialized = true) (hfrom : P s)
      (hvalid : s.validate = .ok ()) (hfree : s.name ∉ namesOf r.skills) : Edit P r (r.added s)
  | remove {r : Registry} {before after : List Skill} {s : Skill} (hopen : r.initialized = true)
      (hskills : r.skills = before ++ s :: after) :
      Edit P r { r with skills := before ++ after }
  | replace {r : Registry} {before after : List Skill} {s fresh : Skill}
      (hopen : r.initialized = true) (hskills : r.skills = before ++ s :: after)
      (hloaded : fresh.loaded = true) (hvalid : fresh.validate = .ok ())
      (hfree : fresh.name ∉ namesOf (before ++ after)) :
      Edit P r { r with skills := before ++ fresh :: after }
  | shutdown (r : Registry) : Edit P r r.shutdown
  | reopen (r : Registry) : Edit P r r.reopen

/-- Any number of changes. -/
abbrev Edits (P : Skill → Prop) : Registry → Registry → Prop := Relation.ReflTransGen (Edit P)

variable {P Q : Skill → Prop}

/-- Weakening what is said about added skills keeps the changes. -/
theorem Edits.mono (h : ∀ s, P s → Q s) {r r' : Registry} (hedits : Edits P r r') :
    Edits Q r r' := by
  refine Relation.ReflTransGen.mono (fun a b hedit => ?_) _ _ hedits
  cases hedit with
  | add hopen hfrom hvalid hfree => exact .add hopen (h _ hfrom) hvalid hfree
  | remove hopen hskills => exact .remove hopen hskills
  | replace hopen hskills hloaded hvalid hfree =>
    exact .replace hopen hskills hloaded hvalid hfree
  | shutdown => exact .shutdown a
  | reopen => exact .reopen a

/-- A property that every change keeps is kept by any number of them. -/
theorem Edits.preserve {I : Registry → Prop} (hstep : ∀ a b, I a → Edit P a b → I b)
    {r r' : Registry} (hr : I r) (hedits : Edits P r r') : I r' := by
  induction hedits with
  | refl => exact hr
  | tail _ hedit ih => exact hstep _ _ ih hedit

@[simp] theorem added_initialized (r : Registry) (s : Skill) :
    (r.added s).initialized = r.initialized := rfl

@[simp] theorem added_skills (r : Registry) (s : Skill) : (r.added s).skills = r.skills ++ [s] :=
  rfl

/-! ## The operations as changes -/

/-- An attempt to add a skill adds it or changes nothing. -/
theorem insert_edits (r : Registry) (s : Skill) (hopen : r.initialized = true) (hfrom : P s) :
    Edits P r (r.insert s).2 ∧ (r.insert s).2.initialized = true := by
  rw [insert_eq]
  cases hrefusal : refusal? r.skills s with
  | some e => exact ⟨.refl, hopen⟩
  | none =>
    obtain ⟨hvalid, hfree⟩ := (refusal?_eq_none_iff r.skills s).mp hrefusal
    exact ⟨.single (.add hopen hfrom hvalid hfree), hopen⟩

/-- Registering a skill adds it or changes nothing. -/
theorem register_edits (r : Registry) (s : Skill) (hfrom : P s) :
    Edits P r (r.register s).2 := by
  cases hopen : r.initialized with
  | false => simpa [register, hopen] using Relation.ReflTransGen.refl
  | true => simpa [register, hopen] using (insert_edits r s hopen hfrom).1

/-- Registering skills in order adds some of them. -/
theorem insertAll_edits (r : Registry) (skills : List Skill) (hopen : r.initialized = true)
    (hfrom : ∀ s ∈ skills, P s) : Edits P r (r.insertAll skills).2 := by
  induction skills generalizing r with
  | nil => exact .refl
  | cons s rest ih =>
    obtain ⟨hfirst, hstill⟩ := insert_edits r s hopen (hfrom s List.mem_cons_self)
    have hrest := ih (r.insert s).2 hstill fun t ht => hfrom t (List.mem_cons_of_mem s ht)
    have hstate : (r.insertAll (s :: rest)).2 = ((r.insert s).2.insertAll rest).2 := by
      rw [insertAll]
      rcases r.insert s with ⟨_ | _, _⟩ <;> rfl
    rw [hstate]
    exact hfirst.trans hrest

/-- A batch adds some of its skills. -/
theorem registerBatch_edits (r : Registry) (skills : List Skill) (hfrom : ∀ s ∈ skills, P s) :
    Edits P r (r.registerBatch skills).2 := by
  cases hopen : r.initialized with
  | false => simpa [registerBatch, hopen] using Relation.ReflTransGen.refl
  | true => simpa [registerBatch, hopen] using insertAll_edits r skills hopen hfrom

/-- Unregistering a name removes one skill or changes nothing. -/
theorem unregister_edits (r : Registry) (name : String) : Edits P r (r.unregister name).2 := by
  cases hopen : r.initialized with
  | false => simpa [unregister, hopen] using Relation.ReflTransGen.refl
  | true =>
    cases hcut : cutAt? name r.skills with
    | none => simpa [unregister, hopen, hcut] using Relation.ReflTransGen.refl
    | some cut =>
      obtain ⟨before, s, after⟩ := cut
      simpa [unregister, hopen, hcut] using
        Relation.ReflTransGen.single (Edit.remove (P := P) hopen (cutAt?_eq_some hcut).1)

/-- Reloading a name replaces one skill, removes it, or changes nothing. -/
theorem reload_edits (fs : FileSystem) (r : Registry) (name : String) :
    Edits P r (r.reload fs name).2 := by
  cases hopen : r.initialized with
  | false => simpa [reload, hopen] using Relation.ReflTransGen.refl
  | true =>
    cases hcut : cutAt? name r.skills with
    | none => simpa [reload, hopen, hcut] using Relation.ReflTransGen.refl
    | some cut =>
      obtain ⟨before, s, after⟩ := cut
      have hskills := (cutAt?_eq_some hcut).1
      have hremoved : Edits P r { r with skills := before ++ after } :=
        .single (.remove hopen hskills)
      rcases hreload : s.reload fs with ⟨e | _, fresh⟩
      · simpa [reload, hopen, hcut, hreload] using hremoved
      · cases haccept : accept (before ++ after) fresh with
        | error e => simpa [reload, hopen, hcut, hreload, haccept] using hremoved
        | ok _ =>
          obtain ⟨hvalid, hfree⟩ := (accept_eq_ok_iff (before ++ after) fresh).mp haccept
          have hreplaced : Edits P r { r with skills := before ++ fresh :: after } :=
            .single (.replace hopen hskills (Skill.loaded_of_reload hreload) hvalid hfree)
          simpa [reload, hopen, hcut, hreload, haccept] using hreplaced

end Registry

namespace Discovery

open Registry (Edits)

/-- Scanning a directory adds loaded skills. -/
theorem scan_edits (fs : FileSystem) (r : Registry) (dir : String) :
    Edits (fun s => s.loaded = true) r (scan fs r dir).2 := by
  obtain ⟨skills, hload, hstate⟩ := scan_registers fs r dir
  rw [hstate]
  refine r.registerBatch_edits skills fun s hs => ?_
  obtain ⟨path, hpath⟩ := hload s hs
  exact Skill.loaded_of_load hpath

/-- Scanning directories in order adds loaded skills. -/
theorem scanAll_edits (fs : FileSystem) (r : Registry) (dirs : List String) :
    Edits (fun s => s.loaded = true) r (scanAll fs r dirs).2 := by
  obtain ⟨skills, hload, hstate⟩ := scanAll_registers fs r dirs
  rw [hstate]
  refine r.registerBatch_edits skills fun s hs => ?_
  obtain ⟨path, hpath⟩ := hload s hs
  exact Skill.loaded_of_load hpath

end Discovery

end Repertoire
