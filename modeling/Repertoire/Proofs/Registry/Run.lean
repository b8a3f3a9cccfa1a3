import Mathlib.Data.List.Nodup
import Repertoire.Proofs.Registry.Edit

/-!
# Runs of a registry

A run starts from a new registry and calls operations in any order, each with arguments of its own.
Calls that look at files carry the file system that they find, so nothing is assumed about what
happens to files between two calls. A run may be cut after any call, which makes every statement
about the registry after a run one about the registry after each of its steps.

The main statement is that names stay distinct, that held skills stay valid, that a registry that
is shut holds nothing, and that all ways of asking for a name then give the same answer.
-/

namespace Repertoire.Registry

/-- A call of an operation that can change a registry. -/
inductive Operation where
  | register (s : Skill)
  | registerBatch (skills : List Skill)
  | unregister (name : String)
  | reload (fs : FileSystem) (name : String)
  | scan (fs : FileSystem) (dir : String)
  | scanAll (fs : FileSystem) (dirs : List String)
  | shutdown
  | reopen

namespace Operation

/-- The registry after a call. -/
def apply (r : Registry) : Operation → Registry
  | .register s => (r.register s).2
  | .registerBatch skills => (r.registerBatch skills).2
  | .unregister name => (r.unregister name).2
  | .reload fs name => (r.reload fs name).2
  | .scan fs dir => (Discovery.scan fs r dir).2
  | .scanAll fs dirs => (Discovery.scanAll fs r dirs).2
  | .shutdown => r.shutdown
  | .reopen => r.reopen

/-- The skills that a call hands over for registration. -/
def offered : Operation → List Skill
  | .register s => [s]
  | .registerBatch skills => skills
  | _ => []

/-- A call adds only skills that it was handed, or skills that were just loaded. -/
theorem apply_edits (r : Registry) (op : Operation) :
    Edits (fun s => s ∈ op.offered ∨ s.loaded = true) r (op.apply r) := by
  cases op with
  | register s => exact register_edits r s (.inl (List.mem_singleton_self s))
  | registerBatch skills => exact registerBatch_edits r skills fun s hs => .inl hs
  | unregister name => exact unregister_edits r name
  | reload fs name => exact reload_edits fs r name
  | scan fs dir => exact (Discovery.scan_edits fs r dir).mono fun s hs => .inr hs
  | scanAll fs dirs => exact (Discovery.scanAll_edits fs r dirs).mono fun s hs => .inr hs
  | shutdown => exact .single (.shutdown r)
  | reopen => exact .single (.reopen r)

end Operation

/-- The registry after calls in order. -/
def run (r : Registry) (ops : List Operation) : Registry := ops.foldl Operation.apply r

/-- Every skill that calls hand over for registration. -/
def offered (ops : List Operation) : List Skill := ops.flatMap Operation.offered

/-- A run adds only skills that it was handed, or skills that were just loaded. -/
theorem run_edits (r : Registry) (ops : List Operation) :
    Edits (fun s => s ∈ offered ops ∨ s.loaded = true) r (r.run ops) := by
  induction ops generalizing r with
  | nil => exact .refl
  | cons op rest ih =>
    have hfirst : Edits (fun s => s ∈ offered (op :: rest) ∨ s.loaded = true) r (op.apply r) :=
      (op.apply_edits r).mono fun s hs => hs.imp_left fun h => by simp [offered, h]
    have hrest : Edits (fun s => s ∈ offered (op :: rest) ∨ s.loaded = true) (op.apply r)
        ((op.apply r).run rest) :=
      (ih (op.apply r)).mono fun s hs => hs.imp_left fun h => by
        simpa [offered] using .inr (by simpa [offered] using h)
    exact hfirst.trans hrest

/-! ## What every change keeps -/

/-- Names are distinct, every skill is fit for use, and a shut registry holds nothing. -/
structure Consistent (r : Registry) : Prop where
  nodup : (namesOf r.skills).Nodup
  valid : ∀ s ∈ r.skills, s.validate = .ok ()
  shut : r.initialized = false → r.skills = []

/-- A new registry is consistent. -/
theorem consistent_new : Consistent new :=
  ⟨List.nodup_nil, fun _ hs => absurd hs List.not_mem_nil, fun _ => rfl⟩

/-- Where names are distinct, no other skill has the name of one in the middle. -/
theorem name_not_mem_others {before after : List Skill} {s : Skill}
    (h : (namesOf (before ++ s :: after)).Nodup) : s.name ∉ namesOf (before ++ after) := by
  simp only [namesOf_append, namesOf_cons] at h ⊢
  rw [List.nodup_middle] at h
  exact (List.nodup_cons.mp h).1

/-- Names stay distinct when a skill in the middle makes way for one whose name is free. -/
theorem nodup_namesOf_replace {before after : List Skill} {s fresh : Skill}
    (h : (namesOf (before ++ s :: after)).Nodup) (hfree : fresh.name ∉ namesOf (before ++ after)) :
    (namesOf (before ++ fresh :: after)).Nodup := by
  simp only [namesOf_append, namesOf_cons] at h hfree ⊢
  rw [List.nodup_middle] at h ⊢
  exact List.nodup_cons.mpr ⟨hfree, (List.nodup_cons.mp h).2⟩

/-- Names stay distinct when a skill in the middle is taken out. -/
theorem nodup_namesOf_remove {before after : List Skill} {s : Skill}
    (h : (namesOf (before ++ s :: after)).Nodup) : (namesOf (before ++ after)).Nodup := by
  simp only [namesOf_append, namesOf_cons] at h ⊢
  rw [List.nodup_middle] at h
  exact (List.nodup_cons.mp h).2

/-- Adding a fit skill under a free name keeps an open registry consistent. -/
theorem Consistent.added {r : Registry} {s : Skill} (h : Consistent r)
    (hopen : r.initialized = true) (hvalid : s.validate = .ok ())
    (hfree : s.name ∉ namesOf r.skills) : Consistent (r.added s) := by
  refine ⟨?_, fun t ht => ?_, fun hshut => by simp [hopen] at hshut⟩
  · rw [added_skills, namesOf_append, List.nodup_append]
    refine ⟨h.nodup, List.nodup_singleton s.name, fun a ha b hb hab => ?_⟩
    have hname : b = s.name := List.mem_singleton.mp hb
    exact hfree (hname ▸ hab ▸ ha)
  · rcases List.mem_append.mp ht with hold | hnew
    · exact h.valid t hold
    · exact List.mem_singleton.mp hnew ▸ hvalid

/-- Taking a skill out keeps an open registry consistent. -/
theorem Consistent.removed {r : Registry} {before after : List Skill} {s : Skill}
    (h : Consistent r) (hopen : r.initialized = true) (hskills : r.skills = before ++ s :: after) :
    Consistent { r with skills := before ++ after } := by
  refine ⟨nodup_namesOf_remove (hskills ▸ h.nodup), fun t ht => h.valid t ?_,
    fun hshut => by simp [hopen] at hshut⟩
  rw [hskills]
  rcases List.mem_append.mp ht with hfront | hback
  · exact List.mem_append_left _ hfront
  · exact List.mem_append_right _ (List.mem_cons_of_mem s hback)

/-- Putting a fit skill in the place of another keeps an open registry consistent. -/
theorem Consistent.replaced {r : Registry} {before after : List Skill} {s fresh : Skill}
    (h : Consistent r) (hopen : r.initialized = true) (hskills : r.skills = before ++ s :: after)
    (hvalid : fresh.validate = .ok ()) (hfree : fresh.name ∉ namesOf (before ++ after)) :
    Consistent { r with skills := before ++ fresh :: after } := by
  refine ⟨nodup_namesOf_replace (hskills ▸ h.nodup) hfree, fun t ht => ?_,
    fun hshut => by simp [hopen] at hshut⟩
  have hothers := (h.removed hopen hskills).valid
  rcases List.mem_append.mp ht with hfront | hback
  · exact hothers t (List.mem_append_left _ hfront)
  · rcases List.mem_cons.mp hback with rfl | hback
    · exact hvalid
    · exact hothers t (List.mem_append_right _ hback)

/-- Every change keeps a registry consistent. -/
theorem Consistent.edit {P : Skill → Prop} {r r' : Registry} (h : Consistent r)
    (hedit : Edit P r r') : Consistent r' := by
  cases hedit with
  | add hopen _ hvalid hfree => exact h.added hopen hvalid hfree
  | remove hopen hskills => exact h.removed hopen hskills
  | replace hopen hskills _ hvalid hfree => exact h.replaced hopen hskills hvalid hfree
  | shutdown => exact ⟨List.nodup_nil, fun _ ht => absurd ht List.not_mem_nil, fun _ => rfl⟩
  | reopen => exact ⟨h.nodup, h.valid, fun hshut => Bool.noConfusion hshut⟩

/-- Every operation keeps a registry consistent. -/
theorem Consistent.operation {r : Registry} (h : Consistent r) (op : Operation) :
    Consistent (op.apply r) :=
  (op.apply_edits r).preserve (fun _ _ hr hedit => hr.edit hedit) h

/-- Every change leaves only loaded skills when those that were held or are added are loaded. -/
theorem loaded_edit {r r' : Registry} (h : ∀ s ∈ r.skills, s.loaded = true)
    (hedit : Edit (fun s => s.loaded = true) r r') : ∀ s ∈ r'.skills, s.loaded = true := by
  cases hedit with
  | add _ hloaded _ _ => simpa [or_imp, forall_and] using ⟨h, hloaded⟩
  | remove _ hskills =>
    intro t ht
    apply h
    rw [hskills]
    simp only [List.mem_append, List.mem_cons] at ht ⊢
    exact ht.imp_right .inr
  | replace _ hskills hloaded _ _ =>
    intro t ht
    rw [hskills] at h
    simp only [List.mem_append, List.mem_cons] at ht
    rcases ht with hfront | rfl | hback
    · exact h t (by simp [hfront])
    · exact hloaded
    · exact h t (by simp [hback])
  | shutdown => simp [shutdown]
  | reopen => exact h

/-- The registry after any run is consistent. -/
theorem consistent_run (ops : List Operation) : Consistent (new.run ops) :=
  (run_edits new ops).preserve (fun _ _ h hedit => h.edit hedit) consistent_new

/-- The registry after a run that was handed loaded skills only holds loaded skills. -/
theorem loaded_run (ops : List Operation) (h : ∀ s ∈ offered ops, s.loaded = true) :
    ∀ s ∈ (new.run ops).skills, s.loaded = true := by
  have hedits : Edits (fun s => s.loaded = true) new (new.run ops) :=
    (run_edits new ops).mono fun s hs => hs.elim (h s) id
  exact hedits.preserve (fun _ _ => loaded_edit) fun _ hs => absurd hs List.not_mem_nil

/-! ## What the reads answer -/

/-- All ways of asking a registry about its skills agree with the list of them. -/
structure ReadsAgree (r : Registry) : Prop where
  contains_iff_find : ∀ name, r.contains name = true ↔ ∃ s, r.find name = .ok s
  find_iff_names : ∀ name,
    (∃ s, r.find name = .ok s) ↔
      r.initialized = true ∧ ∃ names, r.names = .ok names ∧ name ∈ names
  find_unique : ∀ name s, r.find name = .ok s ↔
    r.initialized = true ∧ r.skills.filter (fun t => t.name = name) = [s]
  size_eq : r.size = match r.list with
    | .ok skills => skills.length
    | .error _ => 0

/-- A shut registry finds nothing, and an open one the first skill of the name. -/
theorem find_eq_ok_iff (r : Registry) (name : String) (s : Skill) :
    r.find name = .ok s ↔
      r.initialized = true ∧ r.skills.find? (fun t => t.name = name) = some s := by
  rw [find]
  cases r.initialized with
  | false => simp
  | true => cases r.skills.find? (fun t => t.name = name) <;> simp

/-- Where names are distinct, the first skill of a name is the only one. -/
theorem find?_eq_some_iff_filter {skills : List Skill} (h : (namesOf skills).Nodup) (name : String)
    (s : Skill) :
    skills.find? (fun t => t.name = name) = some s ↔
      skills.filter (fun t => t.name = name) = [s] := by
  induction skills with
  | nil => simp
  | cons t rest ih =>
    obtain ⟨hfree, hrest⟩ := List.nodup_cons.mp h
    by_cases ht : t.name = name
    · have hnone : rest.filter (fun u => u.name = name) = [] := by
        rw [List.filter_eq_nil_iff]
        intro u hu hname
        exact hfree ((mem_namesOf_iff t.name rest).mpr ⟨u, hu, by simpa [ht] using hname⟩)
      simp [ht, hnone]
    · simp [ht, ih hrest]

/-- An open registry finds a skill exactly under the names that it lists. -/
theorem exists_find_iff (r : Registry) (name : String) :
    (∃ s, r.find name = .ok s) ↔ r.initialized = true ∧ name ∈ namesOf r.skills := by
  simp only [find_eq_ok_iff, exists_and_left, ← Option.isSome_iff_exists, List.find?_isSome,
    decide_eq_true_eq, mem_namesOf_iff]

/-- The reads of a consistent registry agree. -/
theorem Consistent.readsAgree {r : Registry} (h : Consistent r) : ReadsAgree r where
  contains_iff_find name := by
    rw [exists_find_iff, contains, Bool.and_eq_true, hasName_iff]
  find_iff_names name := by
    rw [exists_find_iff]
    refine and_congr_right fun hopen => ?_
    simp [names, hopen, namesOf]
  find_unique name s := by
    rw [find_eq_ok_iff, find?_eq_some_iff_filter h.nodup]
  size_eq := by
    cases hopen : r.initialized with
    | false => simp [list, hopen, size, h.shut hopen]
    | true => simp [list, hopen, size]

/-- After any run, and so after each of its steps, the registry is consistent, its reads agree, and
it holds only loaded skills when it was handed no others. -/
theorem run_invariant (ops : List Operation) :
    Consistent (new.run ops) ∧ ReadsAgree (new.run ops) ∧
      ((∀ s ∈ offered ops, s.loaded = true) → ∀ s ∈ (new.run ops).skills, s.loaded = true) :=
  ⟨consistent_run ops, (consistent_run ops).readsAgree, loaded_run ops⟩

end Repertoire.Registry
