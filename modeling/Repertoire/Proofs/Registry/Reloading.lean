import Repertoire.Proofs.Registry.Replacement

/-!
# Reloading from files that do not change

Skills come into a registry by scans only, names are unregistered and reloaded in between, and no
file changes meanwhile. Then every skill that is held is what its file says, however often it was
reloaded before, and one more reload succeeds and changes no manifest. Were a single reload to fail,
it would take a skill out of the registry.

What carries the induction is that a skill agrees with the file in its manifest, and not with the
path that was scanned: a directory with a manifest file stands for that file from then on. The clock
runs on, so each call comes at a time of its own, and nothing is assumed about these times.
-/

namespace Repertoire

namespace Registry

/-- A call that reads files or drops a name, at some time. -/
inductive Call where
  | scan (dir : String) (time : Int)
  | scanAll (dirs : List String) (time : Int)
  | unregister (name : String)
  | reload (name : String) (time : Int)

/-- A call as an operation that finds the given files. -/
def Call.on (fs : FileSystem) : Call → Operation
  | .scan dir time => .scan (fs.atTime time) dir
  | .scanAll dirs time => .scanAll (fs.atTime time) dirs
  | .unregister name => .unregister name
  | .reload name time => .reload (fs.atTime time) name

/-- The manifests of the skills that are listed. -/
def manifests (r : Registry) : Except Error (List Manifest) := r.list.map (List.map Skill.manifest)

/-- Every skill is what its file says. Each name can be reloaded, and no reload of any names, in any
order and at any times, changes a manifest or the order of the manifests. -/
structure ReloadsInPlace (fs : FileSystem) (r : Registry) : Prop where
  located : ∀ s ∈ r.skills, ∃ file, s.manifest.location = some file ∧
    ∀ time, (Skill.load (fs.atTime time) file).map Skill.manifest = .ok s.manifest
  reload : ∀ n ∈ namesOf r.skills, ∀ time, (r.reload (fs.atTime time) n).1 = .ok () ∧
    (r.reload (fs.atTime time) n).2.manifests = r.manifests
  reloads : ∀ names : List (String × Int),
    (r.run (names.map fun (n, time) => (Call.reload n time).on fs)).manifests = r.manifests

/-- A consistent registry whose skills agree with their files. -/
structure Settled (fs : FileSystem) (r : Registry) : Prop where
  consistent : Consistent r
  agree : ∀ s ∈ r.skills, s.AgreesWithFile fs

variable {fs : FileSystem} {r : Registry}

/-! ## Single calls -/

/-- A registry without skills is settled. -/
theorem settled_empty (fs : FileSystem) (opened : Bool) (capacity : Nat) :
    Settled fs ⟨[], opened, capacity⟩ :=
  ⟨⟨List.nodup_nil, fun _ hs => absurd hs List.not_mem_nil, fun _ => rfl⟩,
    fun _ hs => absurd hs List.not_mem_nil⟩

/-- Registering skills that came out of the files keeps a registry settled. -/
theorem Settled.registerBatch (h : Settled fs r) {time : Int} {skills : List Skill}
    (hload : ∀ s ∈ skills, ∃ path, Skill.load (fs.atTime time) path = .ok s) :
    Settled fs (r.registerBatch skills).2 := by
  refine ⟨h.consistent.operation (.registerBatch skills), fun s hs => ?_⟩
  rcases mem_of_mem_registerBatch hs with hheld | hoffered
  · exact h.agree s hheld
  · obtain ⟨path, hpath⟩ := hload s hoffered
    exact Skill.agreesWithFile_of_load hpath

/-- Unregistering a name keeps a registry settled. -/
theorem Settled.unregister (h : Settled fs r) (n : String) : Settled fs (r.unregister n).2 := by
  refine ⟨h.consistent.operation (.unregister n), fun s hs => h.agree s ?_⟩
  rw [Registry.unregister] at hs
  split at hs
  · exact hs
  · cases hcut : cutAt? n r.skills with
    | none => simpa only [hcut] using hs
    | some cut =>
      obtain ⟨before, found, after⟩ := cut
      simp only [hcut, List.mem_append] at hs
      rw [(cutAt?_eq_some hcut).1, List.mem_append, List.mem_cons]
      exact hs.imp_right .inr

/-- In a settled registry the skill of a listed name makes way for one with the same manifest. -/
theorem Settled.reload_eq (h : Settled fs r) {n : String} (hn : n ∈ namesOf r.skills) (time : Int) :
    ∃ (before after : List Skill) (s fresh : Skill), r.skills = before ++ s :: after ∧
      fresh.manifest = s.manifest ∧ fresh.AgreesWithFile fs ∧
      r.reload (fs.atTime time) n = (.ok (), { r with skills := before ++ fresh :: after }) := by
  obtain ⟨before, s, after, hskills, rfl⟩ := exists_place_of_mem hn
  have hs : s ∈ r.skills := by simp [hskills]
  obtain ⟨fresh, hreload, hmanifest, hagrees⟩ := (h.agree s hs).reload time
  have hvalid : fresh.validate = .ok () := by
    rw [Skill.validate, hmanifest]
    exact h.consistent.valid s hs
  -- The name of the skill is its own, so the skill does not collide with any other.
  have hfree : fresh.name ∉ namesOf (before ++ after) := by
    rw [Skill.name, hmanifest]
    exact name_not_mem_others (hskills ▸ h.consistent.nodup)
  exact ⟨before, after, s, fresh, hskills, hmanifest, hagrees,
    (h.consistent.reload_eq_ok_iff hskills).mpr
      ⟨fresh, Skill.reload_eq_ok_iff.mp hreload, hvalid, hfree, rfl⟩⟩

/-- Reloading a name that is not listed changes nothing. -/
theorem reload_of_not_mem {n : String} (hn : n ∉ namesOf r.skills) :
    (r.reload fs n).2 = r := by
  cases hopen : r.initialized with
  | false => rw [reload_of_shut hopen]
  | true => rw [reload_of_missing hopen hn]

/-- Reloading a name keeps a registry settled. -/
theorem Settled.reload (h : Settled fs r) (n : String) (time : Int) :
    Settled fs (r.reload (fs.atTime time) n).2 := by
  refine ⟨h.consistent.operation (.reload (fs.atTime time) n), ?_⟩
  by_cases hn : n ∈ namesOf r.skills
  · obtain ⟨before, after, s, fresh, hskills, -, hagrees, hreload⟩ := h.reload_eq hn time
    have hold := h.agree
    rw [hskills] at hold
    simp only [List.forall_mem_append, List.forall_mem_cons] at hold
    rw [hreload]
    simp only [List.forall_mem_append, List.forall_mem_cons]
    exact ⟨hold.1, hagrees, hold.2.2⟩
  · rw [reload_of_not_mem hn]
    exact h.agree

/-- Every call keeps a registry settled. -/
theorem Settled.call (h : Settled fs r) (c : Call) : Settled fs ((c.on fs).apply r) := by
  cases c with
  | scan dir time =>
    obtain ⟨skills, hload, hstate⟩ := Discovery.scan_registers (fs.atTime time) r dir
    rw [Call.on, Operation.apply, hstate]
    exact h.registerBatch hload
  | scanAll dirs time =>
    obtain ⟨skills, hload, hstate⟩ := Discovery.scanAll_registers (fs.atTime time) r dirs
    rw [Call.on, Operation.apply, hstate]
    exact h.registerBatch hload
  | unregister n => exact h.unregister n
  | reload n time => exact h.reload n time

/-! ## All calls -/

/-- Any calls keep a registry settled. -/
theorem Settled.run (h : Settled fs r) (calls : List Call) :
    Settled fs (r.run (calls.map (Call.on fs))) := by
  induction calls generalizing r with
  | nil => exact h
  | cons c rest ih => exact ih (h.call c)

/-- Reloading a name of a settled registry changes no manifest. -/
theorem Settled.manifests_reload (h : Settled fs r) (n : String) (time : Int) :
    (r.reload (fs.atTime time) n).2.manifests = r.manifests := by
  by_cases hn : n ∈ namesOf r.skills
  · obtain ⟨before, after, s, fresh, hskills, hmanifest, -, hreload⟩ := h.reload_eq hn time
    rw [hreload, manifests, manifests, list, list, hskills]
    cases r.initialized <;> simp [Except.map, hmanifest]
  · rw [reload_of_not_mem hn]

/-- Reloading names of a settled registry one after the other changes no manifest. -/
theorem Settled.manifests_reloads (h : Settled fs r) (names : List (String × Int)) :
    (r.run (names.map fun (n, time) => (Call.reload n time).on fs)).manifests = r.manifests := by
  induction names generalizing r with
  | nil => rfl
  | cons x rest ih => exact (ih (h.reload x.1 x.2)).trans (h.manifests_reload x.1 x.2)

/-- Whatever scans, removals and reloads an initially empty registry went through, as long as no
file changes, every skill is what its file says, and reloads succeed and change no manifest. -/
theorem reloadsInPlace_after (fs : FileSystem) (opened : Bool) (capacity : Nat)
    (calls : List Call) :
    ReloadsInPlace fs (run ⟨[], opened, capacity⟩ (calls.map (Call.on fs))) := by
  have h := (settled_empty fs opened capacity).run calls
  refine ⟨fun s hs => (h.agree s hs).file, fun n hn time => ⟨?_, h.manifests_reload n time⟩,
    h.manifests_reloads⟩
  obtain ⟨before, after, s, fresh, -, -, -, hreload⟩ := h.reload_eq hn time
  rw [hreload]

end Registry

end Repertoire
