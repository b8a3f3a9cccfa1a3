import Repertoire.Proofs.Registry.Replacement

/-!
# Calls that fail, and registries that are shut

A call that answers with an error has not touched the registry: not its skills, not their order, and
not the room that was set aside for them. Reloading is the exception and is left out here, since a
skill that cannot be renewed is taken out.

A registry that is shut refuses every call, and a scan refuses after it has loaded everything that
the directory holds. That a shut registry stays as it is until it is opened needs more than its
refusals, as it may be shut down once more. What makes this harmless is that a registry is only ever
shut by giving up its skills and its room, so there is just one shut registry to be reached.
-/

namespace Repertoire.Registry

/-- A call that fails leaves the registry as it was. -/
def KeepsOnError {α : Type} (r : Registry) (out : Except Error α × Registry) : Prop :=
  ∀ e, out.1 = .error e → out.2 = r

/-- Calls that add or remove skills leave the registry as it was when they fail. -/
structure FailsCleanly (r : Registry) : Prop where
  register : ∀ s, KeepsOnError r (r.register s)
  registerBatch : ∀ skills, KeepsOnError r (r.registerBatch skills)
  unregister : ∀ name, KeepsOnError r (r.unregister name)
  scan : ∀ fs dir, KeepsOnError r (Discovery.scan fs r dir)

/-- Every call is refused for the one reason that the registry is shut. No calls but the one that
opens it make a difference, and that one gives a new registry. -/
structure ClosedOff (r : Registry) : Prop where
  register : ∀ s, r.register s = (.error .notInitialized, r)
  registerBatch : ∀ skills, r.registerBatch skills = (.error .notInitialized, r)
  unregister : ∀ name, r.unregister name = (.error .notInitialized, r)
  reload : ∀ fs name, r.reload fs name = (.error .notInitialized, r)
  scan : ∀ fs dir, fs.isDirectory dir = true →
    Discovery.scan fs r dir = (.error .notInitialized, r)
  find : ∀ name, r.find name = .error .notInitialized
  list : r.list = .error .notInitialized
  names : r.names = .error .notInitialized
  contains : ∀ name, r.contains name = false
  lasting : ∀ later, Operation.reopen ∉ later → r.run later = r
  reopened : r.reopen = new

variable {r : Registry} {fs : FileSystem} {dir : String}

/-! ## Calls that fail -/

/-- Registering a skill changes nothing when it fails. -/
theorem register_keepsOnError (r : Registry) (s : Skill) : KeepsOnError r (r.register s) := by
  intro e he
  cases hopen : r.initialized with
  | false => simp [register, hopen]
  | true =>
    rw [register_eq hopen] at he ⊢
    cases hrefusal : refusal? r.skills s with
    | some _ => rfl
    | none => simp [hrefusal] at he

/-- A batch changes nothing when it fails, which an open registry never does. -/
theorem registerBatch_keepsOnError (r : Registry) (skills : List Skill) :
    KeepsOnError r (r.registerBatch skills) := by
  intro e he
  cases hopen : r.initialized with
  | false => simp [registerBatch, hopen]
  | true => simp [registerBatch_eq hopen] at he

/-- Unregistering a name changes nothing when it fails. -/
theorem unregister_keepsOnError (r : Registry) (name : String) :
    KeepsOnError r (r.unregister name) := by
  intro e he
  cases hopen : r.initialized with
  | false => simp [unregister, hopen]
  | true =>
    cases hcut : cutAt? name r.skills with
    | none => simp [unregister, hopen, hcut]
    | some cut => simp [unregister, hopen, hcut] at he

/-- A shut registry refuses a scan of a directory that exists, whatever the directory holds. -/
theorem scan_of_shut (hshut : r.initialized = false) (hdir : fs.isDirectory dir = true) :
    Discovery.scan fs r dir = (.error .notInitialized, r) := by
  simp [Discovery.scan, hdir, Discovery.list_of_isDirectory hdir, Discovery.scanNames,
    registerBatch, hshut]

/-- Scanning a directory changes nothing when it fails, which it only does in an open registry when
there is no such directory. -/
theorem scan_keepsOnError (fs : FileSystem) (r : Registry) (dir : String) :
    KeepsOnError r (Discovery.scan fs r dir) := by
  intro e he
  cases hdir : fs.isDirectory dir with
  | false => simp [Discovery.scan, hdir]
  | true =>
    cases hopen : r.initialized with
    | false => rw [scan_of_shut hopen hdir]
    | true => simp [Discovery.scan_eq hopen hdir] at he

/-- Calls that fail leave any registry as it was. -/
theorem failsCleanly (r : Registry) : FailsCleanly r :=
  ⟨register_keepsOnError r, registerBatch_keepsOnError r, unregister_keepsOnError r,
    fun fs dir => scan_keepsOnError fs r dir⟩

/-! ## Registries that are shut -/

/-- A registry that is shut has given up its skills and its room. -/
def GaveUp (r : Registry) : Prop := r.initialized = false → r = r.shutdown

/-- Only giving up shuts a registry. -/
theorem gaveUp_edit {P : Skill → Prop} {r' : Registry} (hedit : Edit P r r') : GaveUp r' := by
  intro hshut
  cases hedit with
  | add hopen => exact absurd (hopen.symm.trans hshut) Bool.noConfusion
  | remove hopen => exact absurd (hopen.symm.trans hshut) Bool.noConfusion
  | replace hopen => exact absurd (hopen.symm.trans hshut) Bool.noConfusion
  | shutdown => rfl
  | reopen => exact absurd hshut Bool.noConfusion

/-- After any run a registry that is shut has given up its skills and its room. -/
theorem gaveUp_run (ops : List Operation) : GaveUp (new.run ops) :=
  (run_edits new ops).preserve (fun _ _ _ hedit => gaveUp_edit hedit) fun hshut =>
    absurd hshut Bool.noConfusion

/-- Scans leave a shut registry as it is, whichever of the directories exist. -/
theorem scanAll_of_shut (hshut : r.initialized = false) (fs : FileSystem) (dirs : List String) :
    (Discovery.scanAll fs r dirs).2 = r := by
  induction dirs with
  | nil => rfl
  | cons dir rest ih =>
    rw [Discovery.scanAll]
    cases hdir : fs.isDirectory dir with
    | false => exact ih
    | true => simp [scan_of_shut hshut hdir]

/-- A call other than opening leaves a shut registry as it is. -/
theorem apply_of_shut (hshut : r.initialized = false) (hgone : r = r.shutdown) {op : Operation}
    (hop : op ≠ .reopen) : op.apply r = r := by
  cases op with
  | register s => simp [Operation.apply, register, hshut]
  | registerBatch skills => simp [Operation.apply, registerBatch, hshut]
  | unregister name => simp [Operation.apply, unregister, hshut]
  | reload fs name => simp [Operation.apply, reload_of_shut hshut]
  | scan fs dir =>
    rw [Operation.apply]
    cases hdir : fs.isDirectory dir with
    | false => simp [Discovery.scan, hdir]
    | true => rw [scan_of_shut hshut hdir]
  | scanAll fs dirs => exact scanAll_of_shut hshut fs dirs
  | shutdown => exact hgone.symm
  | reopen => exact absurd rfl hop

/-- Without opening, no run changes a shut registry. -/
theorem run_of_shut (hshut : r.initialized = false) (hgone : r = r.shutdown)
    {later : List Operation} (hlater : Operation.reopen ∉ later) : r.run later = r := by
  induction later with
  | nil => rfl
  | cons op rest ih =>
    rw [List.mem_cons, not_or] at hlater
    have hfirst := apply_of_shut hshut hgone (Ne.symm hlater.1)
    calc r.run (op :: rest) = (op.apply r).run rest := rfl
      _ = r.run rest := by rw [hfirst]
      _ = r := ih hlater.2

/-- A shut registry that gave up everything is closed off. -/
theorem GaveUp.closedOff (h : GaveUp r) (hshut : r.initialized = false) : ClosedOff r where
  register s := by simp [Registry.register, hshut]
  registerBatch skills := by simp [Registry.registerBatch, hshut]
  unregister name := by simp [Registry.unregister, hshut]
  reload fs name := reload_of_shut hshut
  scan fs dir hdir := scan_of_shut hshut hdir
  find name := by simp [Registry.find, hshut]
  list := by simp [Registry.list, hshut]
  names := by simp [Registry.names, hshut]
  contains name := by simp [Registry.contains, hshut]
  lasting later hlater := run_of_shut hshut (h hshut) hlater
  reopened := by rw [h hshut]; rfl

/-- After any run, calls that fail leave the registry as it was, and if the registry is shut, it is
closed off until it is opened. -/
theorem refusals_run (ops : List Operation) :
    FailsCleanly (new.run ops) ∧
      ((new.run ops).initialized = false → ClosedOff (new.run ops)) :=
  ⟨failsCleanly _, (gaveUp_run ops).closedOff⟩

/-- A registry that was shut down twice is shut and closed off. -/
theorem refusals_run_shutdown :
    (new.run [.shutdown, .shutdown]).initialized = false ∧
      ClosedOff (new.run [.shutdown, .shutdown]) :=
  ⟨rfl, (refusals_run [.shutdown, .shutdown]).2 rfl⟩

end Repertoire.Registry
