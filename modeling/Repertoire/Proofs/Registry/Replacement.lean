import Repertoire.Proofs.Registry.Run
import Repertoire.Proofs.Skill.Accounting
import Repertoire.Proofs.Skill.Reloading

/-!
# What reloading a name does to a registry

A name that is not held cannot be reloaded, and nothing happens. The skill of a name that is held
makes way for what its file says now, in the same place and possibly under another name, or is taken
out. Nothing else ever changes. The answer tells which of these happened, and why a skill was lost.

Names are distinct, so the place of a name is the only one, and the skills around it are the ones
whose names the reloaded skill must not have. Its own old name does not count.
-/

namespace Repertoire

namespace Skill

variable {fs : FileSystem} {s fresh : Skill} {e : Error}

/-- A skill with the manifest that its file has now, and with everything that was attached to it. -/
structure RenewedAs (fs : FileSystem) (s fresh : Skill) : Prop where
  wasLoaded : s.loaded = true
  manifest : ∃ location, s.manifest.location = some location ∧
    (load fs location).map Skill.manifest = .ok fresh.manifest
  loaded : fresh.loaded = true
  loadTime : fresh.loadTime = some fs.now
  extensions : fresh.extensions = s.extensions

/-- A reload succeeds when it renews the skill. -/
theorem reload_eq_ok_iff : s.reload fs = (.ok (), fresh) ↔ s.RenewedAs fs fresh := by
  constructor
  · intro h
    cases h ▸ reloaded fs s with
    | @renewed location again hloaded hlocation hload =>
      have htime : again.loadTime = some fs.now := loadTime_of_load hload
      exact ⟨hloaded, ⟨location, hlocation, by rw [hload]; rfl⟩, rfl, htime, rfl⟩
  · rintro ⟨hwas, ⟨location, hlocation, hmanifest⟩, hloaded, htime, hextensions⟩
    cases hload : load fs location with
    | error e =>
      rw [hload] at hmanifest
      exact absurd hmanifest (by simp [Except.map])
    | ok again =>
      rw [hload] at hmanifest
      have hsame : again.manifest = fresh.manifest := Except.ok.inj hmanifest
      rw [(Reloaded.renewed hwas hlocation hload).eq, hsame, loadTime_of_load hload, ← hloaded,
        ← htime, ← hextensions]

/-- A path that gives no skill leads nowhere, to something unreadable, or to a malformed document. -/
theorem load_error {path : String} (h : load fs path = .error e) :
    (∃ missing, e = .fileNotFound missing) ∨ (∃ file fault, e = .readFailed file fault) ∨
      ∃ format detail, e = .malformed format detail := by
  rw [load] at h
  cases hfile : resolve fs path with
  | error cause =>
    rw [hfile] at h
    obtain rfl := Except.error.inj h
    rw [resolve] at hfile
    split at hfile
    · exact .inl ⟨_, (Except.error.inj hfile).symm⟩
    · split at hfile
      · dsimp only at hfile
        split at hfile
        · exact absurd hfile (by simp)
        · exact .inl ⟨_, (Except.error.inj hfile).symm⟩
      · exact absurd hfile (by simp)
  | ok file =>
    rw [hfile] at h
    rcases loadFile_error h with ⟨fault, he⟩ | hmalformed
    · exact .inr (.inl ⟨file, fault, he⟩)
    · exact .inr (.inr hmalformed)

end Skill

namespace Registry

open Skill (RenewedAs)

variable {fs : FileSystem} {r r' : Registry} {s fresh : Skill} {before after others : List Skill}
  {name : String} {e : Error}

/-! ## Why a skill is lost -/

/-- Why a skill among others is lost when its name is reloaded: it cannot be renewed, or what it is
renewed as is not fit for use or has the name of another skill. -/
inductive LostTo (fs : FileSystem) (others : List Skill) (s : Skill) : Error → Prop
  | notLoaded (hloaded : s.loaded = false) : LostTo fs others s s.notLoaded
  | noLocation (hloaded : s.loaded = true) (hlocation : s.manifest.location = none) :
      LostTo fs others s s.noLocation
  | unread {location : String} {e : Error} (hloaded : s.loaded = true)
      (hlocation : s.manifest.location = some location)
      (hload : Skill.load fs location = .error e) : LostTo fs others s e
  | unfit {fresh : Skill} {d : Defect} (hrenewed : s.RenewedAs fs fresh)
      (hdefect : fresh.manifest.defect? = some d) : LostTo fs others s (.validation d.text)
  | taken {fresh : Skill} (hrenewed : s.RenewedAs fs fresh) (hvalid : fresh.validate = .ok ())
      (htaken : fresh.name ∈ namesOf others) : LostTo fs others s (.alreadyExists .skill fresh.name)

/-- A skill is lost when its reload fails. -/
theorem lostTo_of_reload {lost : Skill} (h : s.reload fs = (.error e, lost)) :
    LostTo fs others s e := by
  cases h ▸ Skill.reloaded fs s with
  | notLoaded hloaded => exact .notLoaded hloaded
  | noLocation hloaded hlocation => exact .noLocation hloaded hlocation
  | failed hloaded hlocation hload => exact .unread hloaded hlocation hload

/-- A skill is lost when something stands against what it is renewed as. -/
theorem lostTo_of_refusal (hrenewed : s.RenewedAs fs fresh) (h : refusal? others fresh = some e) :
    LostTo fs others s e := by
  rw [refusal?] at h
  cases hdefect : fresh.manifest.defect? with
  | some d =>
    rw [hdefect] at h
    obtain rfl := Option.some.inj h
    exact .unfit hrenewed hdefect
  | none =>
    rw [hdefect] at h
    by_cases htaken : fresh.name ∈ namesOf others
    · obtain rfl := Option.some.inj ((if_pos htaken).symm.trans h)
      exact .taken hrenewed ((Manifest.validate_eq_ok_iff fresh.manifest).mpr hdefect) htaken
    · exact absurd ((if_neg htaken).symm.trans h) (Option.some_ne_none e).symm

/-- No skill is lost for a reason that would leave the registry as it was. -/
theorem LostTo.ne_unchanged (h : LostTo fs others s e) :
    e ≠ .notInitialized ∧ ∀ kind n, e ≠ .notFound kind n := by
  cases h with
  | unread hloaded hlocation hload =>
    rcases Skill.load_error hload with ⟨_, rfl⟩ | ⟨_, _, rfl⟩ | ⟨_, _, rfl⟩ <;> simp
  | _ => simp [Skill.notLoaded, Skill.noLocation]

/-- A skill is lost to a name only if it was renewed and another skill has the name. -/
theorem LostTo.of_alreadyExists {kind : EntryKind} {n : String}
    (h : LostTo fs others s (.alreadyExists kind n)) : kind = .skill ∧ ∃ fresh,
      s.RenewedAs fs fresh ∧ fresh.validate = .ok () ∧ fresh.name = n ∧ n ∈ namesOf others := by
  generalize he : Error.alreadyExists kind n = e at h
  cases h with
  | notLoaded => exact absurd he (by simp [Skill.notLoaded])
  | noLocation => exact absurd he (by simp [Skill.noLocation])
  | unread hloaded hlocation hload =>
    subst he
    rcases Skill.load_error hload with ⟨_, h⟩ | ⟨_, _, h⟩ | ⟨_, _, h⟩ <;> exact absurd h (by simp)
  | unfit => exact absurd he (by simp)
  | @taken fresh hrenewed hvalid htaken =>
    obtain ⟨rfl, rfl⟩ := Error.alreadyExists.inj he
    exact ⟨rfl, fresh, hrenewed, hvalid, rfl, htaken⟩

/-! ## The place of a name -/

/-- Every listed name has a place. -/
theorem exists_place_of_mem (h : name ∈ namesOf r.skills) :
    ∃ before s after, r.skills = before ++ s :: after ∧ s.name = name := by
  obtain ⟨s, hs, hname⟩ := (mem_namesOf_iff name r.skills).mp h
  obtain ⟨before, after, hskills⟩ := List.append_of_mem hs
  exact ⟨before, s, after, hskills, hname⟩

/-- A cut is made at the first skill of a name. -/
theorem cutAt?_append (hbefore : s.name ∉ namesOf before) (after : List Skill) :
    cutAt? s.name (before ++ s :: after) = some (before, s, after) := by
  induction before with
  | nil => simp [cutAt?]
  | cons t before ih =>
    simp only [namesOf_cons, List.mem_cons, not_or] at hbefore
    rw [List.cons_append, cutAt?, if_neg (Ne.symm hbefore.1), ih hbefore.2]
    rfl

/-- A reloaded skill is accepted unless something stands against it. -/
theorem accept_eq (others : List Skill) (s : Skill) :
    accept others s = match refusal? others s with
      | some e => .error e
      | none => .ok () := by
  simp only [accept, refusal?, Skill.validate, Manifest.validate_eq]
  cases s.manifest.defect? with
  | some d => rfl
  | none => by_cases h : s.name ∈ namesOf others <;> simp [hasName_iff, h]

/-- Reloading the name of a skill renews the skill in its place or takes it out. -/
theorem Consistent.reload_eq (h : Consistent r) (hskills : r.skills = before ++ s :: after) :
    r.reload fs s.name = match s.reload fs with
      | (.error e, _) => (.error e, { r with skills := before ++ after })
      | (.ok (), fresh) =>
        match refusal? (before ++ after) fresh with
        | some e => (.error e, { r with skills := before ++ after })
        | none => (.ok (), { r with skills := before ++ fresh :: after }) := by
  have hopen : r.initialized = true := by
    by_contra hshut
    rw [h.shut (Bool.eq_false_iff.mpr hshut)] at hskills
    exact absurd hskills.symm (by simp)
  have hothers : s.name ∉ namesOf (before ++ after) := name_not_mem_others (hskills ▸ h.nodup)
  have hbefore : s.name ∉ namesOf before := fun hmem =>
    hothers (namesOf_append before after ▸ List.mem_append_left _ hmem)
  simp only [Registry.reload, hopen, Bool.not_true, Bool.false_eq_true, if_false, hskills,
    cutAt?_append hbefore, accept_eq]
  rcases s.reload fs with ⟨e | _, fresh⟩
  · rfl
  · cases hrefusal : refusal? (before ++ after) fresh <;> simp only [hrefusal]

/-- Reloading the name of a skill succeeds when the skill can be renewed, and what it is renewed as
can stand among the others. -/
theorem Consistent.reload_eq_ok_iff (h : Consistent r) (hskills : r.skills = before ++ s :: after) :
    r.reload fs s.name = (.ok (), r') ↔ ∃ fresh, s.RenewedAs fs fresh ∧ fresh.validate = .ok () ∧
      fresh.name ∉ namesOf (before ++ after) ∧ r' = { r with skills := before ++ fresh :: after } := by
  rw [h.reload_eq hskills]
  constructor
  · intro hout
    rcases hreload : s.reload fs with ⟨e | _, fresh⟩
    · simp [hreload] at hout
    · cases hrefusal : refusal? (before ++ after) fresh with
      | some e => simp [hreload, hrefusal] at hout
      | none =>
        obtain ⟨hvalid, hfree⟩ := (refusal?_eq_none_iff _ _).mp hrefusal
        simp only [hreload, hrefusal, Prod.mk.injEq, true_and] at hout
        exact ⟨fresh, Skill.reload_eq_ok_iff.mp hreload, hvalid, hfree, hout.symm⟩
  · rintro ⟨fresh, hrenewed, hvalid, hfree, rfl⟩
    have hrefusal := (refusal?_eq_none_iff (before ++ after) fresh).mpr ⟨hvalid, hfree⟩
    simp only [Skill.reload_eq_ok_iff.mpr hrenewed, hrefusal]

/-- Reloading the name of a skill fails when the skill is lost, and takes it out. -/
theorem Consistent.reload_eq_error_iff (h : Consistent r)
    (hskills : r.skills = before ++ s :: after) :
    r.reload fs s.name = (.error e, r') ↔
      LostTo fs (before ++ after) s e ∧ r' = { r with skills := before ++ after } := by
  rw [h.reload_eq hskills]
  constructor
  · intro hout
    rcases hreload : s.reload fs with ⟨cause | _, fresh⟩
    · simp only [hreload, Prod.mk.injEq, Except.error.injEq] at hout
      obtain ⟨rfl, rfl⟩ := hout
      exact ⟨lostTo_of_reload hreload, rfl⟩
    · cases hrefusal : refusal? (before ++ after) fresh with
      | none => simp [hreload, hrefusal] at hout
      | some cause =>
        simp only [hreload, hrefusal, Prod.mk.injEq, Except.error.injEq] at hout
        obtain ⟨rfl, rfl⟩ := hout
        exact ⟨lostTo_of_refusal (Skill.reload_eq_ok_iff.mp hreload) hrefusal, rfl⟩
  · rintro ⟨hlost, rfl⟩
    cases hlost with
    | notLoaded hloaded => simp only [(Skill.Reloaded.notLoaded hloaded).eq]
    | noLocation hloaded hlocation => simp only [(Skill.Reloaded.noLocation hloaded hlocation).eq]
    | unread hloaded hlocation hload =>
      simp only [(Skill.Reloaded.failed hloaded hlocation hload).eq]
    | unfit hrenewed hdefect =>
      simp only [Skill.reload_eq_ok_iff.mpr hrenewed, refusal?, hdefect]
    | taken hrenewed hvalid htaken =>
      have hdefect := (Manifest.validate_eq_ok_iff _).mp hvalid
      simp only [Skill.reload_eq_ok_iff.mpr hrenewed, refusal?, hdefect, if_pos htaken]

/-! ## The effect of a reload -/

/-- A reload of a name that is not held, or in a registry that is shut, changes nothing. Otherwise
the skill of the name is replaced in its place by what it is renewed as, which is fit for use and has
a name of its own, or it alone is taken out. It is lost to a name exactly when it could be renewed
and what it is renewed as is fit for use, but another skill has the name. -/
structure ReloadEffect (fs : FileSystem) (r : Registry) (name : String) : Prop where
  shut : r.initialized = false → r.reload fs name = (.error .notInitialized, r)
  missing : r.initialized = true → name ∉ namesOf r.skills →
    r.reload fs name = (.error (.notFound .skill name), r)
  replaced : ∀ r', r.reload fs name = (.ok (), r') ↔ ∃ before s after fresh,
    r.skills = before ++ s :: after ∧ s.name = name ∧ s.RenewedAs fs fresh ∧
      fresh.validate = .ok () ∧ fresh.name ∉ namesOf (before ++ after) ∧
      r' = { r with skills := before ++ fresh :: after }
  removed : ∀ e r', (r.reload fs name = (.error e, r') ∧ e ≠ .notInitialized ∧
      ∀ kind n, e ≠ .notFound kind n) ↔ ∃ before s after,
    r.skills = before ++ s :: after ∧ s.name = name ∧ LostTo fs (before ++ after) s e ∧
      r' = { r with skills := before ++ after }
  taken : ∀ kind n, (r.reload fs name).1 = .error (.alreadyExists kind n) ↔ kind = .skill ∧
    ∃ before s after fresh, r.skills = before ++ s :: after ∧ s.name = name ∧
      s.RenewedAs fs fresh ∧ fresh.validate = .ok () ∧ fresh.name = n ∧
      n ∈ namesOf (before ++ after)

/-- A registry that is shut reloads nothing. -/
theorem reload_of_shut (hshut : r.initialized = false) :
    r.reload fs name = (.error .notInitialized, r) := by
  simp [Registry.reload, hshut]

/-- A name that is not held is not reloaded. -/
theorem reload_of_missing (hopen : r.initialized = true) (hname : name ∉ namesOf r.skills) :
    r.reload fs name = (.error (.notFound .skill name), r) := by
  simp [Registry.reload, hopen, (cutAt?_eq_none_iff name r.skills).mpr hname]

/-- A reload changes nothing, or is about the skill in some place. -/
theorem reload_unchanged_or_place (fs : FileSystem) (r : Registry) (name : String) :
    r.reload fs name = (.error .notInitialized, r) ∨
      r.reload fs name = (.error (.notFound .skill name), r) ∨
      ∃ before s after, r.skills = before ++ s :: after ∧ s.name = name := by
  cases hopen : r.initialized with
  | false => exact .inl (reload_of_shut hopen)
  | true =>
    by_cases hname : name ∈ namesOf r.skills
    · exact .inr (.inr (exists_place_of_mem hname))
    · exact .inr (.inl (reload_of_missing hopen hname))

/-- What reloading a name does to the registry after any run. -/
theorem reloadEffect_run (ops : List Operation) (fs : FileSystem) (name : String) :
    ReloadEffect fs (new.run ops) name := by
  have h := consistent_run ops
  refine ⟨reload_of_shut, reload_of_missing, fun r' => ?replaced, fun e r' => ?removed,
    fun kind n => ?taken⟩
  -- Each answer is read off the place of the name. A registry that is shut and a name that is not
  -- there leave everything as it was and answer otherwise.
  case replaced =>
    constructor
    · intro hout
      rcases reload_unchanged_or_place fs (new.run ops) name with
        hshut | hmissing | ⟨before, s, after, hskills, rfl⟩
      · exact absurd (hshut.symm.trans hout) (by simp)
      · exact absurd (hmissing.symm.trans hout) (by simp)
      · obtain ⟨fresh, hfresh⟩ := (h.reload_eq_ok_iff hskills).mp hout
        exact ⟨before, s, after, fresh, hskills, rfl, hfresh⟩
    · rintro ⟨before, s, after, fresh, hskills, rfl, hfresh⟩
      exact (h.reload_eq_ok_iff hskills).mpr ⟨fresh, hfresh⟩
  case removed =>
    constructor
    · rintro ⟨hout, hopen, hfound⟩
      rcases reload_unchanged_or_place fs (new.run ops) name with
        hshut | hmissing | ⟨before, s, after, hskills, rfl⟩
      · exact absurd (Except.error.inj (Prod.mk.inj (hshut.symm.trans hout)).1).symm hopen
      · exact absurd (Except.error.inj (Prod.mk.inj (hmissing.symm.trans hout)).1).symm
          (hfound _ _)
      · exact ⟨before, s, after, hskills, rfl, (h.reload_eq_error_iff hskills).mp hout⟩
    · rintro ⟨before, s, after, hskills, rfl, hlost, rfl⟩
      exact ⟨(h.reload_eq_error_iff hskills).mpr ⟨hlost, rfl⟩, hlost.ne_unchanged⟩
  case taken =>
    constructor
    · intro hout
      rcases reload_unchanged_or_place fs (new.run ops) name with
        hshut | hmissing | ⟨before, s, after, hskills, rfl⟩
      · exact absurd (hshut ▸ hout) (by simp)
      · exact absurd (hmissing ▸ hout) (by simp)
      · have hlost := ((h.reload_eq_error_iff hskills).mp (Prod.ext hout rfl)).1
        obtain ⟨rfl, fresh, hfresh⟩ := hlost.of_alreadyExists
        exact ⟨rfl, before, s, after, fresh, hskills, rfl, hfresh⟩
    · rintro ⟨rfl, before, s, after, fresh, hskills, rfl, hrenewed, hvalid, rfl, htaken⟩
      rw [(h.reload_eq_error_iff hskills).mpr ⟨.taken hrenewed hvalid htaken, rfl⟩]

end Registry

end Repertoire
