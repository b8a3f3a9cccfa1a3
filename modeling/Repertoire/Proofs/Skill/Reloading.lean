import Repertoire.Proofs.FileSystem.Reading
import Repertoire.Proofs.Skill.Loading

/-!
# Reloading skills

A reload gives one of four answers, and the skill after each of them is determined. Nothing happens
to a skill that is not loaded or does not know its file. Otherwise the manifest is forgotten first:
it is replaced by what loading the file gives now, or stays lost when nothing can be loaded, and then
no later reload brings it back.

A skill that came out of a file is the same after any number of reloads, as long as no file changes.
A path that stands for a directory with a manifest file plays no part in this, since the skill
remembers the file.
-/

namespace Repertoire.Skill

variable {fs : FileSystem} {s : Skill}

/-! ## One reload -/

/-- What a reload answers, with the skill afterwards. -/
inductive Reloaded (fs : FileSystem) (s : Skill) : Except Error Unit × Skill → Prop
  | notLoaded (hloaded : s.loaded = false) : Reloaded fs s (.error s.notLoaded, s)
  | noLocation (hloaded : s.loaded = true) (hlocation : s.manifest.location = none) :
      Reloaded fs s (.error s.noLocation, s)
  | failed {location : String} {e : Error} (hloaded : s.loaded = true)
      (hlocation : s.manifest.location = some location) (hload : load fs location = .error e) :
      Reloaded fs s (.error e, s.unload)
  | renewed {location : String} {again : Skill} (hloaded : s.loaded = true)
      (hlocation : s.manifest.location = some location) (hload : load fs location = .ok again) :
      Reloaded fs s (.ok (), ⟨again.manifest, true, again.loadTime, s.extensions⟩)

/-- Every reload gives one of these answers. -/
theorem reloaded (fs : FileSystem) (s : Skill) : Reloaded fs s (s.reload fs) := by
  rw [reload]
  cases hloaded : s.loaded with
  | false => exact .notLoaded hloaded
  | true =>
    cases hlocation : s.manifest.location with
    | none => exact .noLocation hloaded hlocation
    | some location =>
      cases hload : load fs location with
      | error e => simpa [hload] using Reloaded.failed hloaded hlocation hload
      | ok again => simpa [hload] using Reloaded.renewed hloaded hlocation hload

/-- The conditions of an answer decide that it is given. -/
theorem Reloaded.eq {out : Except Error Unit × Skill} (h : Reloaded fs s out) :
    s.reload fs = out := by
  cases h with
  | notLoaded hloaded => simp [reload, hloaded]
  | noLocation hloaded hlocation => simp [reload, hloaded, hlocation]
  | failed hloaded hlocation hload => simp [reload, hloaded, hlocation, hload]
  | renewed hloaded hlocation hload => simp [reload, hloaded, hlocation, hload]

/-- A skill that was loaded again is loaded. -/
theorem loaded_of_reload {fresh : Skill} (h : s.reload fs = (.ok (), fresh)) :
    fresh.loaded = true := by
  cases h ▸ reloaded fs s
  rfl

/-- A skill that comes out of a file was loaded at that time. -/
theorem loadTime_of_load {path : String} (h : load fs path = .ok s) : s.loadTime = some fs.now := by
  obtain ⟨file, -, hfile⟩ := load_eq_ok h
  obtain ⟨text, m, -, -, rfl⟩ := loadFile_eq_ok hfile
  rfl

/-! ## Several reloads -/

/-- The skill after reloads, each of which finds files of its own. -/
def reloadEach (s : Skill) (found : List FileSystem) : Skill :=
  found.foldl (fun s fs => (s.reload fs).2) s

/-- A skill that is not loaded stays as it is. -/
theorem reloadEach_of_notLoaded (hloaded : s.loaded = false) (found : List FileSystem) :
    s.reloadEach found = s := by
  induction found with
  | nil => rfl
  | cons fs rest ih =>
    have hfirst : (s.reload fs).2 = s := by rw [(Reloaded.notLoaded hloaded).eq]
    rw [reloadEach, List.foldl_cons, hfirst]
    exact ih

/-- A loaded skill that knows its file, which gives the manifest of the skill at all times. -/
structure AgreesWithFile (fs : FileSystem) (s : Skill) : Prop where
  loaded : s.loaded = true
  file : ∃ file, s.manifest.location = some file ∧
    ∀ time, (load (fs.atTime time) file).map manifest = .ok s.manifest

/-- A skill that comes out of a file at some time agrees with the file. -/
theorem agreesWithFile_of_load {time : Int} {path : String}
    (h : load (fs.atTime time) path = .ok s) : s.AgreesWithFile fs := by
  refine ⟨loaded_of_load h, ?_⟩
  obtain ⟨file, -, hfile⟩ := load_eq_ok h
  obtain ⟨text, m, htext, hparse, rfl⟩ := loadFile_eq_ok hfile
  rw [FileSystem.readText_atTime] at htext
  refine ⟨file, rfl, fun later => ?_⟩
  have hread : (fs.atTime later).readText file = .ok text := by
    rw [FileSystem.readText_atTime, htext]
  rw [load, resolve_of_readText hread]
  simp only [loadFile, hread, hparse]
  rfl

/-- Reloading a skill that agrees with its file succeeds and keeps the manifest. -/
theorem AgreesWithFile.reload (h : s.AgreesWithFile fs) (time : Int) :
    ∃ fresh : Skill, s.reload (fs.atTime time) = (.ok (), fresh) ∧ fresh.manifest = s.manifest ∧
      fresh.AgreesWithFile fs := by
  obtain ⟨file, hlocation, hload⟩ := h.file
  cases hagain : load (fs.atTime time) file with
  | error e =>
    have hfailed := hload time
    rw [hagain] at hfailed
    exact absurd hfailed (by simp [Except.map])
  | ok again =>
    have hmanifest := hload time
    rw [hagain] at hmanifest
    have hsame : again.manifest = s.manifest := Except.ok.inj hmanifest
    refine ⟨_, (Reloaded.renewed h.loaded hlocation hagain).eq, hsame, rfl, ?_⟩
    rw [hsame]
    exact ⟨file, hlocation, hload⟩

/-- Reloading a skill that agrees with its file keeps the manifest, however often. -/
theorem AgreesWithFile.reloadEach (h : s.AgreesWithFile fs) (times : List Int) :
    (s.reloadEach (times.map fs.atTime)).manifest = s.manifest ∧
      (s.reloadEach (times.map fs.atTime)).AgreesWithFile fs := by
  induction times generalizing s with
  | nil => exact ⟨rfl, h⟩
  | cons time rest ih =>
    obtain ⟨fresh, hreload, hmanifest, hagrees⟩ := h.reload time
    obtain ⟨hrest, hstill⟩ := ih hagrees
    rw [List.map_cons, Skill.reloadEach, List.foldl_cons, hreload]
    exact ⟨hrest.trans hmanifest, hstill⟩

/-! ## What a reload leaves -/

/-- A reload that has nothing to load refuses and changes nothing. Any other reload does what loading
the file does now: it takes over the manifest and the time, or gives the error and leaves the skill
without a manifest for good. What is attached to the skill is never touched. A skill that came out of
a file keeps its manifest and its file through reloads from unchanged files. -/
structure ReloadsExactly (fs : FileSystem) (s : Skill) : Prop where
  notLoaded : s.loaded = false → s.reload fs =
    (.error (.invalidArgument ("skill '" ++ s.name ++ "' is not loaded")), s)
  noLocation : s.loaded = true → s.manifest.location = none → s.reload fs =
    (.error (.invalidArgument ("skill '" ++ s.name ++ "' has no location to reload from")), s)
  renewed : s.loaded = true → ∀ location again, s.manifest.location = some location →
    load fs location = .ok again → again.loadTime = some fs.now ∧
      s.reload fs = (.ok (), { s with
        manifest := again.manifest
        loaded := true
        loadTime := again.loadTime })
  failed : s.loaded = true → ∀ location e, s.manifest.location = some location →
    load fs location = .error e → s.reload fs = (.error e, { s with
      manifest := .empty
      loaded := false
      loadTime := none })
  lost : s.loaded = true → ∀ location e, s.manifest.location = some location →
    load fs location = .error e → ∀ (between : List FileSystem) (later : FileSystem),
      ((s.reload fs).2.reloadEach between).reload later =
        (.error (.invalidArgument "skill '' is not loaded"), (s.reload fs).2)
  extensions : (s.reload fs).2.extensions = s.extensions
  kept : ∀ path, load fs path = .ok s → ∀ (times : List Int) (time : Int),
    ∃ fresh : Skill, (s.reloadEach (times.map fs.atTime)).reload (fs.atTime time) = (.ok (), fresh) ∧
      fresh.manifest = s.manifest ∧ fresh.manifest.location = s.manifest.location

/-- A reload leaves of any skill exactly what loading its file calls for. -/
theorem reloadsExactly (fs : FileSystem) (s : Skill) : ReloadsExactly fs s where
  notLoaded hloaded := (Reloaded.notLoaded hloaded).eq
  noLocation hloaded hlocation := (Reloaded.noLocation hloaded hlocation).eq
  renewed hloaded location again hlocation hload :=
    ⟨loadTime_of_load hload, (Reloaded.renewed hloaded hlocation hload).eq⟩
  failed hloaded location e hlocation hload := (Reloaded.failed hloaded hlocation hload).eq
  lost hloaded location e hlocation hload between later := by
    have hunloaded : s.unload.loaded = false := rfl
    rw [(Reloaded.failed hloaded hlocation hload).eq, reloadEach_of_notLoaded hunloaded]
    exact (Reloaded.notLoaded hunloaded).eq
  extensions := by
    generalize hout : s.reload fs = out
    cases hout ▸ reloaded fs s <;> rfl
  kept path h times time := by
    have hnow : load (fs.atTime fs.now) path = .ok s := h
    obtain ⟨hmanifest, hstill⟩ := (agreesWithFile_of_load hnow).reloadEach times
    obtain ⟨fresh, hreload, hfresh, -⟩ := hstill.reload time
    have hsame := hfresh.trans hmanifest
    exact ⟨fresh, hreload, hsame, congrArg Manifest.location hsame⟩

end Repertoire.Skill
