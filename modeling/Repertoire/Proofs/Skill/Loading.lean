import Mathlib.Data.List.Basic
import Mathlib.Data.Nat.Notation
import Repertoire.Skill.Discovery

/-!
# Loading skills

What a skill looks like when it comes out of a file, whether it is loaded for the first time or
again, and what loading many paths yields. A path that gives a skill and a path that gives a reason
are kept apart, each in the order of the paths, so nothing is lost and nothing counts twice.
-/

namespace Repertoire

namespace Skill

/-- A file that can be read stands for itself. -/
theorem resolve_of_readText {fs : FileSystem} {path text : String}
    (h : fs.readText path = .ok text) : resolve fs path = .ok path := by
  have hfile : ∃ place content time, fs.lookUp? path = .ok (place, .file content time) := by
    simp only [FileSystem.readText, FileSystem.readBytes] at h
    rcases hlook : fs.lookUp? path with fault | ⟨place, content | _ | _⟩ <;> simp_all
  obtain ⟨place, content, time, hlook⟩ := hfile
  simp [resolve, FileSystem.holds, FileSystem.isDirectory, hlook]

/-- The skill in a file carries the manifest that was parsed, the file as its location, and the
time of loading. -/
theorem loadFile_eq_ok {fs : FileSystem} {file : String} {s : Skill}
    (h : loadFile fs file = .ok s) :
    ∃ text m, fs.readText file = .ok text ∧ Manifest.parse file text = .ok m ∧
      s = ofManifest fs.now { m with location := some file } := by
  rw [loadFile] at h
  cases htext : fs.readText file with
  | error fault => simp [htext] at h
  | ok text =>
    cases hparse : Manifest.parse file text with
    | error e => simp [htext, hparse] at h
    | ok m =>
      simp only [htext, hparse, Except.ok.injEq] at h
      exact ⟨text, m, rfl, hparse, h.symm⟩

/-- A path that gives a skill stands for a file, and the skill is the one in that file. -/
theorem load_eq_ok {fs : FileSystem} {path : String} {s : Skill} (h : load fs path = .ok s) :
    ∃ file, resolve fs path = .ok file ∧ loadFile fs file = .ok s := by
  rw [load] at h
  cases hfile : resolve fs path with
  | error e => simp [hfile] at h
  | ok file => exact ⟨file, rfl, by simpa [hfile] using h⟩

/-- A skill that comes out of a file is loaded. -/
theorem loaded_of_load {fs : FileSystem} {path : String} {s : Skill}
    (h : load fs path = .ok s) : s.loaded = true := by
  obtain ⟨file, -, hfile⟩ := load_eq_ok h
  obtain ⟨text, m, -, -, rfl⟩ := loadFile_eq_ok hfile
  rfl

end Skill

namespace Discovery

/-- The reason for which a path gives no skill, with the path. -/
def failure? (fs : FileSystem) (path : String) : Option (String × Error) :=
  match Skill.load fs path with
  | .ok _ => none
  | .error e => some (path, e)

/-- Loading paths sorts them out, in order. -/
theorem loadAll_eq (fs : FileSystem) (paths : List String) :
    loadAll fs paths =
      (paths.filterMap fun path => (Skill.load fs path).toOption,
        paths.filterMap (failure? fs)) := by
  induction paths with
  | nil => rfl
  | cons path rest ih =>
    rw [loadAll, ih]
    cases hload : Skill.load fs path with
    | error e => simp [failure?, hload, Except.toOption]
    | ok s => simp [failure?, hload, Except.toOption]

/-- What loading paths yields came out of files. -/
theorem load_of_mem_loadAll {fs : FileSystem} {paths : List String} {s : Skill}
    (h : s ∈ (loadAll fs paths).1) : ∃ path, Skill.load fs path = .ok s := by
  rw [loadAll_eq, List.mem_filterMap] at h
  obtain ⟨path, -, hpath⟩ := h
  cases hload : Skill.load fs path with
  | error e => simp [hload, Except.toOption] at hpath
  | ok t =>
    obtain rfl : t = s := by simpa [hload, Except.toOption] using hpath
    exact ⟨path, hload⟩

end Discovery

end Repertoire
