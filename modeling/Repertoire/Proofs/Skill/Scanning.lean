import Repertoire.Proofs.Registry.Batch
import Repertoire.Proofs.Skill.Loading

/-!
# Scanning directories

Scanning directories in order comes to the same as meeting all their candidates in one go: each
candidate is loaded or reported, and the skills that were loaded are offered to the registry in the
order in which they were met. A directory that is listed twice is met twice. Nothing here depends on
which directories exist, as long as no file changes in between.
-/

namespace Repertoire

/-- A skill that comes out of a file knows that file. -/
theorem Skill.location_of_load {fs : FileSystem} {path : String} {s : Skill}
    (h : load fs path = .ok s) :
    ∃ file, resolve fs path = .ok file ∧ s.manifest.location = some file := by
  obtain ⟨file, hfile, hload⟩ := load_eq_ok h
  obtain ⟨text, m, -, -, rfl⟩ := loadFile_eq_ok hload
  exact ⟨file, hfile, rfl⟩

namespace Discovery

open Registry (winners losers)

variable {fs : FileSystem} {r : Registry} {dir : String}

/-! ## Candidates -/

/-- The candidates of a directory are visited in the order of their names, whatever order the
directory lists them in. -/
theorem candidates_order (fs : FileSystem) (dir : String) (names : List String) :
    ∃ order : List String, order.Perm names ∧ order.Pairwise (· ≤ ·) ∧
      candidates fs dir names = (order.map (Path.join dir)).filter (isCandidate fs) := by
  refine ⟨names.mergeSort nameOrder, List.mergeSort_perm names nameOrder, ?_, rfl⟩
  have htrans (a b c : String) (hab : nameOrder a b = true) (hbc : nameOrder b c = true) :
      nameOrder a c = true := by
    simp only [nameOrder, decide_eq_true_eq] at hab hbc ⊢
    exact String.le_trans hab hbc
  have htotal (a b : String) : (nameOrder a b || nameOrder b a) = true := by
    simp only [nameOrder, Bool.or_eq_true, decide_eq_true_eq]
    exact String.le_total a b
  have hsorted := List.pairwise_mergeSort htrans htotal names
  exact hsorted.imp fun hab => of_decide_eq_true hab

/-- The names that a directory lists. -/
def listed (fs : FileSystem) (dir : String) : List String :=
  match fs.list dir with
  | .ok names => names
  | .error _ => []

/-- The candidates that are met when directories are scanned in order. -/
def met (fs : FileSystem) (dirs : List String) : List String :=
  dirs.flatMap fun dir => if fs.isDirectory dir then candidates fs dir (listed fs dir) else []

/-- The skills that are loaded from the candidates that are met. -/
def offers (fs : FileSystem) (dirs : List String) : List Skill :=
  (met fs dirs).filterMap fun path => (Skill.load fs path).toOption

/-- The candidates that are met and cannot be loaded, with the reasons. -/
def unloadable (fs : FileSystem) (dirs : List String) : List (String × Error) :=
  (met fs dirs).filterMap (failure? fs)

/-- The file that a skill came from. -/
def origin (s : Skill) : String := s.manifest.location.getD ""

/-- What is reported for directories: the candidates that cannot be loaded, and the skills that were
rejected, each under its file. -/
def reports (fs : FileSystem) (dirs : List String) (rejected : List (Skill × Error)) :
    List (String × Error) :=
  unloadable fs dirs ++ rejected.map fun (s, e) => (origin s, e)

/-- A directory that exists can be listed. -/
theorem list_of_isDirectory (h : fs.isDirectory dir = true) :
    fs.list dir = .ok (listed fs dir) := by
  rw [listed, FileSystem.list]
  rcases hlook : fs.lookUp? dir with fault | ⟨place, _ | _ | _⟩ <;>
    simp_all [FileSystem.isDirectory]

/-- An offered skill came from a file. -/
theorem location_of_mem_offers {dirs : List String} {s : Skill} (h : s ∈ offers fs dirs) :
    s.manifest.location = some (origin s) := by
  obtain ⟨path, -, hpath⟩ := List.mem_filterMap.mp h
  cases hload : Skill.load fs path with
  | error e => simp [hload, Except.toOption] at hpath
  | ok t =>
    obtain rfl : t = s := by simpa [hload, Except.toOption] using hpath
    obtain ⟨file, -, hfile⟩ := Skill.location_of_load hload
    rw [origin, hfile, Option.getD_some]

/-! ## Scanning -/

/-- Meeting the candidates of some directories and then those of others. -/
theorem met_append (fs : FileSystem) (a b : List String) : met fs (a ++ b) = met fs a ++ met fs b :=
  List.flatMap_append

/-- Skills are offered in the order of the directories. -/
theorem offers_append (fs : FileSystem) (a b : List String) :
    offers fs (a ++ b) = offers fs a ++ offers fs b := by
  rw [offers, met_append, List.filterMap_append, ← offers, ← offers]

/-- What cannot be loaded is met in the order of the directories. -/
theorem unloadable_append (fs : FileSystem) (a b : List String) :
    unloadable fs (a ++ b) = unloadable fs a ++ unloadable fs b := by
  rw [unloadable, met_append, List.filterMap_append, ← unloadable, ← unloadable]

/-- What is reported for some directories and then for others is reported for all of them. -/
theorem reports_append (fs : FileSystem) (a b : List String) (x y : List (Skill × Error)) :
    (reports fs a x ++ reports fs b y).Perm (reports fs (a ++ b) (x ++ y)) := by
  rw [reports, reports, reports, unloadable_append, List.map_append, List.append_assoc,
    List.append_assoc]
  exact (List.perm_append_comm_assoc _ _ _).append_left _

/-- A directory that is missing offers nothing. -/
theorem met_missing (hdir : fs.isDirectory dir = false) : met fs [dir] = [] := by
  simp [met, hdir]

/-- Scanning a directory that exists reports what cannot be loaded, offers the rest to the registry,
and reports what was rejected. -/
theorem scan_eq (hopen : r.initialized = true) (hdir : fs.isDirectory dir = true) :
    scan fs r dir =
      (.ok ⟨(r.insertAll (offers fs [dir])).1.registered,
          reports fs [dir] (r.insertAll (offers fs [dir])).1.rejected⟩,
        (r.insertAll (offers fs [dir])).2) := by
  have hmet : met fs [dir] = candidates fs dir (listed fs dir) := by simp [met, hdir]
  have hrejected : (r.insertAll (offers fs [dir])).1.rejected.map (rejection dir) =
      (r.insertAll (offers fs [dir])).1.rejected.map fun (s, e) => (origin s, e) := by
    refine List.map_congr_left fun (s, e) hmem => ?_
    rw [rejection, location_of_mem_offers (Registry.mem_of_mem_rejected hmem), Option.getD_some]
  rw [reports, ← hrejected]
  simp only [scan, hdir, Bool.not_true, Bool.false_eq_true, if_false, list_of_isDirectory hdir,
    scanNames, loadAll_eq, Registry.registerBatch, hopen, offers, unloadable, hmet]

/-- Scanning directories in order never fails in an open registry. The skills that are loaded are
offered in the order in which they are met, and everything that does not enter is reported once. -/
theorem scanAll_eq (fs : FileSystem) (hopen : r.initialized = true) (dirs : List String) :
    ∃ found, scanAll fs r dirs = (.ok found, (r.insertAll (offers fs dirs)).2) ∧
      found.skills = (r.insertAll (offers fs dirs)).1.registered ∧
      found.failures.Perm (reports fs dirs (r.insertAll (offers fs dirs)).1.rejected) := by
  induction dirs generalizing r with
  | nil => exact ⟨.empty, rfl, rfl, .refl _⟩
  | cons dir rest ih =>
    have hsplit : dir :: rest = [dir] ++ rest := rfl
    by_cases hdir : fs.isDirectory dir = true
    · have hstill := (Registry.insertAll_initialized r (offers fs [dir])).trans hopen
      obtain ⟨more, hmore, hskills, hfailures⟩ := ih hstill
      rw [scanAll, hsplit, offers_append]
      simp only [hdir, Bool.not_true, Bool.false_eq_true, if_false, scan_eq hopen hdir, hmore,
        Registry.insertAll_append]
      refine ⟨_, rfl, by rw [Scan.append, hskills], ?_⟩
      exact (hfailures.append_left _).trans (reports_append fs [dir] rest _ _)
    · have hskip : met fs (dir :: rest) = met fs rest := by
        rw [hsplit, met_append, met_missing (Bool.eq_false_iff.mpr hdir), List.nil_append]
      have hoffers : offers fs (dir :: rest) = offers fs rest := by rw [offers, hskip, ← offers]
      have hreports : reports fs (dir :: rest) = reports fs rest := by
        funext rejected
        rw [reports, unloadable, hskip, ← unloadable, ← reports]
      rw [scanAll, hoffers, hreports]
      simpa [hdir] using ih hopen

/-! ## Scans as batches -/

/-- Scanning a directory registers skills that came out of files, and does nothing else to the
registry. -/
theorem scan_registers (fs : FileSystem) (r : Registry) (dir : String) :
    ∃ skills, (∀ s ∈ skills, ∃ path, Skill.load fs path = .ok s) ∧
      (scan fs r dir).2 = (r.registerBatch skills).2 := by
  have hnothing : ∃ skills : List Skill, (∀ s ∈ skills, ∃ path, Skill.load fs path = .ok s) ∧
      r = (r.registerBatch skills).2 :=
    ⟨[], fun _ hs => absurd hs List.not_mem_nil, r.registerBatch_nil.symm⟩
  rw [scan]
  split
  · exact hnothing
  · cases fs.list dir with
    | error fault => exact hnothing
    | ok names =>
      refine ⟨(loadAll fs (candidates fs dir names)).1, fun s => load_of_mem_loadAll, ?_⟩
      simp only [scanNames]
      rcases r.registerBatch _ with ⟨_ | _, _⟩ <;> rfl

/-- Scanning directories in order registers skills that came out of files. -/
theorem scanAll_registers (fs : FileSystem) (r : Registry) (dirs : List String) :
    ∃ skills, (∀ s ∈ skills, ∃ path, Skill.load fs path = .ok s) ∧
      (scanAll fs r dirs).2 = (r.registerBatch skills).2 := by
  induction dirs generalizing r with
  | nil => exact ⟨[], fun _ hs => absurd hs List.not_mem_nil, r.registerBatch_nil.symm⟩
  | cons dir rest ih =>
    rw [scanAll]
    split
    · exact ih r
    · obtain ⟨first, hfirst, hstate⟩ := scan_registers fs r dir
      rcases hscan : scan fs r dir with ⟨e | found, r'⟩
      · exact ⟨first, hfirst, by rw [← hstate, hscan]⟩
      · obtain ⟨more, hmore, hrest⟩ := ih r'
        refine ⟨first ++ more, fun s hs => ?_, ?_⟩
        · exact (List.mem_append.mp hs).elim (hfirst s) (hmore s)
        · rw [hscan] at hstate
          rw [← Registry.registerBatch_append, ← hstate, ← hrest]
          rcases hagain : scanAll fs r' rest with ⟨e | found', r''⟩ <;> simp only [hagain]

end Discovery

end Repertoire
