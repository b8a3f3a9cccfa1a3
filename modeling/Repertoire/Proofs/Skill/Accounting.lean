import Repertoire.Proofs.Manifest.Malformed
import Repertoire.Proofs.Manifest.RoundTrip
import Repertoire.Proofs.Registry.Edit
import Repertoire.Proofs.Skill.Scanning

/-!
# What becomes of the entries of a directory

A scan of a directory meets its candidates in the order of their names. Each of them contributes one
thing: a skill that enters the registry, a reason for which nothing could be loaded from it, or a
reason for which its skill was rejected. Loading all candidates comes before registering any, yet
nothing is lost or counted twice in between, and the order in which the directory lists its names
has no influence on anything.

The registry may hold skills already. No file changes during the scan.
-/

namespace Repertoire

/-- A file gives no skill only because it cannot be read or its document is malformed. -/
theorem Skill.loadFile_error {fs : FileSystem} {file : String} {e : Error}
    (h : loadFile fs file = .error e) :
    (∃ fault, e = .readFailed file fault) ∨ ∃ format detail, e = .malformed format detail := by
  rw [loadFile] at h
  cases htext : fs.readText file with
  | error fault =>
    rw [htext] at h
    exact .inl ⟨fault, (Except.error.inj h).symm⟩
  | ok content =>
    simp only [htext] at h
    cases hparse : Manifest.parse file content with
    | error cause =>
      rw [hparse] at h
      exact .inr (Except.error.inj h ▸ Manifest.parse_error hparse)
    | ok m => simp [hparse] at h

/-- What stands against a skill is a defect or a name that is taken. -/
theorem Registry.refusal?_eq_some {held : List Skill} {s : Skill} {e : Error}
    (h : refusal? held s = some e) :
    (∃ text, e = .validation text) ∨ e = .alreadyExists .skill s.name := by
  rw [refusal?] at h
  split at h
  · exact .inl ⟨_, (Option.some.inj h).symm⟩
  · split at h
    · exact .inr (Option.some.inj h).symm
    · simp at h

namespace Discovery

open Registry (refusal?)

/-- Something that a skill can be loaded from: a file with one of the three extensions, or a
directory that holds a manifest file. Links are followed. -/
def HoldsSkill (fs : FileSystem) (path : String) : Prop :=
  (fs.isFile path ∧
      (Path.extension? path = some "toml" ∨ Path.extension? path = some "md" ∨
        Path.extension? path = some "json")) ∨
    (fs.isDirectory path ∧ fs.isFile (Path.join path "SKILL.toml"))

/-- What candidates contribute, each with its path: the skills that enter, the reasons for which
nothing is loaded, and the manifest files of rejected skills with the reasons. -/
structure Contributions where
  entered : List (String × Skill)
  unloaded : List (String × Error)
  rejected : List (String × String × Error)

/-- Every path contributes exactly once to a registry that held skills before, and each kind of
contribution comes in the order of the paths. A skill is rejected for what stands against it once
the skills that entered earlier are held too. -/
structure AccountsFor (fs : FileSystem) (held : List Skill) (paths : List String)
    (c : Contributions) : Prop where
  once : (c.entered.map Prod.fst ++ c.unloaded.map Prod.fst ++ c.rejected.map Prod.fst).Perm paths
  enteredInOrder : (c.entered.map Prod.fst).Sublist paths
  unloadedInOrder : (c.unloaded.map Prod.fst).Sublist paths
  rejectedInOrder : (c.rejected.map Prod.fst).Sublist paths
  entered : ∀ path s, (path, s) ∈ c.entered → Skill.load fs path = .ok s
  unloaded : ∀ path e, (path, e) ∈ c.unloaded → Skill.load fs path = .error e
  rejected : ∀ path file e, (path, file, e) ∈ c.rejected → ∃ s earlier,
    Skill.load fs path = .ok s ∧ Skill.resolve fs path = .ok file ∧
      earlier <+: c.entered.map Prod.snd ∧ refusal? (held ++ earlier) s = some e

variable {fs : FileSystem} {r : Registry} {dir path file : String} {held : List Skill} {s : Skill}
  {e : Error} {paths names : List String} {c : Contributions}

/-! ## Candidates -/

/-- The candidates are the paths that a skill can be loaded from. -/
theorem isCandidate_iff (fs : FileSystem) (path : String) :
    isCandidate fs path = true ↔ HoldsSkill fs path := by
  have hnotBoth : fs.isDirectory path = true → fs.isFile path = false := by
    simp only [FileSystem.isDirectory, FileSystem.isFile]
    rcases fs.lookUp? path with fault | ⟨place, _ | _ | _⟩ <;> simp
  rw [isCandidate, HoldsSkill, Skill.manifestFile]
  cases hdir : fs.isDirectory path with
  | true => simp [hnotBoth hdir]
  | false => cases hext : Path.extension? path <;> simp [extensions]

instance (fs : FileSystem) (path : String) : Decidable (HoldsSkill fs path) :=
  decidable_of_iff (isCandidate fs path = true) (isCandidate_iff fs path)

/-- What a skill can be loaded from stands for a file. -/
theorem resolve_of_holdsSkill (h : HoldsSkill fs path) :
    ∃ file, Skill.resolve fs path = .ok file := by
  rcases h with ⟨hfile, -⟩ | ⟨hdir, hmanifest⟩
  · have hthere : fs.holds path = true ∧ fs.isDirectory path = false := by
      simp only [FileSystem.isFile, FileSystem.holds, FileSystem.isDirectory] at hfile ⊢
      rcases hlook : fs.lookUp? path with fault | ⟨place, _ | _ | _⟩ <;> simp_all
    exact ⟨path, by simp [Skill.resolve, hthere]⟩
  · have hthere : fs.holds path = true := by
      simp only [FileSystem.isDirectory, FileSystem.holds] at hdir ⊢
      rcases hlook : fs.lookUp? path with fault | ⟨place, _ | _ | _⟩ <;> simp_all
    refine ⟨Path.join path "SKILL.toml", ?_⟩
    simp [Skill.resolve, hthere, hdir, Skill.manifestFile, hmanifest]

/-- What a skill can be loaded from is never reported as missing. -/
theorem load_ne_fileNotFound (h : HoldsSkill fs path) (hload : Skill.load fs path = .error e)
    (p : String) : e ≠ .fileNotFound p := by
  obtain ⟨file, hfile⟩ := resolve_of_holdsSkill h
  simp only [Skill.load, hfile] at hload
  rcases Skill.loadFile_error hload with ⟨fault, rfl⟩ | ⟨format, detail, rfl⟩ <;> simp

/-- The candidates of a directory in the order of their names. -/
theorem candidates_eq (fs : FileSystem) (dir : String) (names : List String) :
    ∃ order : List String, order.Pairwise (· ≤ ·) ∧
      order.Perm (names.filter fun n => HoldsSkill fs (Path.join dir n)) ∧
      candidates fs dir names = order.map (Path.join dir) := by
  obtain ⟨order, hperm, hsorted, hcandidates⟩ := candidates_order fs dir names
  refine ⟨order.filter fun n => HoldsSkill fs (Path.join dir n), hsorted.filter _,
    hperm.filter _, ?_⟩
  have hsame : (isCandidate fs ∘ Path.join dir) =
      fun n => decide (HoldsSkill fs (Path.join dir n)) := by
    funext n
    rw [Function.comp_apply, Bool.eq_iff_iff, decide_eq_true_iff, isCandidate_iff]
  rw [hcandidates, List.filter_map, hsame]

/-- The order in which a directory lists its names does not matter. -/
theorem candidates_of_perm {names' : List String} (h : names.Perm names') :
    candidates fs dir names = candidates fs dir names' := by
  obtain ⟨order, hsorted, hperm, hcandidates⟩ := candidates_eq fs dir names
  obtain ⟨order', hsorted', hperm', hcandidates'⟩ := candidates_eq fs dir names'
  have hsame : order = order' :=
    List.Perm.eq_of_pairwise (fun a b _ _ hab hba => String.le_antisymm hab hba) hsorted hsorted'
      ((hperm.trans (h.filter _)).trans hperm'.symm)
  rw [hcandidates, hcandidates', hsame]

/-! ## One more path -/

/-- A path whose skill enters comes before paths that meet the skill in the registry. -/
theorem AccountsFor.cons_entered (h : AccountsFor fs (held ++ [s]) paths c)
    (hload : Skill.load fs path = .ok s) :
    AccountsFor fs held (path :: paths) { c with entered := (path, s) :: c.entered } where
  once := h.once.cons path
  enteredInOrder := h.enteredInOrder.cons_cons path
  unloadedInOrder := h.unloadedInOrder.cons path
  rejectedInOrder := h.rejectedInOrder.cons path
  entered := by
    intro p t hmem
    rcases List.mem_cons.mp hmem with heq | hmem
    · obtain ⟨rfl, rfl⟩ := Prod.mk.inj heq
      exact hload
    · exact h.entered p t hmem
  unloaded := h.unloaded
  rejected := by
    intro p file cause hmem
    obtain ⟨t, earlier, hloaded, hfile, hprefix, hrefusal⟩ := h.rejected p file cause hmem
    refine ⟨t, s :: earlier, hloaded, hfile, ?_, ?_⟩
    · exact (List.prefix_cons_inj s).mpr hprefix
    · rwa [List.append_assoc] at hrefusal

/-- A path that gives no skill. -/
theorem AccountsFor.cons_unloaded (h : AccountsFor fs held paths c)
    (hload : Skill.load fs path = .error e) :
    AccountsFor fs held (path :: paths) { c with unloaded := (path, e) :: c.unloaded } where
  once := by
    rw [List.map_cons, List.append_assoc, List.cons_append]
    refine List.perm_middle.trans (List.Perm.cons path ?_)
    rw [← List.append_assoc]
    exact h.once
  enteredInOrder := h.enteredInOrder.cons path
  unloadedInOrder := h.unloadedInOrder.cons_cons path
  rejectedInOrder := h.rejectedInOrder.cons path
  entered := h.entered
  unloaded := by
    intro p cause hmem
    rcases List.mem_cons.mp hmem with heq | hmem
    · obtain ⟨rfl, rfl⟩ := Prod.mk.inj heq
      exact hload
    · exact h.unloaded p cause hmem
  rejected := h.rejected

/-- A path whose skill is rejected. -/
theorem AccountsFor.cons_rejected (h : AccountsFor fs held paths c)
    (hload : Skill.load fs path = .ok s) (hfile : Skill.resolve fs path = .ok file)
    (hrefusal : refusal? held s = some e) :
    AccountsFor fs held (path :: paths) { c with rejected := (path, file, e) :: c.rejected } where
  once := List.perm_middle.trans (h.once.cons path)
  enteredInOrder := h.enteredInOrder.cons path
  unloadedInOrder := h.unloadedInOrder.cons path
  rejectedInOrder := h.rejectedInOrder.cons_cons path
  entered := h.entered
  unloaded := h.unloaded
  rejected := by
    intro p there cause hmem
    rcases List.mem_cons.mp hmem with heq | hmem
    · obtain ⟨rfl, rfl, rfl⟩ : p = path ∧ there = file ∧ cause = e := by simpa using heq
      exact ⟨s, [], hload, hfile, List.nil_prefix, by rwa [List.append_nil]⟩
    · exact h.rejected p there cause hmem

/-! ## All paths -/

/-- The skills that are loaded from paths. -/
def loadable (fs : FileSystem) (paths : List String) : List Skill :=
  paths.filterMap fun path => (Skill.load fs path).toOption

/-- Loading all paths and then registering what was loaded lets every path contribute once. The
induction is on the paths, with the registry that the paths before have left. -/
theorem insertAll_accounts (fs : FileSystem) (r : Registry) (paths : List String) :
    ∃ c, AccountsFor fs r.skills paths c ∧
      (r.insertAll (loadable fs paths)).1.registered = c.entered.map Prod.snd ∧
      paths.filterMap (failure? fs) = c.unloaded ∧
      ((r.insertAll (loadable fs paths)).1.rejected.map fun (s, e) => (origin s, e)) =
        c.rejected.map Prod.snd ∧
      (r.insertAll (loadable fs paths)).2.skills = r.skills ++ c.entered.map Prod.snd := by
  induction paths generalizing r with
  | nil =>
    refine ⟨⟨[], [], []⟩, ⟨.nil, .slnil, .slnil, .slnil, ?_, ?_, ?_⟩, rfl, rfl, rfl, ?_⟩
    · simp
    · simp
    · simp
    · simp [loadable, Registry.insertAll]
  | cons path rest ih =>
    -- The first path does not load, or its skill is registered, or it is rejected. Only registering
    -- it changes the registry for the paths that are left.
    cases hload : Skill.load fs path with
    | error e =>
      obtain ⟨c, hc, hentered, hunloaded, hrejected, hskills⟩ := ih r
      have hloadable : loadable fs (path :: rest) = loadable fs rest :=
        List.filterMap_cons_none (by rw [hload]; rfl)
      have hfailure : failure? fs path = some (path, e) := by rw [failure?, hload]
      refine ⟨_, hc.cons_unloaded hload, ?_⟩
      rw [hloadable, List.filterMap_cons_some hfailure, hunloaded]
      exact ⟨hentered, rfl, hrejected, hskills⟩
    | ok s =>
      have hloadable : loadable fs (path :: rest) = s :: loadable fs rest :=
        List.filterMap_cons_some (by rw [hload]; rfl)
      have hfailure : failure? fs path = none := by rw [failure?, hload]
      rw [hloadable, List.filterMap_cons_none hfailure, Registry.insertAll_cons]
      cases hrefusal : refusal? r.skills s with
      | none =>
        obtain ⟨c, hc, hentered, hunloaded, hrejected, hskills⟩ := ih (r.added s)
        refine ⟨_, AccountsFor.cons_entered hc hload, ?_, hunloaded, hrejected, ?_⟩
        · simp only [hentered, List.map_cons]
        · simp only [hskills, Registry.added_skills, List.map_cons, List.append_assoc,
            List.singleton_append]
      | some e =>
        obtain ⟨c, hc, hentered, hunloaded, hrejected, hskills⟩ := ih r
        obtain ⟨file, hfile, hlocation⟩ := Skill.location_of_load hload
        have horigin : origin s = file := by rw [origin, hlocation, Option.getD_some]
        refine ⟨_, hc.cons_rejected hload hfile hrefusal, hentered, hunloaded, ?_, hskills⟩
        simp only [List.map_cons, hrejected, horigin]

/-- What a scan of a directory answers, and what it leaves in the registry, whatever order the
directory lists its names in. The candidates are what a skill can be loaded from, in the order of
their names, and each of them contributes once. -/
structure ScanAccounts (fs : FileSystem) (r : Registry) (dir : String) (found : Scan)
    (r' : Registry) : Prop where
  answer : scan fs r dir = (.ok found, r')
  anyOrder : ∀ names : List String, names.Perm (listed fs dir) →
    scanNames fs r dir names = (.ok found, r')
  accounted : ∃ (order : List String) (c : Contributions), order.Pairwise (· ≤ ·) ∧
    order.Perm ((listed fs dir).filter fun n => HoldsSkill fs (Path.join dir n)) ∧
    AccountsFor fs r.skills (order.map (Path.join dir)) c ∧
    found.skills = c.entered.map Prod.snd ∧
    found.failures = c.unloaded ++ c.rejected.map Prod.snd
  neverMissing : ∀ path cause, (path, cause) ∈ found.failures → ∀ p, cause ≠ .fileNotFound p
  registry : r'.skills = r.skills ++ found.skills

/-- Scanning a directory with the names in some order is scanning it. -/
theorem scanNames_eq_scan (hdir : fs.isDirectory dir = true) (h : names.Perm (listed fs dir)) :
    scanNames fs r dir names = scan fs r dir := by
  simp only [scan, hdir, Bool.not_true, Bool.false_eq_true, if_false, list_of_isDirectory hdir,
    scanNames, candidates_of_perm h]

/-- Contributions of candidates never say that a file is missing. -/
theorem AccountsFor.neverMissing (h : AccountsFor fs held paths c)
    (hall : ∀ path ∈ paths, HoldsSkill fs path) :
    ∀ path cause, (path, cause) ∈ c.unloaded ++ c.rejected.map Prod.snd →
      ∀ p, cause ≠ .fileNotFound p := by
  intro path cause hmem p
  rcases List.mem_append.mp hmem with hunloaded | hrejected
  · have hpath : path ∈ c.unloaded.map Prod.fst := List.mem_map.mpr ⟨_, hunloaded, rfl⟩
    exact load_ne_fileNotFound (hall path (h.unloadedInOrder.subset hpath))
      (h.unloaded path cause hunloaded) p
  · obtain ⟨⟨candidate, file, e⟩, hcandidate, heq⟩ := List.mem_map.mp hrejected
    obtain ⟨rfl, rfl⟩ : file = path ∧ e = cause := by simpa using heq
    obtain ⟨s, earlier, -, -, -, hrefusal⟩ := h.rejected candidate file e hcandidate
    rcases Registry.refusal?_eq_some hrefusal with ⟨text, rfl⟩ | rfl <;> simp

/-- A directory that exists is scanned into an open registry in one way only, and every candidate in
it contributes once. -/
theorem scan_accounts (hopen : r.initialized = true) (hdir : fs.isDirectory dir = true) :
    ∃ found r', ScanAccounts fs r dir found r' := by
  obtain ⟨order, hsorted, hperm, hcandidates⟩ := candidates_eq fs dir (listed fs dir)
  obtain ⟨c, hc, hentered, hunloaded, hrejected, hskills⟩ :=
    insertAll_accounts fs r (order.map (Path.join dir))
  have hmet : met fs [dir] = order.map (Path.join dir) := by simp [met, hdir, hcandidates]
  have hscan := scan_eq hopen hdir
  rw [reports, unloadable, offers, hmet, ← loadable, hentered, hunloaded, hrejected] at hscan
  refine ⟨_, _, hscan, fun names hnames => (scanNames_eq_scan hdir hnames).trans hscan,
    ⟨order, c, hsorted, hperm, hc, rfl, rfl⟩, ?_, hskills⟩
  apply hc.neverMissing
  intro path hpath
  obtain ⟨n, hn, rfl⟩ := List.mem_map.mp hpath
  have hlisted := hperm.subset hn
  exact of_decide_eq_true (List.mem_filter.mp hlisted).2

/-- The manifest of a greeting. -/
def greeting : Manifest := ⟨"greet", "greets", "", none, [], [], [], none⟩

/-- A directory that lists, against their order, a file that is no text, a file of another kind, and
the same manifest twice. -/
def assorted : FileSystem where
  entries := [(["d"], .directory), (["d", "c.json"], .file ⟨#[255]⟩ 0),
    (["d", "notes.txt"], .file ByteArray.empty 0),
    (["d", "b.json"], .file greeting.toJsonText.toUTF8 0),
    (["d", "a.json"], .file greeting.toJsonText.toUTF8 0)]
  workingDir := []
  now := 0

/-- The candidates of that directory, in the order of their names. -/
theorem met_assorted : met assorted ["/d"] = ["/d/a.json", "/d/b.json", "/d/c.json"] := by
  have hdir : assorted.isDirectory "/d" = true := rfl
  have hlisted : listed assorted "/d" = ["c.json", "notes.txt", "b.json", "a.json"] := rfl
  obtain ⟨order, hsorted, hperm, hcandidates⟩ := candidates_eq assorted "/d" (listed assorted "/d")
  have hholds : ((listed assorted "/d").filter fun n => HoldsSkill assorted (Path.join "/d" n)) =
      ["c.json", "b.json", "a.json"] := by
    rw [hlisted]
    rfl
  rw [hholds] at hperm
  have hsame : order = ["a.json", "b.json", "c.json"] :=
    List.Perm.eq_of_pairwise (fun a b _ _ hab hba => String.le_antisymm hab hba) hsorted
      (by decide) (hperm.trans (by decide))
  have hpaths : ["a.json", "b.json", "c.json"].map (Path.join "/d") =
      ["/d/a.json", "/d/b.json", "/d/c.json"] := by decide
  simp [met, hdir, hcandidates, hsame, hpaths]

/-- What is loaded from that directory: the manifest twice. -/
theorem offers_assorted :
    offers assorted ["/d"] =
        [.ofManifest 0 { greeting with location := some "/d/a.json" },
          .ofManifest 0 { greeting with location := some "/d/b.json" }] ∧
      unloadable assorted ["/d"] = [("/d/c.json", .readFailed "/d/c.json" .notText)] := by
  have hfirst : Skill.load assorted "/d/a.json" =
      .ok (.ofManifest 0 { greeting with location := some "/d/a.json" }) :=
    JsonManifest.load_written (by decide) (JsonManifest.readText_toUTF8 rfl)
  have hsecond : Skill.load assorted "/d/b.json" =
      .ok (.ofManifest 0 { greeting with location := some "/d/b.json" }) :=
    JsonManifest.load_written (by decide) (JsonManifest.readText_toUTF8 rfl)
  have hthird : Skill.load assorted "/d/c.json" =
      .error (.readFailed "/d/c.json" .notText) := by rfl
  constructor
  · rw [offers, met_assorted, List.filterMap_cons_some (by rw [hfirst]; rfl),
      List.filterMap_cons_some (by rw [hsecond]; rfl),
      List.filterMap_cons_none (by rw [hthird]; rfl), List.filterMap_nil]
  · rw [unloadable, met_assorted, List.filterMap_cons_none (by rw [failure?, hfirst]),
      List.filterMap_cons_none (by rw [failure?, hsecond]),
      List.filterMap_cons_some (by rw [failure?, hthird]), List.filterMap_nil]

/-- Of the three candidates of that directory one enters, one is unreadable and one is rejected. -/
theorem scan_accounts_assorted :
    ∃ found r', ScanAccounts assorted .new "/d" found r' ∧
      found.skills = [.ofManifest 0 { greeting with location := some "/d/a.json" }] ∧
      found.failures = [("/d/c.json", .readFailed "/d/c.json" .notText),
        ("/d/b.json", .alreadyExists .skill "greet")] := by
  have hopen : Registry.new.initialized = true := rfl
  have hdir : assorted.isDirectory "/d" = true := rfl
  obtain ⟨found, r', h⟩ := scan_accounts hopen hdir
  obtain ⟨hoffers, hunloadable⟩ := offers_assorted
  have hanswer := scan_eq hopen hdir
  rw [h.answer, reports, hunloadable, hoffers] at hanswer
  obtain ⟨hfound, -⟩ := Prod.mk.inj hanswer
  refine ⟨found, r', h, ?_, ?_⟩
  · rw [Except.ok.inj hfound]
    decide
  · rw [Except.ok.inj hfound]
    decide

end Discovery

end Repertoire
