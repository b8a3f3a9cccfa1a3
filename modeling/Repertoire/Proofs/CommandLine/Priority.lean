import Repertoire.CommandLine.Run
import Repertoire.Proofs.Manifest.RoundTrip
import Repertoire.Proofs.Skill.Scanning

/-!
# Which skill is found under a name

The directories with skills have an order: that of the project, that of the workspace, the personal
one, the configured ones, and the catalog last. The skill that is found under a name is the first in
that order which is fit for use, and within one directory the first by the names of the files. An
unfit copy takes no name away from a later one, a fit one takes it from all later ones, and whatever
does not enter is reported once for each time it is met.

No file changes while skills are loaded, and a directory that exists can be listed.
-/

namespace Repertoire.CommandLine.Context

open Repertoire.Registry (firstFit? losers winners)
open Repertoire.Discovery (candidates isCandidate listed offers reports unloadable)

variable {c : Context} {fs : FileSystem}

/-- The directory of the catalog, if the catalog is enabled. -/
def catalogDirs (c : Context) : List String :=
  if c.settings.catalog.enabled then [c.catalog.dir] else []

/-- The directories with skills, in order of priority. -/
def sources (c : Context) (fs : FileSystem) : List String :=
  let here := FileSystem.placePath fs.workingDir
  [Path.join here ".skillhost/skills",
    Path.join (Path.join here c.settings.skills.workspaceDir) "skills",
    Path.join (Location.dataDir c.env c.given) "skills"] ++
    c.settings.skills.searchPaths ++ c.catalogDirs

/-- The registry is what the directories with skills make it, in order of priority. The scans are
those of the local directories and of the catalog, and the registries those after each of them. -/
structure ByPriority (c : Context) (fs : FileSystem) (found added : Scan) (r₁ r : Registry) :
    Prop where
  localScan : Discovery.scanAll fs .new (c.searchPaths fs) = (.ok found, r₁)
  catalogScan : (if c.settings.catalog.enabled then c.catalog.load fs r₁ else (.ok .empty, r₁)) =
    (.ok added, r)
  loaded : c.loadRegistry fs = .ok r
  find : ∀ n, r.find n = match firstFit? n (offers fs (c.sources fs)) with
    | some s => .ok s
    | none => .error (.notFound .skill n)
  order : r.skills = winners (offers fs (c.sources fs))
  failures : (found.failures ++ added.failures).Perm
    (reports fs (c.sources fs) (losers (offers fs (c.sources fs))))
  localFirst : ∀ n s, r₁.find n = .ok s → r.find n = .ok s
  byName : ∀ dir, ∃ order : List String, order.Perm (listed fs dir) ∧ order.Pairwise (· ≤ ·) ∧
    candidates fs dir (listed fs dir) = (order.map (Path.join dir)).filter (isCandidate fs)

/-- The directories are the local ones and then that of the catalog. -/
theorem sources_eq (c : Context) (fs : FileSystem) :
    c.sources fs = c.searchPaths fs ++ c.catalogDirs := by
  simp [sources, searchPaths, Discovery.searchPaths, Discovery.skillsDir, Function.comp_def]

/-- What is found in a registry after skills were offered to an empty one. -/
theorem find_insertAll_new (skills : List Skill) (n : String) :
    (Registry.new.insertAll skills).2.find n = match firstFit? n skills with
      | some s => .ok s
      | none => .error (.notFound .skill n) := by
  have hopen : (Registry.new.insertAll skills).2.initialized = true :=
    Registry.insertAll_initialized .new skills
  rw [Registry.find, hopen, (Registry.insertAll_eq .new rfl skills).2, Registry.find?_winners]
  rfl

/-- Scanning the catalog is scanning its directory, if it is enabled and exists. -/
theorem catalogScan_eq (c : Context) (fs : FileSystem) (r : Registry) :
    (if c.settings.catalog.enabled then c.catalog.load fs r else (.ok .empty, r)) =
      Discovery.scanAll fs r c.catalogDirs := by
  rw [catalogDirs]
  cases c.settings.catalog.enabled with
  | false => rfl
  | true =>
    simp only [if_true, Catalog.load, Catalog.scanLocalCopy, Discovery.scanAll]
    split
    · rfl
    · rcases Discovery.scan fs r c.catalog.dir with ⟨e | found, r'⟩
      · rfl
      · simp [Scan.append, Scan.empty]

/-- With skills enabled, the registry is what the directories with skills make it. -/
theorem loadRegistry_byPriority (c : Context) (fs : FileSystem)
    (henabled : c.settings.skills.enabled = true) :
    ∃ found added r₁ r, ByPriority c fs found added r₁ r := by
  obtain ⟨found, hfound, -, hfailures⟩ :=
    Discovery.scanAll_eq fs (show Registry.new.initialized = true from rfl) (c.searchPaths fs)
  obtain ⟨added, hadded, -, hmore⟩ := Discovery.scanAll_eq fs
    (Registry.insertAll_initialized .new (offers fs (c.searchPaths fs))) c.catalogDirs
  rw [← catalogScan_eq] at hadded
  -- Two scans in a row insert what one insertion of both offers inserts, so that every part of the
  -- result is read off a single insertion into an empty registry.
  have hoffers : offers fs (c.sources fs) =
      offers fs (c.searchPaths fs) ++ offers fs c.catalogDirs := by
    rw [sources_eq, Discovery.offers_append]
  have hall := Registry.insertAll_append .new (offers fs (c.searchPaths fs))
    (offers fs c.catalogDirs)
  rw [← hoffers] at hall
  have hstate := congrArg Prod.snd hall
  have hrejected := congrArg (fun out => out.1.rejected) hall
  simp only [(Registry.insertAll_eq .new rfl (offers fs (c.sources fs))).1] at hrejected
  refine ⟨found, added, _, _, hfound, hadded, ?loaded, ?find, ?order, ?failures, ?localFirst,
    fun dir => Discovery.candidates_order fs dir _⟩
  case loaded =>
    simp only [loadRegistry, henabled, hfound, Bool.not_true, Bool.false_eq_true, if_false]
    cases hcatalog : c.settings.catalog.enabled with
    | false =>
      simp only [hcatalog, Bool.false_eq_true, if_false, Prod.mk.injEq] at hadded
      simp only [Bool.not_false, if_true, ← hadded.2]
    | true =>
      simp only [hcatalog, if_true] at hadded
      simp only [Bool.not_true, Bool.false_eq_true, if_false, hadded]
  case find =>
    intro n
    rw [← find_insertAll_new]
    exact congrArg (Registry.find · n) hstate.symm
  case order =>
    rw [← (Registry.insertAll_eq .new rfl (offers fs (c.sources fs))).2]
    exact congrArg Registry.skills hstate.symm
  case failures =>
    rw [hrejected, sources_eq]
    exact (hfailures.append hmore).trans (Discovery.reports_append fs _ _ _ _)
  case localFirst =>
    intro n s hfind
    rw [find_insertAll_new] at hfind
    have hfirst : firstFit? n (offers fs (c.searchPaths fs)) = some s := by
      cases h : firstFit? n (offers fs (c.searchPaths fs)) with
      | none => simp [h] at hfind
      | some t => simpa [h] using hfind
    rw [← hstate, find_insertAll_new, hoffers, firstFit?, List.find?_append, ← firstFit?, hfirst]
    rfl

/-- The manifest of a greeting. -/
def greeting (description : String) : Manifest :=
  ⟨"greet", description, "", none, [], [], [], none⟩

/-- A greeting without a description in the project, and one with a description in the personal
directory. -/
def greetings : FileSystem where
  entries := [([".skillhost"], .directory), ([".skillhost", "skills"], .directory),
    ([".skillhost", "skills", "a.json"], .file (greeting "").toJsonText.toUTF8 0),
    (["data"], .directory), (["data", "skills"], .directory),
    (["data", "skills", "b.json"], .file (greeting "greets").toJsonText.toUTF8 0)]
  workingDir := []
  now := 0

/-- Default settings, except that the personal directory is configured once more. -/
def personalTwice : Context where
  env := ⟨[], none⟩
  given := ⟨none, some "/data"⟩
  settings := { Settings.default with skills := ⟨true, ["/data/skills"], "workspace"⟩ }
  remote := fun _ => .unreachable

/-- The candidates that are met, the personal one twice. -/
theorem met_greetings : Discovery.met greetings (personalTwice.sources greetings) =
    ["/.skillhost/skills/a.json", "/data/skills/b.json", "/data/skills/b.json"] := by
  have hsources : personalTwice.sources greetings =
      ["/.skillhost/skills", "/workspace/skills", "/data/skills", "/data/skills"] := by
    decide
  have hproject : Discovery.met greetings ["/.skillhost/skills"] =
      ["/.skillhost/skills/a.json"] := by
    have hdir : greetings.isDirectory "/.skillhost/skills" = true := rfl
    have hlisted : listed greetings "/.skillhost/skills" = ["a.json"] := rfl
    have hpath : Path.join "/.skillhost/skills" "a.json" = "/.skillhost/skills/a.json" := by decide
    have hfile : isCandidate greetings "/.skillhost/skills/a.json" = true := rfl
    simp [Discovery.met, hdir, hlisted, candidates, hpath, hfile]
  have hworkspace : Discovery.met greetings ["/workspace/skills"] = [] :=
    Discovery.met_missing rfl
  have hpersonal : Discovery.met greetings ["/data/skills"] = ["/data/skills/b.json"] := by
    have hdir : greetings.isDirectory "/data/skills" = true := rfl
    have hlisted : listed greetings "/data/skills" = ["b.json"] := rfl
    have hpath : Path.join "/data/skills" "b.json" = "/data/skills/b.json" := by decide
    have hfile : isCandidate greetings "/data/skills/b.json" = true := rfl
    simp [Discovery.met, hdir, hlisted, candidates, hpath, hfile]
  have hsplit : ["/.skillhost/skills", "/workspace/skills", "/data/skills", "/data/skills"] =
      ["/.skillhost/skills"] ++ (["/workspace/skills"] ++ (["/data/skills"] ++ ["/data/skills"])) :=
    rfl
  rw [hsources, hsplit, Discovery.met_append, Discovery.met_append, Discovery.met_append, hproject,
    hworkspace, hpersonal]
  rfl

/-- Every candidate that is met is loaded. -/
theorem offers_greetings :
    offers greetings (personalTwice.sources greetings) =
        [.ofManifest 0 { greeting "" with location := some "/.skillhost/skills/a.json" },
          .ofManifest 0 { greeting "greets" with location := some "/data/skills/b.json" },
          .ofManifest 0 { greeting "greets" with location := some "/data/skills/b.json" }] ∧
      unloadable greetings (personalTwice.sources greetings) = [] := by
  have hunfit : Skill.load greetings "/.skillhost/skills/a.json" =
      .ok (.ofManifest 0 { greeting "" with location := some "/.skillhost/skills/a.json" }) :=
    JsonManifest.load_written (by decide) (JsonManifest.readText_toUTF8 rfl)
  have hfit : Skill.load greetings "/data/skills/b.json" =
      .ok (.ofManifest 0 { greeting "greets" with location := some "/data/skills/b.json" }) :=
    JsonManifest.load_written (by decide) (JsonManifest.readText_toUTF8 rfl)
  constructor
  · rw [offers, met_greetings, List.filterMap_cons_some (by rw [hunfit]; rfl),
      List.filterMap_cons_some (by rw [hfit]; rfl), List.filterMap_cons_some (by rw [hfit]; rfl),
      List.filterMap_nil]
  · have hnone : Discovery.failure? greetings "/.skillhost/skills/a.json" = none := by
      rw [Discovery.failure?, hunfit]
    have hnone' : Discovery.failure? greetings "/data/skills/b.json" = none := by
      rw [Discovery.failure?, hfit]
    rw [unloadable, met_greetings, List.filterMap_cons_none hnone, List.filterMap_cons_none hnone',
      List.filterMap_cons_none hnone', List.filterMap_nil]

/-- The unfit greeting of the project does not block the personal one, which is found once and
reported once. -/
theorem loadRegistry_byPriority_greetings :
    ∃ found added r₁ r, ByPriority personalTwice greetings found added r₁ r ∧
      r.skills = [.ofManifest 0 { greeting "greets" with location := some "/data/skills/b.json" }] ∧
      (found.failures ++ added.failures).Perm
        [("/.skillhost/skills/a.json", .validation "skill 'greet' has an empty description"),
          ("/data/skills/b.json", .alreadyExists .skill "greet")] := by
  obtain ⟨found, added, r₁, r, h⟩ := loadRegistry_byPriority personalTwice greetings rfl
  obtain ⟨hoffers, hunloadable⟩ := offers_greetings
  refine ⟨found, added, r₁, r, h, ?_, ?_⟩
  · rw [h.order, hoffers]
    decide
  · have hfailures := h.failures
    rw [reports, hunloadable, hoffers] at hfailures
    exact hfailures.trans (.of_eq (by decide))

end Repertoire.CommandLine.Context
