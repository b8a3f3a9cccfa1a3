import Repertoire.Proofs.Registry.Room
import Repertoire.Proofs.Skill.PromptBlocks

/-!
# The system prompt and the registry

The system prompt is the heading and one section for each loaded skill, in the order of the
registry. Every call changes it where it changes the registry and nowhere else: sections come at the
end, and the section of a skill that is taken out or reloaded is cut or replaced between those
before it and those behind it. Skills that are not loaded have no section, so they come and go
unseen.

A reload only succeeds for a skill that is loaded, so there is a section to replace. When it fails
over a skill that was found, the skill is gone, and with it its section if it had one.
-/

namespace Repertoire

namespace Prompt

/-- The sections of the skills that are loaded, with what stands behind each. -/
def sections (skills : List Skill) : String := String.join (skills.map part)

@[simp] theorem sections_nil : sections [] = "" := rfl

@[simp] theorem sections_cons (s : Skill) (skills : List Skill) :
    sections (s :: skills) = part s ++ sections skills := by
  simp [sections]

@[simp] theorem sections_append (a b : List Skill) :
    sections (a ++ b) = sections a ++ sections b := by
  simp [sections]

/-- The system prompt for some skills goes on with the sections of others. -/
theorem system_append (a b : List Skill) : system (a ++ b) = system a ++ sections b := by
  rw [system, system, ← sections, ← sections, sections_append, String.append_assoc]

/-- The section of a loaded skill. -/
theorem part_of_loaded {s : Skill} (h : s.loaded = true) :
    part s = s.manifest.prompt ++ separator := by
  simp [part, h]

/-- A skill that is not loaded has no section. -/
theorem part_of_unloaded {s : Skill} (h : s.loaded = false) : part s = "" := by
  simp [part, h]

/-- The system prompt around the section of a skill. -/
theorem system_middle (before after : List Skill) (s : Skill) :
    system (before ++ s :: after) = system before ++ part s ++ sections after := by
  rw [system_append, sections_cons, String.append_assoc]

end Prompt

namespace Registry

open Prompt (part sections separator)

/-- The system prompt for the skills of a registry. -/
def prompt (r : Registry) : String := Prompt.system r.skills

/-- The skill of a name stands between others, and its section between theirs. -/
structure StandsAt (r : Registry) (name : String) (front : List Skill) (s : Skill)
    (back : List Skill) : Prop where
  skills : r.skills = front ++ s :: back
  name : s.name = name
  prompt : r.prompt = Prompt.system front ++ part s ++ sections back

/-- What calls make of the system prompt. Registering a skill puts its section at the end, if it is
loaded. Unregistering a name cuts one section, reloading it replaces one or cuts one, and calls that
fail before they find a skill change nothing. Batches and scans put the sections of the skills that
entered at the end. -/
structure PromptFollows (r : Registry) : Prop where
  registered : ∀ s, (r.register s).1 = .ok () → s.loaded = true →
    (r.register s).2.prompt = r.prompt ++ (s.manifest.prompt ++ separator)
  unseen : ∀ s, (r.register s).1 = .ok () → s.loaded = false →
    (r.register s).2.prompt = r.prompt
  refused : ∀ s e, (r.register s).1 = .error e → (r.register s).2.prompt = r.prompt
  unregistered : ∀ n, (r.unregister n).1 = .ok () → ∃ front s back, r.StandsAt n front s back ∧
    (r.unregister n).2.prompt = Prompt.system front ++ sections back
  missed : ∀ n e, (r.unregister n).1 = .error e → (r.unregister n).2.prompt = r.prompt
  reloaded : ∀ fs n, (r.reload fs n).1 = .ok () → ∃ front s back fresh,
    r.StandsAt n front s back ∧ s.RenewedAs fs fresh ∧
      part s = s.manifest.prompt ++ separator ∧
      (r.reload fs n).2.prompt =
        Prompt.system front ++ (fresh.manifest.prompt ++ separator) ++ sections back
  lost : ∀ fs n e, (r.reload fs n).1 = .error e → n ∈ namesOf r.skills → ∃ front s back,
    r.StandsAt n front s back ∧ (r.reload fs n).2.prompt = Prompt.system front ++ sections back
  notFound : ∀ fs n, n ∉ namesOf r.skills → (r.reload fs n).2.prompt = r.prompt
  batch : ∀ skills outcome, (r.registerBatch skills).1 = .ok outcome →
    (r.registerBatch skills).2.prompt = r.prompt ++ sections outcome.registered
  scanned : ∀ fs dir found, (Discovery.scan fs r dir).1 = .ok found →
    (Discovery.scan fs r dir).2.prompt = r.prompt ++ sections found.skills
  scannedAll : ∀ fs dirs found, (Discovery.scanAll fs r dirs).1 = .ok found →
    (Discovery.scanAll fs r dirs).2.prompt = r.prompt ++ sections found.skills
  shutDown : r.shutdown.prompt = Prompt.heading
  reopened : r.reopen.prompt = r.prompt

variable {r : Registry} {front back : List Skill} {s fresh : Skill} {n : String}

/-! ## Registries with other skills -/

/-- Every skill of a registry has its section between those of the others. -/
theorem standsAt (hskills : r.skills = front ++ s :: back) : r.StandsAt s.name front s back :=
  ⟨hskills, rfl, by rw [prompt, hskills, Prompt.system_middle]⟩

/-- The system prompt with one more skill. -/
theorem prompt_added (r : Registry) (s : Skill) : (r.added s).prompt = r.prompt ++ part s := by
  rw [prompt, added_skills, Prompt.system_append, Prompt.sections_cons, Prompt.sections_nil,
    String.append_empty, prompt]

/-- Skills that enter come behind those that are held. -/
theorem skills_insertAll (r : Registry) (skills : List Skill) :
    (r.insertAll skills).2.skills = r.skills ++ (r.insertAll skills).1.registered := by
  induction skills generalizing r with
  | nil => exact (List.append_nil _).symm
  | cons s rest ih =>
    rw [insertAll_cons]
    cases refusal? r.skills s with
    | some e => exact ih r
    | none => simp [ih]

/-- Skills that enter bring their sections. -/
theorem prompt_insertAll (r : Registry) (skills : List Skill) :
    (r.insertAll skills).2.prompt = r.prompt ++ sections (r.insertAll skills).1.registered := by
  rw [prompt, skills_insertAll, Prompt.system_append, prompt]

/-- A registered skill was added. -/
theorem register_eq_added (h : (r.register s).1 = .ok ()) : (r.register s).2 = r.added s := by
  rcases register_cases r s with ⟨e, hout⟩ | hout
  · simp [hout] at h
  · rw [hout]

/-- A skill that is found is replaced in its place, or taken out. -/
theorem Consistent.reload_cases (h : Consistent r) (hskills : r.skills = front ++ s :: back)
    (fs : FileSystem) :
    (∃ fresh, s.RenewedAs fs fresh ∧
      r.reload fs s.name = (.ok (), { r with skills := front ++ fresh :: back })) ∨
    ∃ e, r.reload fs s.name = (.error e, { r with skills := front ++ back }) := by
  rcases hout : r.reload fs s.name with ⟨e | _, r'⟩
  · obtain ⟨-, rfl⟩ := (h.reload_eq_error_iff hskills).mp hout
    exact .inr ⟨e, rfl⟩
  · obtain ⟨fresh, hrenewed, -, -, rfl⟩ := (h.reload_eq_ok_iff hskills).mp hout
    exact .inl ⟨fresh, hrenewed, rfl⟩

/-! ## Scans -/

variable {fs : FileSystem} {found : Scan}

/-- A scan puts the sections of the skills that entered at the end. -/
theorem prompt_scan {dir : String} (hok : (Discovery.scan fs r dir).1 = .ok found) :
    (Discovery.scan fs r dir).2.prompt = r.prompt ++ sections found.skills := by
  cases hdir : fs.isDirectory dir with
  | false => simp [Discovery.scan, hdir] at hok
  | true =>
    cases hopen : r.initialized with
    | false => simp [scan_of_shut hopen hdir] at hok
    | true =>
      rw [Discovery.scan_eq hopen hdir] at hok ⊢
      obtain rfl := Except.ok.inj hok
      exact prompt_insertAll r _

/-- Scans in a shut registry can only succeed if there is nothing to scan. -/
theorem skills_of_scanAll {dirs : List String} (hshut : r.initialized = false)
    (hok : (Discovery.scanAll fs r dirs).1 = .ok found) : found.skills = [] := by
  induction dirs with
  | nil => exact Except.ok.inj hok ▸ rfl
  | cons dir rest ih =>
    cases hdir : fs.isDirectory dir with
    | false => exact ih (by simpa [Discovery.scanAll, hdir] using hok)
    | true => simp [Discovery.scanAll, hdir, scan_of_shut hshut hdir] at hok

/-- Scans in order put the sections of the skills that entered at the end. -/
theorem prompt_scanAll {dirs : List String} (hok : (Discovery.scanAll fs r dirs).1 = .ok found) :
    (Discovery.scanAll fs r dirs).2.prompt = r.prompt ++ sections found.skills := by
  cases hopen : r.initialized with
  | false =>
    rw [scanAll_of_shut hopen, skills_of_scanAll hopen hok, Prompt.sections_nil,
      String.append_empty]
  | true =>
    obtain ⟨again, hscan, hentered, -⟩ := Discovery.scanAll_eq fs hopen dirs
    rw [hscan] at hok ⊢
    obtain rfl := Except.ok.inj hok
    rw [hentered]
    exact prompt_insertAll r _

/-! ## The system prompt after a call -/

/-- In a consistent registry every call changes the system prompt in one place at most. -/
theorem Consistent.promptFollows (h : Consistent r) : PromptFollows r where
  registered s hok hloaded := by
    rw [register_eq_added hok, prompt_added, Prompt.part_of_loaded hloaded]
  unseen s hok hloaded := by
    rw [register_eq_added hok, prompt_added, Prompt.part_of_unloaded hloaded, String.append_empty]
  refused s e he := by rw [register_keepsOnError r s e he]
  unregistered n hok := by
    rcases unregister_cases r n with ⟨e, hout⟩ | ⟨front, s, back, hskills, rfl, hout⟩
    · simp [hout] at hok
    · refine ⟨front, s, back, standsAt hskills, ?_⟩
      rw [hout, prompt, Prompt.system_append]
  missed n e he := by rw [unregister_keepsOnError r n e he]
  reloaded fs n hok := by
    rcases reload_unchanged_or_place fs r n with hshut | hmissing | ⟨front, s, back, hskills, rfl⟩
    · exact absurd (hshut ▸ hok) (by simp)
    · exact absurd (hmissing ▸ hok) (by simp)
    -- The fresh skill stands where the old one stood, and the sections around it stay.
    · rcases h.reload_cases hskills fs with ⟨fresh, hrenewed, hout⟩ | ⟨e, hout⟩
      · refine ⟨front, s, back, fresh, standsAt hskills, hrenewed,
          Prompt.part_of_loaded hrenewed.wasLoaded, ?_⟩
        rw [hout, prompt, Prompt.system_middle, Prompt.part_of_loaded hrenewed.loaded]
      · exact absurd (hout ▸ hok) (by simp)
  lost fs n e he hname := by
    obtain ⟨front, s, back, hskills, rfl⟩ := exists_place_of_mem hname
    rcases h.reload_cases hskills fs with ⟨fresh, -, hout⟩ | ⟨e, hout⟩
    · exact absurd (hout ▸ he) (by simp)
    · exact ⟨front, s, back, standsAt hskills, by rw [hout, prompt, Prompt.system_append]⟩
  notFound fs n hname := by
    rcases reload_unchanged_or_place fs r n with hshut | hmissing | ⟨_, s, _, hskills, rfl⟩
    · rw [hshut]
    · rw [hmissing]
    · exact absurd (by simp [namesOf, hskills]) hname
  batch skills outcome hok := by
    cases hopen : r.initialized with
    | false => simp [registerBatch, hopen] at hok
    | true =>
      rw [registerBatch_eq hopen] at hok ⊢
      obtain rfl := Except.ok.inj hok
      exact prompt_insertAll r skills
  scanned _ _ _ := prompt_scan
  scannedAll _ _ _ := prompt_scanAll
  shutDown := String.append_empty
  reopened := rfl

/-- After any run every call changes the system prompt section by section, and every section is a
row of blocks that lays its manifest out. -/
theorem promptFollows_run (ops : List Operation) : PromptFollows (new.run ops) ∧
    ∀ m : Manifest, ∃ blocks, m.LaidOut blocks ∧
      m.prompt = String.join (blocks.map PromptBlock.text) :=
  ⟨(consistent_run ops).promptFollows, fun m => ⟨m.blocks, m.laidOut_blocks, m.prompt_eq_blocks⟩⟩

/-- The section of the skill in front is cut. -/
example : (new.run [
    .register (.ofManifest 0 ⟨"lamp", "Gives light.", "", none, [], [], [], none⟩),
    .register (.ofManifest 0 ⟨"bell", "Rings.", "", none, [], [], ["Ring."], none⟩),
    .unregister "lamp"]).prompt =
      "# Available Skills\n\n# Skill: bell\n\nRings.\n\n" ++
        "## Prompt Templates\n\n### Prompt 1\n\nRing.\n\n\n---\n\n" := by
  decide +kernel

end Registry

end Repertoire
