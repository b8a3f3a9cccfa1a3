import Mathlib.Algebra.BigOperators.Group.List.Basic
import Mathlib.Algebra.GroupWithZero.Nat
import Repertoire.Proofs.Text.Outline
import Repertoire.Settings.Shape

/-!
# Settings with a gap

Settings have texts among their fields, and a draft of settings has drafts in their places. Reading
settings from a document with gaps gives a draft of settings, if the readers of the format follow
the gaps: fields are found by their names, which have no gaps, and each field is read on its own.
No gap is in two fields.
-/

namespace Repertoire

open Text

/-! ## What has gaps -/

/-- A type of things that may have gaps, for a type of things that have none. -/
structure Gapped (β γ : Type) where
  fill : List Char → γ → β
  gaps : γ → ℕ
  whole : β → γ
  fill_whole : ∀ w x, fill w (whole x) = x
  gaps_whole : ∀ x, gaps (whole x) = 0

namespace Gapped

variable {β γ : Type}

/-- Things that never have gaps. -/
def never (β : Type) : Gapped β β where
  fill _ x := x
  gaps _ := 0
  whole x := x
  fill_whole _ _ := rfl
  gaps_whole _ := rfl

/-- Texts with gaps. -/
def text : Gapped String Draft where
  fill w d := String.ofList (d.fill w)
  gaps := Draft.gaps
  whole s := .whole s.toList
  fill_whole _ _ := String.ofList_toList
  gaps_whole _ := rfl

/-- Things that may be missing. -/
def optional (g : Gapped β γ) : Gapped (Option β) (Option γ) where
  fill w y := y.map (g.fill w)
  gaps y := (y.map g.gaps).getD 0
  whole x := x.map g.whole
  fill_whole w x := by cases x <;> simp [g.fill_whole]
  gaps_whole x := by cases x <;> simp [g.gaps_whole]

/-- Lists of things. -/
def list (g : Gapped β γ) : Gapped (List β) (List γ) where
  fill w ys := ys.map (g.fill w)
  gaps ys := (ys.map g.gaps).sum
  whole xs := xs.map g.whole
  fill_whole w xs := by simp [Function.comp_def, g.fill_whole]
  gaps_whole xs := by simp [Function.comp_def, g.gaps_whole]

end Gapped

/-- Where skills are looked for, with gaps. -/
structure SkillsDraft where
  enabled : Bool
  searchPaths : List Draft
  workspaceDir : Draft

/-- How the remote catalog is fetched, with gaps. -/
structure CatalogDraft where
  enabled : Bool
  repoUrl : Draft
  dir : Option Draft
  fetcher : FetcherKind

/-- The limits under which shell tools run, with gaps. -/
structure ExecDraft where
  timeoutSecs : Option ℕ
  maxOutputBytes : ℕ
  workingDir : Option Draft

/-- All settings, with gaps in their texts. -/
structure SettingsDraft where
  skills : SkillsDraft
  catalog : CatalogDraft
  exec : ExecDraft

namespace Gapped

/-- The section on skills with gaps. -/
def skills : Gapped SkillsSettings SkillsDraft where
  fill w s := ⟨s.enabled, text.list.fill w s.searchPaths, text.fill w s.workspaceDir⟩
  gaps s := text.list.gaps s.searchPaths + text.gaps s.workspaceDir
  whole s := ⟨s.enabled, text.list.whole s.searchPaths, text.whole s.workspaceDir⟩
  fill_whole w s := by simp only [fill_whole]
  gaps_whole s := by simp only [gaps_whole]

/-- The section on the catalog with gaps. -/
def catalog : Gapped CatalogSettings CatalogDraft where
  fill w s := ⟨s.enabled, text.fill w s.repoUrl, text.optional.fill w s.dir, s.fetcher⟩
  gaps s := text.gaps s.repoUrl + text.optional.gaps s.dir
  whole s := ⟨s.enabled, text.whole s.repoUrl, text.optional.whole s.dir, s.fetcher⟩
  fill_whole w s := by simp only [fill_whole]
  gaps_whole s := by simp only [gaps_whole]

/-- The section on execution with gaps. -/
def exec : Gapped ExecSettings ExecDraft where
  fill w s := ⟨s.timeoutSecs, s.maxOutputBytes, text.optional.fill w s.workingDir⟩
  gaps s := text.optional.gaps s.workingDir
  whole s := ⟨s.timeoutSecs, s.maxOutputBytes, text.optional.whole s.workingDir⟩
  fill_whole w s := by simp only [fill_whole]
  gaps_whole s := by simp only [gaps_whole]

/-- All settings with gaps. -/
def settings : Gapped Settings SettingsDraft where
  fill w s := ⟨skills.fill w s.skills, catalog.fill w s.catalog, exec.fill w s.exec⟩
  gaps s := skills.gaps s.skills + catalog.gaps s.catalog + exec.gaps s.exec
  whole s := ⟨skills.whole s.skills, catalog.whole s.catalog, exec.whole s.exec⟩
  fill_whole w s := by simp only [fill_whole]
  gaps_whole s := by simp only [gaps_whole]

end Gapped

/-- The settings with a word in their gaps. -/
def SettingsDraft.fill (w : List Char) (s : SettingsDraft) : Settings := Gapped.settings.fill w s

/-- The number of gaps in settings. -/
def SettingsDraft.gaps (s : SettingsDraft) : ℕ := Gapped.settings.gaps s

/-! ## Readers that follow gaps -/

section

variable {α κ β γ : Type} (form : Form α κ) (fits : List Char → Prop) (raw : List Char)

/-- What a reader finds in a document with the raw word in its gaps, it finds with any fitting word,
with that word in the place of the raw one. -/
def Follows (g : Gapped β γ) (read : α → Option β) : Prop :=
  ∀ (o : Outline α κ) (x : β), read (o.fill form raw) = some x →
    ∃ y : γ, g.gaps y ≤ o.gaps ∧ g.fill raw y = x ∧
      ∀ w, fits w → read (o.fill form w) = some (g.fill w y)

/-- Members of a record with a word in their gaps. -/
def fillEach (w : List Char) (os : List (String × Outline α κ)) : List (String × α) :=
  os.map fun m => (m.1, m.2.fill form w)

/-- The number of gaps in members of a record. -/
def gapsEach (os : List (String × Outline α κ)) : ℕ := (os.map fun m => m.2.gaps).sum

/-- A word is put into the members of a record one by one. -/
theorem fillEach_eq_fillMembers {α : Type} (form : Form α String) (w : List Char)
    (os : List (String × Outline α String)) :
    fillEach form w os = Outline.fillMembers form w os :=
  (Outline.fillMembers_eq_map form w os).symm

/-- The gaps of a record are those of its members. -/
theorem gapsEach_eq_membersGaps {α : Type} (os : List (String × Outline α String)) :
    gapsEach os = Outline.membersGaps os := by
  induction os with
  | nil => rfl
  | cons m os ih => exact congrArg (m.2.gaps + ·) ih

/-- The number of gaps in the members under a name. -/
def gapsUnder (name : String) (os : List (String × Outline α κ)) : ℕ :=
  gapsEach (os.filter fun m => [name].contains m.1)

/-- All readers of a format follow gaps. -/
structure Shape.Follows (shape : Shape α) : Prop where
  members : ∀ (names : List String) (o : Outline α κ) (ms : List (String × α)),
    shape.members? names (o.fill form raw) = some ms →
      ∃ os : List (String × Outline α κ), gapsEach os ≤ o.gaps ∧ fillEach form raw os = ms ∧
        ∀ w, fits w → shape.members? names (o.fill form w) = some (fillEach form w os)
  text : Repertoire.Follows form fits raw Gapped.text shape.text?
  optionalText : Repertoire.Follows form fits raw Gapped.text.optional shape.optionalText?
  texts : Repertoire.Follows form fits raw Gapped.text.list shape.texts?
  bool : Repertoire.Follows form fits raw (Gapped.never Bool) shape.bool?
  natural : Repertoire.Follows form fits raw (Gapped.never ℕ) shape.natural?
  optionalNatural :
    Repertoire.Follows form fits raw (Gapped.never (Option ℕ)) shape.optionalNatural?
  choice : Repertoire.Follows form fits raw Gapped.text shape.choice?

end

/-! ## Fields -/

section

variable {α κ β γ : Type} {form : Form α κ} {fits : List Char → Prop} {raw : List Char}
  {os : List (String × Outline α κ)} {name : String} {g : Gapped β γ} {read : α → Option β}

/-- The only one of some members, if there is one; `none` when there are several. -/
def only? {δ : Type} : List (String × δ) → Option (Option δ)
  | [] => some none
  | [m] => some (some m.2)
  | _ => none

/-- A field is the only member under one of its names. -/
theorem field?_eq_only? {δ : Type} (names : List String) (ms : List (String × δ)) :
    Record.field? names ms = only? (ms.filter fun m => names.contains m.1) := by
  unfold Record.field?
  split
  · rename_i h
    have hfilter : ms.filter (fun m => names.contains m.1) = [] := h
    rw [hfilter]
    rfl
  · rename_i key value h
    have hfilter : ms.filter (fun m => names.contains m.1) = [(key, value)] := h
    rw [hfilter]
    rfl
  · rename_i hnil hone
    have hfilter : ∀ ms', ms.filter (fun m => names.contains m.1) = ms' → only? ms' = none := by
      rintro (_ | ⟨⟨key, value⟩, _ | ⟨m, ms'⟩⟩) h
      · exact absurd h hnil
      · exact absurd h (hone key value)
      · rfl
    exact (hfilter _ rfl).symm

/-- Fields are found by their names. -/
theorem field?_fillEach (names : List String) (w : List Char) :
    Record.field? names (fillEach form w os) =
      (Record.field? names os).map (Option.map (Outline.fill form w)) := by
  have hfilter : (fillEach form w os).filter (fun m => names.contains m.1) =
      fillEach form w (os.filter fun m => names.contains m.1) := by
    rw [fillEach, List.filter_map]
    rfl
  rw [field?_eq_only?, field?_eq_only?, hfilter]
  generalize os.filter (fun m => names.contains m.1) = ms
  rcases ms with _ | ⟨m, _ | ⟨m', ms⟩⟩ <;> rfl

/-- The gaps under the name of a field are those of the field. -/
theorem gapsUnder_of_field? {o : Outline α κ} (h : Record.field? [name] os = some (some o)) :
    gapsUnder name os = o.gaps := by
  rw [field?_eq_only?] at h
  unfold gapsUnder
  generalize os.filter (fun m => [name].contains m.1) = ms at h
  rcases ms with _ | ⟨m, _ | ⟨m', ms⟩⟩
  · simp [only?] at h
  · obtain rfl := Option.some.inj (Option.some.inj h)
    rfl
  · simp [only?] at h

/-- A field is read as its reader follows the gaps in it, or it has its default. -/
theorem get_follows (hread : Follows form fits raw g read) {default x : β}
    (h : Record.get [name] default read (fillEach form raw os) = some x) :
    ∃ y : γ, g.gaps y ≤ gapsUnder name os ∧ g.fill raw y = x ∧
      ∀ w, fits w → Record.get [name] default read (fillEach form w os) = some (g.fill w y) := by
  simp only [Record.get, field?_fillEach] at h ⊢
  rcases hfield : Record.field? [name] os with _ | (_ | o)
  · rw [hfield] at h
    simp at h
  · rw [hfield] at h
    obtain rfl := Option.some.inj h
    refine ⟨g.whole default, by simp [g.gaps_whole], g.fill_whole raw default, fun w _ => ?_⟩
    simp [g.fill_whole]
  · rw [hfield] at h
    obtain ⟨y, hgaps, hraw, hfill⟩ := hread o x h
    exact ⟨y, (gapsUnder_of_field? hfield).symm ▸ hgaps, hraw, hfill⟩

/-- Of distinct names at most one is the key. -/
theorem sum_ite_eq_le {names : List String} (hnames : names.Nodup) (key : String) (n : ℕ) :
    (names.map fun name => if key = name then n else 0).sum ≤ n := by
  induction names with
  | nil => exact Nat.zero_le n
  | cons name names ih =>
    obtain ⟨hname, hnames⟩ := List.nodup_cons.mp hnames
    rw [List.map_cons, List.sum_cons]
    by_cases hkey : key = name
    · have hzero : (names.map fun name => if key = name then n else 0) = names.map fun _ => 0 :=
        List.map_congr_left fun name' hmem => if_neg fun hname' => hname (by
          rwa [← hkey, hname'])
      rw [hzero, if_pos hkey]
      simp
    · rw [if_neg hkey, Nat.zero_add]
      exact ih hnames

/-- No gap is in members of two names. -/
theorem sum_gapsUnder_le (os : List (String × Outline α κ)) {names : List String}
    (hnames : names.Nodup) :
    (names.map fun name => gapsUnder name os).sum ≤ gapsEach os := by
  induction os with
  | nil => simp [gapsUnder, gapsEach]
  | cons m os ih =>
    have hcons : ∀ name, gapsUnder name (m :: os) =
        (if m.1 = name then m.2.gaps else 0) + gapsUnder name os := by
      intro name
      by_cases hname : m.1 = name <;> simp [gapsUnder, gapsEach, hname]
    have hfirst := sum_ite_eq_le hnames m.1 m.2.gaps
    have hsum : (names.map fun name => gapsUnder name (m :: os)).sum =
        (names.map fun name => if m.1 = name then m.2.gaps else 0).sum +
          (names.map fun name => gapsUnder name os).sum := by
      rw [← List.sum_map_add]
      simp only [hcons]
    rw [hsum, gapsEach, List.map_cons, List.sum_cons]
    exact Nat.add_le_add hfirst ih

end

/-! ## Sections -/

section

variable {α κ : Type} {form : Form α κ} {fits : List Char → Prop} {raw : List Char}
  {shape : Shape α} {os : List (String × Outline α κ)}

/-- The section on skills is read as the readers follow the gaps. -/
theorem Shape.Follows.skills (h : shape.Follows form fits raw) :
    Repertoire.Follows form fits raw Gapped.skills shape.skills? := by
  intro o x hx
  simp only [Shape.skills?, Option.bind_eq_bind, Option.bind_eq_some_iff] at hx
  obtain ⟨ms, hms, enabled, henabled, paths, hpaths, dir, hdir, hout⟩ := hx
  obtain ⟨os, hos, rfl, hmembers⟩ := h.members _ o ms hms
  obtain ⟨e, -, rfl, henabled'⟩ := get_follows h.bool henabled
  obtain ⟨ps, hps, rfl, hpaths'⟩ := get_follows h.texts hpaths
  obtain ⟨d, hd, rfl, hdir'⟩ := get_follows h.text hdir
  obtain rfl := Option.some.inj hout
  refine ⟨⟨e, ps, d⟩, ?_, rfl, fun w hw => ?_⟩
  · have hsum := sum_gapsUnder_le os (show ["search_paths", "workspace_dir"].Nodup by decide)
    simp only [List.map_cons, List.map_nil, List.sum_cons, List.sum_nil] at hsum
    simp only [Gapped.skills]
    omega
  · simp only [Shape.skills?, hmembers w hw, henabled' w hw, hpaths' w hw, hdir' w hw,
      Option.bind_eq_bind, Option.bind_some]
    rfl

/-- A text that names a fetcher is its name. -/
theorem name_of_ofName? {name : String} {kind : FetcherKind}
    (h : FetcherKind.ofName? name = some kind) : name = kind.name := by
  unfold FetcherKind.ofName? at h
  split_ifs at h with hgit htarball
  · obtain rfl := Option.some.inj h
    exact hgit
  · obtain rfl := Option.some.inj h
    exact htarball

/-- The name of a fetcher has no gap, since no fetcher has a dollar sign in its name. -/
theorem Shape.Follows.fetcher (h : shape.Follows form fits raw) (hraw : '$' ∈ raw) :
    Repertoire.Follows form fits raw (Gapped.never FetcherKind)
      (fun node => (shape.choice? node).bind FetcherKind.ofName?) := by
  intro o kind hkind
  obtain ⟨name, hname, hof⟩ := Option.bind_eq_some_iff.mp hkind
  obtain ⟨d, -, rfl, hchoice⟩ := h.choice o name hname
  refine ⟨kind, Nat.zero_le _, rfl, fun w hw => ?_⟩
  change (shape.choice? (o.fill form w)).bind FetcherKind.ofName? = some kind
  rw [hchoice w hw]
  cases d with
  | whole text => exact hof
  | gapped front back =>
    have hdollar : '$' ∈ kind.name.toList := by
      rw [← name_of_ofName? hof]
      simp [Gapped.text, hraw]
    cases kind <;> exact absurd hdollar (by decide)

/-- The section on the catalog is read as the readers follow the gaps. -/
theorem Shape.Follows.catalog (h : shape.Follows form fits raw) (hraw : '$' ∈ raw) :
    Repertoire.Follows form fits raw Gapped.catalog shape.catalog? := by
  intro o x hx
  simp only [Shape.catalog?, Option.bind_eq_bind, Option.bind_eq_some_iff] at hx
  obtain ⟨ms, hms, enabled, henabled, url, hurl, dir, hdir, fetcher, hfetcher, hout⟩ := hx
  obtain ⟨os, hos, rfl, hmembers⟩ := h.members _ o ms hms
  obtain ⟨e, -, rfl, henabled'⟩ := get_follows h.bool henabled
  obtain ⟨u, hu, rfl, hurl'⟩ := get_follows h.text hurl
  obtain ⟨d, hd, rfl, hdir'⟩ := get_follows h.optionalText hdir
  obtain ⟨k, -, rfl, hfetcher'⟩ := get_follows (h.fetcher hraw) hfetcher
  obtain rfl := Option.some.inj hout
  refine ⟨⟨e, u, d, k⟩, ?_, rfl, fun w hw => ?_⟩
  · have hsum := sum_gapsUnder_le os (show ["repo_url", "dir"].Nodup by decide)
    simp only [List.map_cons, List.map_nil, List.sum_cons, List.sum_nil] at hsum
    simp only [Gapped.catalog]
    omega
  · simp only [Shape.catalog?, hmembers w hw, henabled' w hw, hurl' w hw, hdir' w hw,
      hfetcher' w hw, Option.bind_eq_bind, Option.bind_some]
    rfl

/-- The section on execution is read as the readers follow the gaps. -/
theorem Shape.Follows.exec (h : shape.Follows form fits raw) :
    Repertoire.Follows form fits raw Gapped.exec shape.exec? := by
  intro o x hx
  simp only [Shape.exec?, Option.bind_eq_bind, Option.bind_eq_some_iff] at hx
  obtain ⟨ms, hms, timeout, htimeout, bytes, hbytes, dir, hdir, hout⟩ := hx
  obtain ⟨os, hos, rfl, hmembers⟩ := h.members _ o ms hms
  obtain ⟨t, -, rfl, htimeout'⟩ := get_follows h.optionalNatural htimeout
  obtain ⟨b, -, rfl, hbytes'⟩ := get_follows h.natural hbytes
  obtain ⟨d, hd, rfl, hdir'⟩ := get_follows h.optionalText hdir
  obtain rfl := Option.some.inj hout
  refine ⟨⟨t, b, d⟩, ?_, rfl, fun w hw => ?_⟩
  · have hsum := sum_gapsUnder_le os (show ["working_dir"].Nodup by decide)
    simp only [List.map_cons, List.map_nil, List.sum_cons, List.sum_nil] at hsum
    simp only [Gapped.exec]
    omega
  · simp only [Shape.exec?, hmembers w hw, htimeout' w hw, hbytes' w hw, hdir' w hw,
      Option.bind_eq_bind, Option.bind_some]
    rfl

/-- Settings are read as the readers follow the gaps. -/
theorem Shape.Follows.settings (h : shape.Follows form fits raw) (hraw : '$' ∈ raw)
    {x : Settings} (hx : shape.settingsOf? (fillEach form raw os) = some x) :
    ∃ s : SettingsDraft, s.gaps ≤ gapsEach os ∧ s.fill raw = x ∧
      ∀ w, fits w → shape.settingsOf? (fillEach form w os) = some (s.fill w) := by
  simp only [Shape.settingsOf?, Option.bind_eq_bind, Option.bind_eq_some_iff] at hx
  obtain ⟨skills, hskills, catalog, hcatalog, exec, hexec, hout⟩ := hx
  obtain ⟨s, hs, rfl, hskills'⟩ := get_follows h.skills hskills
  obtain ⟨c, hc, rfl, hcatalog'⟩ := get_follows (h.catalog hraw) hcatalog
  obtain ⟨e, he, rfl, hexec'⟩ := get_follows h.exec hexec
  obtain rfl := Option.some.inj hout
  refine ⟨⟨s, c, e⟩, ?_, rfl, fun w hw => ?_⟩
  · have hsum := sum_gapsUnder_le os (show ["skills", "catalog", "exec"].Nodup by decide)
    simp only [List.map_cons, List.map_nil, List.sum_cons, List.sum_nil] at hsum
    simp only [SettingsDraft.gaps, Gapped.settings]
    omega
  · simp only [Shape.settingsOf?, hskills' w hw, hcatalog' w hw, hexec' w hw,
      Option.bind_eq_bind, Option.bind_some]
    rfl

end

end Repertoire
