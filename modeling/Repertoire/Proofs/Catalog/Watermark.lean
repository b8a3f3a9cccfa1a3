import Repertoire.Catalog.Watermark
import Repertoire.Proofs.FileSystem.Changes
import Repertoire.Proofs.FileSystem.Joining
import Repertoire.Proofs.FileSystem.Writing

/-!
# The watermark and the directory it stands in

The watermark is found through the path of its directory. Where that path leads to no directory
there is no watermark, and where it leads to an empty one there is none either. A watermark that was
written successfully bears the time of writing.

The path may be any text. File systems are assumed to be trees in which relative paths start from a
directory.
-/

namespace Repertoire

namespace FileSystem

open Repertoire.Path

variable {fs fs' : FileSystem} {dir : String} {d : Place}

/-- A path leads to a directory, which may be where relative paths start. -/
def Reaches (fs : FileSystem) (dir : String) (d : Place) : Prop :=
  '\x00' ∉ dir.toList ∧ fs.StepsTo (components dir) d

/-- The path steps up behind a front that leads to no directory. -/
def StepsUp (fs : FileSystem) (dir : String) : Prop :=
  ∃ front rest, components dir = front ++ .parent :: rest ∧ ∀ d, ¬ fs.StepsTo front d

/-- Paths go back to the root only at their front, where nothing can be missing. -/
theorem stepsUp_of_climbs (hfs : fs.Grounded) (h : fs.Climbs (components dir)) :
    fs.StepsUp dir := by
  obtain ⟨front, c, rest, hpath, hc, hno⟩ := h
  rcases hc with rfl | rfl
  · exact ⟨front, rest, hpath, hno⟩
  · obtain rfl := eq_nil_of_components_root hpath
    exact absurd (stepsTo_nil hfs) (hno fs.workingDir)

/-- What is found to be a directory is reached, a slash at the end of the path or not. -/
theorem reaches_of_lookUp? (hfs : fs.Grounded) (h : fs.lookUp? dir = .ok (d, .directory)) :
    fs.Reaches dir d := by
  obtain ⟨hplace, hd⟩ := lookUp?_eq_ok_iff.mp h
  obtain ⟨hzero, -, hsteps⟩ := (resolve_eq_ok_iff fs true dir d).mp hplace
  refine ⟨hzero, ?_⟩
  rcases steps_eq dir with hdir | hdir
  · rw [hdir] at hsteps
    exact ⟨hsteps, hd⟩
  · rw [hdir] at hsteps
    by_cases hlead : ∃ d', fs.StepsTo (components dir) d'
    · obtain ⟨d', hd'⟩ := hlead
      obtain ⟨-, hstay⟩ := hd'.turn hfs (c := .here) (by simp)
      have hsame : d = d' := Except.ok.inj (hsteps.symm.trans hstay.1)
      exact hsame ▸ hd'
    · obtain ⟨fault, hfault⟩ := resolveSteps_of_not_stepsTo hfs (fun d' hd' => hlead ⟨d', hd'⟩)
        true (List.cons_ne_nil .here [])
      rw [hfault] at hsteps
      simp at hsteps

/-- A directory that can be listed is reached, and the names are those of what stands in it. -/
theorem reaches_of_list {names : List String} (hfs : fs.Grounded) (h : fs.list dir = .ok names) :
    ∃ d, fs.Reaches dir d ∧ names = fs.names d := by
  rw [FileSystem.list] at h
  rcases hlook : fs.lookUp? dir with fault | ⟨place, _ | _ | _⟩
  · simp [hlook] at h
  · simp [hlook] at h
  · simp only [hlook, Except.ok.injEq] at h
    exact ⟨place, reaches_of_lookUp? hfs hlook, h.symm⟩
  · simp [hlook] at h

/-- A path leads to the directory that it led to, after a steady change. -/
theorem Reaches.of_steady (h : Steady fs fs') (hd : fs.Reaches dir d) : fs'.Reaches dir d := by
  obtain ⟨hzero, hsteps, hdir⟩ := hd
  have hthere := h.directory hdir
  refine ⟨hzero, ?_, hthere⟩
  rw [resolveSteps, h.home]
  refine follow_of_keeps h.keeps (fun hfile => ?_) hsteps
  rcases hfile with hnone | ⟨content, time, hfile⟩
  · simp [hdir] at hnone
  · simp [hdir] at hfile

/-- A directory that is reached is the canonical place of its path, unless the path is empty. -/
theorem Reaches.canonical_iff (hfs : fs.Grounded) (hd : fs.Reaches dir d) {top : Place} :
    fs.canonical dir = .ok top ↔ dir ≠ "" ∧ top = d := by
  have hsteps : fs.resolveSteps true (steps dir) = .ok d := by
    rcases steps_eq dir with hdir | hdir
    · rw [hdir]
      exact hd.2.1
    · rw [hdir]
      exact (hd.2.turn hfs (c := .here) (by simp)).2.1
  have hlook (hne : dir ≠ "") : fs.lookUp? dir = .ok (d, .directory) :=
    lookUp?_eq_ok_iff.mpr ⟨(resolve_eq_ok_iff fs true dir d).mpr ⟨hd.1, hne, hsteps⟩, hd.2.2⟩
  rw [FileSystem.canonical]
  by_cases hne : dir = ""
  · subst hne
    simp [lookUp?, resolve, bind, Except.bind]
  · rw [hlook hne]
    simp [hne, eq_comm]

/-- An empty directory lists no names. -/
theorem IsEmptyAt.names (h : fs.IsEmptyAt d) : fs.names d = [] := by
  rw [FileSystem.names, List.filterMap_eq_nil_iff]
  intro (p, e) hmem
  cases hlast : p.getLast? with
  | none => simp only [hlast]
  | some x =>
    simp only [hlast, ite_eq_right_iff, reduceCtorEq, imp_false]
    intro hfront
    have hp : p = d ++ [x] := by
      obtain ⟨front, rfl⟩ := List.getLast?_eq_some_iff.mp hlast
      rw [← hfront, List.dropLast_concat]
    have hnone := h x
    rw [← hp, FileSystem.entry?, if_neg (by simp [hp]), Option.map_eq_none_iff,
      List.find?_eq_none] at hnone
    exact hnone (p, e) hmem (by simp)

/-- What creating the directories on a path comes to. -/
structure Preparation (fs : FileSystem) (dir : String)
    (out : Except FileFault Unit × FileSystem) : Prop where
  grounded : out.2.Grounded
  now : out.2.now = fs.now
  there : ∀ d, fs.Reaches dir d → out = (.ok (), fs)
  made : out.1 = .ok () → (∀ d, ¬ fs.Reaches dir d) →
    ∃ d, out.2.Reaches dir d ∧ (¬ fs.StepsUp dir → out.2.IsEmptyAt d)
  failed : out.1 ≠ .ok () → ∀ d, ¬ out.2.Reaches dir d

/-- Creating the directories on a path. -/
theorem createDirectories_preparation (hfs : fs.Grounded) (dir : String) :
    Preparation fs dir (createDirectories dir fs) := by
  by_cases hzero : '\x00' ∈ dir.toList
  · have hno (fs : FileSystem) (d : Place) : ¬ fs.Reaches dir d := fun hd => hd.1 hzero
    have hout : createDirectories dir fs = (.error .badName, fs) := by
      simp only [createDirectories, List.contains_iff_mem, hzero, if_true]
    rw [hout]
    exact ⟨hfs, rfl, fun d hd => absurd hd (hno fs d), fun hok => by simp at hok,
      fun _ => hno fs⟩
  · have hout : createDirectories dir fs = createSteps (components dir) fs := by
      simp only [createDirectories, List.contains_iff_mem, hzero, if_false, createSteps]
    have hmake := createSteps_making hfs (components dir)
    rw [hout]
    refine ⟨hmake.grounded, hmake.now, fun d hd => hmake.there d hd.2, fun hok hno => ?_,
      fun hfail d hd => hmake.failed hfail d hd.2⟩
    obtain ⟨d, hd, hempty⟩ := hmake.made hok fun d hd => hno d ⟨hzero, hd⟩
    exact ⟨d, ⟨hzero, hd⟩, fun hup => hempty fun hclimbs => hup (stepsUp_of_climbs hfs hclimbs)⟩

end FileSystem

namespace Watermark

open Repertoire.FileSystem
open Repertoire.Path (IsPlain components join mem_join_iff join_ne_empty)

variable {fs fs' : FileSystem} {dir : String} {d : Place}

/-- The name of the watermark is plain. -/
theorem isPlain_fileName : IsPlain fileName where
  part := by decide
  whole := by decide

/-- What the path of the watermark leads to. -/
def entryAt? (fs : FileSystem) (dir : String) : Option Entry :=
  (fs.lookUp? (path dir)).toOption.map Prod.snd

/-- There is a watermark, and it is not older than the interval. -/
def Fresh (fs : FileSystem) (dir : String) : Prop :=
  ∃ time, fs.modified? (path dir) = some time ∧ fs.now - time ≤ interval

/-- A local copy is due exactly when it has no fresh watermark. -/
theorem isDue_iff (fs : FileSystem) (dir : String) : isDue fs dir = true ↔ ¬ Fresh fs dir := by
  rw [isDue, Fresh]
  cases fs.modified? (path dir) with
  | none => simp
  | some time =>
    have hage : (∃ t, some time = some t ∧ fs.now - t ≤ interval) ↔ fs.now - time ≤ interval := by
      simp
    rw [hage, Int.not_le]
    exact decide_eq_true_iff

/-! ## Where the watermark is looked for -/

/-- The path of the watermark leads where the steps of the directory lead with one name more. -/
theorem resolve_path (fs : FileSystem) (dir : String) (r : Place) :
    fs.resolve true (path dir) = .ok r ↔
      '\x00' ∉ dir.toList ∧
        fs.resolveSteps true (components dir ++ [.name fileName]) = .ok r := by
  have hzero : '\x00' ∈ (path dir).toList ↔ '\x00' ∈ dir.toList :=
    mem_join_iff isPlain_fileName (by decide) (by decide) dir
  rw [resolve_eq_ok_iff, hzero, path, steps_join isPlain_fileName dir]
  exact and_congr_right fun _ => and_iff_right (join_ne_empty isPlain_fileName dir)

/-- Where the path leads to no directory there is no watermark. -/
theorem entryAt?_of_not_reaches (hfs : fs.Grounded) (h : ∀ d, ¬ fs.Reaches dir d) :
    entryAt? fs dir = none := by
  rw [entryAt?]
  cases hlook : fs.lookUp? (path dir) with
  | error fault => rfl
  | ok found =>
    obtain ⟨hzero, hplace⟩ := (resolve_path fs dir found.1).mp (lookUp?_eq_ok_iff.mp hlook).1
    have hno (d : Place) (hd : fs.StepsTo (components dir) d) : False := h d ⟨hzero, hd⟩
    obtain ⟨fault, hfault⟩ := resolveSteps_of_not_stepsTo hfs hno true
      (List.cons_ne_nil (.name fileName) [])
    rw [hfault] at hplace
    simp at hplace

/-- In an empty directory there is no watermark. -/
theorem entryAt?_of_isEmptyAt (hfs : fs.Grounded) (h : fs.Reaches dir d) (hempty : fs.IsEmptyAt d) :
    entryAt? fs dir = none := by
  rw [entryAt?]
  cases hlook : fs.lookUp? (path dir) with
  | error fault => rfl
  | ok found =>
    obtain ⟨hplace, hentry⟩ := lookUp?_eq_ok_iff.mp hlook
    obtain ⟨-, hplace⟩ := (resolve_path fs dir found.1).mp hplace
    obtain ⟨j, hgo⟩ := h.2.append hfs
    have hshort : fileName.utf8ByteSize ≤ nameLimit := by decide
    rw [hgo true [.name fileName] (by simp), follow_missing (hempty fileName) hshort] at hplace
    have hhere : d ++ [fileName] = found.1 := Except.ok.inj hplace
    rw [← hhere, hempty fileName] at hentry
    simp at hentry

/-- An attempt to create the directories that fails leaves no watermark to be found, as before. -/
theorem entryAt?_of_failure {fault : FileFault} (hfs : fs.Grounded)
    (h : createDirectories dir fs = (.error fault, fs')) : entryAt? fs' dir = entryAt? fs dir := by
  have hprep := createDirectories_preparation hfs dir
  rw [h] at hprep
  have hno (d : Place) (hd : fs.Reaches dir d) : False := by
    cases congrArg Prod.fst (hprep.there d hd)
  rw [entryAt?_of_not_reaches hfs hno,
    entryAt?_of_not_reaches hprep.grounded (hprep.failed (by simp))]

/-- Directories that were created hold no watermark, as before, unless the path steps up. -/
theorem entryAt?_of_success (hfs : fs.Grounded) (hup : ¬ fs.StepsUp dir)
    (h : createDirectories dir fs = (.ok (), fs')) : entryAt? fs' dir = entryAt? fs dir := by
  have hprep := createDirectories_preparation hfs dir
  rw [h] at hprep
  by_cases hreach : ∃ d, fs.Reaches dir d
  · obtain ⟨d, hd⟩ := hreach
    have hsame : fs' = fs := congrArg Prod.snd (hprep.there d hd)
    rw [hsame]
  · have hno (d : Place) (hd : fs.Reaches dir d) : False := hreach ⟨d, hd⟩
    obtain ⟨d, hd, hempty⟩ := hprep.made rfl hno
    rw [entryAt?_of_not_reaches hfs hno,
      entryAt?_of_isEmptyAt hprep.grounded hd (hempty hup)]

/-! ## What the watermark says -/

/-- The time of the watermark is the one that its file bears. -/
theorem modified?_path (fs : FileSystem) (dir : String) :
    fs.modified? (path dir) = match entryAt? fs dir with
      | some (.file _ time) => some time
      | some .directory => some fs.now
      | _ => none := by
  rw [modified?, entryAt?]
  rcases fs.lookUp? (path dir) with fault | ⟨place, _ | _ | _⟩ <;> rfl

/-- A watermark that is fresh was fresh before, as long as it stayed the same. -/
theorem Fresh.of_later (h : Fresh fs' dir) (hsame : entryAt? fs' dir = entryAt? fs dir)
    (htime : fs.now ≤ fs'.now) : Fresh fs dir := by
  obtain ⟨time, hmodified, hage⟩ := h
  rw [modified?_path, hsame] at hmodified
  rw [Fresh, modified?_path]
  cases hentry : entryAt? fs dir with
  | none => simp [hentry] at hmodified
  | some e =>
    rw [hentry] at hmodified
    cases e with
    | file content written =>
      have hwritten : written = time := Option.some.inj hmodified
      refine ⟨written, rfl, ?_⟩
      omega
    | directory =>
      have hpositive : (0 : Int) ≤ interval := by decide
      refine ⟨fs.now, rfl, ?_⟩
      omega
    | link target => simp at hmodified

/-- A directory that holds anything but a watermark can be listed, and holds something. -/
theorem exists_name_of_isPopulated (h : isPopulated fs dir = true) :
    ∃ name names, fs.list dir = .ok (name :: names) := by
  rw [isPopulated] at h
  cases hlist : fs.list dir with
  | error fault => simp [hlist] at h
  | ok names =>
    cases names with
    | nil => simp [hlist] at h
    | cons name names => exact ⟨name, names, rfl⟩

/-- An empty directory holds nothing but a watermark. -/
theorem isPopulated_of_isEmptyAt (hfs : fs.Grounded) (hd : fs.Reaches dir d)
    (hempty : fs.IsEmptyAt d) : isPopulated fs dir = false := by
  rw [Bool.eq_false_iff]
  intro h
  obtain ⟨name, names, hlist⟩ := exists_name_of_isPopulated h
  obtain ⟨d', hd', hnames⟩ := reaches_of_list hfs hlist
  obtain rfl := hd.2.unique hd'.2
  rw [hempty.names] at hnames
  cases hnames

/-- Time does not change what a directory holds. -/
theorem isPopulated_atTime (fs : FileSystem) (time : ℤ) (dir : String) :
    isPopulated (fs.atTime time) dir = isPopulated fs dir := by
  rw [isPopulated, isPopulated, FileSystem.list, FileSystem.list, lookUp?_atTime]
  rfl

/-- Writing the watermark is creating its directory and then writing its file. -/
theorem mark_eq (dir : String) (fs : FileSystem) :
    mark dir fs = match createDirectories dir fs with
      | (.error fault, fs) => (.error fault, fs)
      | (.ok (), fs) => writeFile (path dir) (content fs.now).toUTF8 fs := by
  simp only [mark, bind, ExceptT.bind, ExceptT.mk, StateT.bind, ExceptT.bindCont]
  rcases createDirectories dir fs with ⟨fault | _, fs₁⟩ <;> rfl

/-- Where the directory is reached, a watermark that could not be written changed nothing. -/
theorem mark_error {fault : FileFault} (hfs : fs.Grounded) (hd : fs.Reaches dir d)
    (h : mark dir fs = (.error fault, fs')) : fs' = fs := by
  rw [mark_eq, (createDirectories_preparation hfs dir).there d hd] at h
  exact writeFile_error h

/-- A watermark that was written bears the time of writing. -/
theorem mark_ok (hfs : fs.Grounded) (h : mark dir fs = (.ok (), fs')) :
    fs'.modified? (path dir) = some fs'.now ∧ fs'.Grounded ∧ fs'.now = fs.now := by
  have hprep := createDirectories_preparation hfs dir
  rw [mark_eq] at h
  rcases hout : createDirectories dir fs with ⟨fault | _, fs₁⟩
  · rw [hout] at h
    cases congrArg Prod.fst h
  · rw [hout] at hprep h
    obtain ⟨⟨place, hlook⟩, hgrounded, hnow⟩ := writeFile_ok hprep.grounded h
    refine ⟨?_, hgrounded, hnow.trans hprep.now⟩
    simp only [modified?, hlook, hnow]

end Watermark

end Repertoire
