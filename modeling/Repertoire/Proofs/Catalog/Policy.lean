import Repertoire.Catalog.Sync
import Repertoire.Proofs.Catalog.Watermark

/-!
# One call that keeps a local copy in step

A call takes one of five courses, and which of them is decided by the watermark, by whether the
directory can be created, and by what the fetcher does. Everything else about a call, and about
calls in order, is read off these courses.

One of them is not meant to be. A checkout may come to light in a directory that could not be
reached before its path was created, which takes a path that steps up behind something missing. The
clone is then left out, and the watermark is written all the same.
-/

namespace Repertoire

open Repertoire.FileSystem (createDirectories Preparation)
open Watermark (Fresh entryAt?)

/-- The watermark of a local copy stays what it is while files change and time passes. -/
structure LeavesWatermark (dir : String) (fs fs' : FileSystem) : Prop where
  grounded : fs'.Grounded
  watermark : entryAt? fs' dir = entryAt? fs dir
  now : fs.now ≤ fs'.now

/-- What is known of a fetcher: a directory that is missing or empty is no checkout of it, and its
fetches leave the watermark alone. -/
structure Fetcher.Sound (f : Fetcher) (dir : String) : Prop where
  checkout : ∀ fs : FileSystem, f.isCheckout fs dir = true →
    ∃ name names, fs.list dir = .ok (name :: names)
  clone : ∀ url (fs : FileSystem), fs.Grounded → LeavesWatermark dir fs (f.clone url dir fs).2
  pull : ∀ url (fs : FileSystem), fs.Grounded → LeavesWatermark dir fs (f.pull url dir fs).2

/-- Carries out a fetch. -/
def Fetcher.fetch (f : Fetcher) (dir : String) : FetchCall → FileSystem → Fetched
  | .clone url => f.clone url dir
  | .pull url => f.pull url dir

/-- What became of a local copy after a fetch that succeeded. -/
def FetchCall.done : FetchCall → SyncOutcome
  | .clone _ => .cloned
  | .pull _ => .pulled

/-- No fetch counts as skipping. -/
theorem FetchCall.done_ne_skipped (call : FetchCall) : call.done ≠ .skipped := by
  cases call <;> simp [FetchCall.done]

namespace LocalCopy

variable {f : Fetcher} {url dir : String} {force : Bool} {fs fs' : FileSystem}
  {run : SyncRun SyncOutcome}

/-- The fetch that is due: a pull for a checkout, and a clone for anything else. -/
def dueFetch (f : Fetcher) (url dir : String) (fs : FileSystem) : FetchCall :=
  if f.isCheckout fs dir then .pull url else .clone url

/-- Creating the directories on the path brings a checkout to light that was none before. -/
def Surfaces (f : Fetcher) (dir : String) (fs : FileSystem) : Prop :=
  f.isCheckout fs dir = false ∧ ∃ fs₁, createDirectories dir fs = (.ok (), fs₁) ∧
    f.isCheckout fs₁ dir = true

/-- The watermark can be written after a fetch that succeeded. -/
def Markable (f : Fetcher) (url dir : String) (fs : FileSystem) : Prop :=
  if f.isCheckout fs dir then
    ∀ u, (pull f url dir fs).outcome = .ok u →
      (Watermark.mark dir (pull f url dir fs).files).1 = .ok ()
  else
    ∀ b, (clone f url dir fs).outcome = .ok b →
      (Watermark.mark dir (clone f url dir fs).files).1 = .ok ()

/-- The watermark was just written. -/
structure Stamped (dir : String) (fs fs' : FileSystem) : Prop where
  written : Watermark.mark dir fs = (.ok (), fs')
  time : fs'.modified? (Watermark.path dir) = some fs'.now
  grounded : fs'.Grounded
  now : fs'.now = fs.now

/-- The courses that a call can take. -/
inductive Course (f : Fetcher) (url dir : String) (force : Bool) (fs : FileSystem) :
    SyncRun SyncOutcome → Prop
  | skipped (hforce : force = false) (hfresh : Fresh fs dir) :
      Course f url dir force fs ⟨.ok .skipped, [], fs⟩
  | unprepared {fault : FileFault} {fs₁ : FileSystem} (hdue : force = true ∨ ¬ Fresh fs dir)
      (hprep : createDirectories dir fs = (.error fault, fs₁))
      (hplain : f.isCheckout fs dir = false) :
      Course f url dir force fs ⟨.error (.io fault), [], fs₁⟩
  | failed {e : Error} {fs₁ fs₂ : FileSystem} (hdue : force = true ∨ ¬ Fresh fs dir)
      (hprep : createDirectories dir fs = (.ok (), fs₁)) (hplain : ¬ Surfaces f dir fs)
      (hfetch : f.fetch dir (dueFetch f url dir fs) fs₁ = (.error e, fs₂))
      (hleft : LeavesWatermark dir fs₁ fs₂) :
      Course f url dir force fs ⟨.error e, [dueFetch f url dir fs], fs₂⟩
  | fetched {fs₁ fs₂ fs₃ : FileSystem} (hdue : force = true ∨ ¬ Fresh fs dir)
      (hprep : createDirectories dir fs = (.ok (), fs₁)) (hplain : ¬ Surfaces f dir fs)
      (hfetch : f.fetch dir (dueFetch f url dir fs) fs₁ = (.ok (), fs₂))
      (hleft : LeavesWatermark dir fs₁ fs₂) (hstamped : Stamped dir fs₂ fs₃) :
      Course f url dir force fs ⟨.ok (dueFetch f url dir fs).done, [dueFetch f url dir fs], fs₃⟩
  | surfaced {fs₁ fs₂ : FileSystem} (hdue : force = true ∨ ¬ Fresh fs dir)
      (hprep : createDirectories dir fs = (.ok (), fs₁)) (hsurfaces : Surfaces f dir fs)
      (hstamped : Stamped dir fs₁ fs₂) :
      Course f url dir force fs ⟨.ok .cloned, [], fs₂⟩

/-- What is asked of a call. It is skipped, without any effect, exactly when it is not forced and
the watermark is fresh. Otherwise it makes the fetch that is due, once, if the directory is there or
can be created. The watermark is written exactly when that fetch succeeds. The one exception is a
checkout that comes to light in a directory which could not be reached before. -/
structure FollowsPolicy (f : Fetcher) (url dir : String) (force : Bool) (fs : FileSystem)
    (run : SyncRun SyncOutcome) : Prop where
  skips : run.outcome = .ok .skipped ↔ force = false ∧ Fresh fs dir
  idle : run.outcome = .ok .skipped → run.calls = [] ∧ run.files = fs
  unprepared : run.outcome ≠ .ok .skipped → ∀ fault fs₁,
    createDirectories dir fs = (.error fault, fs₁) →
      run = ⟨.error (.io fault), [], fs₁⟩ ∧ entryAt? fs₁ dir = entryAt? fs dir
  fetches : run.outcome ≠ .ok .skipped → ¬ Surfaces f dir fs →
    (fs.isDirectory dir = true ∨ (createDirectories dir fs).1 = .ok ()) →
      run.calls = [dueFetch f url dir fs]
  marks : run.outcome ≠ .ok .skipped → ¬ Surfaces f dir fs → ∀ fs₁ fs₂,
    createDirectories dir fs = (.ok (), fs₁) →
    f.fetch dir (dueFetch f url dir fs) fs₁ = (.ok (), fs₂) →
      run.outcome = .ok (dueFetch f url dir fs).done ∧ Stamped dir fs₂ run.files
  keeps : run.outcome ≠ .ok .skipped → ¬ Surfaces f dir fs → ∀ e fs₁ fs₂,
    createDirectories dir fs = (.ok (), fs₁) →
    f.fetch dir (dueFetch f url dir fs) fs₁ = (.error e, fs₂) →
      run.outcome = .error e ∧ run.files = fs₂ ∧
        (¬ fs.StepsUp dir → entryAt? run.files dir = entryAt? fs dir)
  surfaces : Surfaces f dir fs → fs.isDirectory dir = false ∧ fs.StepsUp dir ∧
    (run.outcome ≠ .ok .skipped → run.outcome = .ok .cloned ∧ run.calls = [] ∧
      ∃ fs₁, createDirectories dir fs = (.ok (), fs₁) ∧ Stamped dir fs₁ run.files)

/-! ## Checkouts and directories -/

/-- What can be listed is a directory. -/
theorem isDirectory_of_list {names : List String} (h : fs.list dir = .ok names) :
    fs.isDirectory dir = true := by
  rw [FileSystem.list] at h
  rw [FileSystem.isDirectory]
  rcases hlook : fs.lookUp? dir with fault | ⟨place, _ | _ | _⟩ <;> simp_all

/-- A checkout is a directory. -/
theorem isDirectory_of_isCheckout (hf : f.Sound dir) (h : f.isCheckout fs dir = true) :
    fs.isDirectory dir = true := by
  obtain ⟨name, names, hlist⟩ := hf.checkout fs h
  exact isDirectory_of_list hlist

/-- The test for a directory finds only what is reached. -/
theorem reaches_of_isDirectory (hfs : fs.Grounded) (h : fs.isDirectory dir = true) :
    ∃ d, fs.Reaches dir d := by
  rw [FileSystem.isDirectory] at h
  rcases hlook : fs.lookUp? dir with fault | ⟨place, _ | _ | _⟩
  · simp [hlook] at h
  · simp [hlook] at h
  · exact ⟨place, FileSystem.reaches_of_lookUp? hfs hlook⟩
  · simp [hlook] at h

/-- Nothing is created where there is a directory already. -/
theorem createDirectories_of_isDirectory (hfs : fs.Grounded) (h : fs.isDirectory dir = true) :
    createDirectories dir fs = (.ok (), fs) := by
  obtain ⟨d, hd⟩ := reaches_of_isDirectory hfs h
  exact (FileSystem.createDirectories_preparation hfs dir).there d hd

/-- A checkout comes to light only if the path led to no directory and steps up. -/
theorem Surfaces.stepsUp (hf : f.Sound dir) (hfs : fs.Grounded) (h : Surfaces f dir fs) :
    fs.isDirectory dir = false ∧ fs.StepsUp dir := by
  obtain ⟨hbefore, fs₁, hout, hafter⟩ := h
  have hprep := FileSystem.createDirectories_preparation hfs dir
  rw [hout] at hprep
  have hno (d : Place) (hd : fs.Reaches dir d) : False := by
    have hsame : fs₁ = fs := congrArg Prod.snd (hprep.there d hd)
    rw [hsame, hbefore] at hafter
    exact Bool.false_ne_true hafter
  have hnot : fs.isDirectory dir = false := by
    rw [Bool.eq_false_iff]
    intro hdir
    obtain ⟨d, hd⟩ := reaches_of_isDirectory hfs hdir
    exact hno d hd
  refine ⟨hnot, ?_⟩
  -- Otherwise the directory that was created is empty, and a checkout is not.
  by_contra hup
  obtain ⟨d, hd, hempty⟩ := hprep.made rfl hno
  obtain ⟨name, names, hlist⟩ := hf.checkout fs₁ hafter
  obtain ⟨d', hd', hnames⟩ := FileSystem.reaches_of_list hprep.grounded hlist
  obtain rfl : d = d' := hd.2.unique hd'.2
  rw [(hempty hup).names] at hnames
  simp at hnames

/-- Writing the watermark successfully stamps it. -/
theorem stamped_of_mark (hfs : fs.Grounded) (h : (Watermark.mark dir fs).1 = .ok ()) :
    ∃ fs', Watermark.mark dir fs = (.ok (), fs') ∧ Stamped dir fs fs' := by
  have hmark : Watermark.mark dir fs = (.ok (), (Watermark.mark dir fs).2) := Prod.ext h rfl
  obtain ⟨htime, hgrounded, hnow⟩ := Watermark.mark_ok hfs hmark
  exact ⟨_, hmark, hmark, htime, hgrounded, hnow⟩

/-! ## The course of a call -/

/-- The course of a call is decided by the fetch that is due, once that fetch is attempted. -/
theorem course_of_fetch {α : Type} (url : String) (attempt : SyncRun α) (a : α)
    {fs₁ : FileSystem} (hf : f.Sound dir) (hdue : force = true ∨ ¬ Fresh fs dir)
    (hplain : ¬ Surfaces f dir fs)
    (hprep : createDirectories dir fs = (.ok (), fs₁)) (hfs₁ : fs₁.Grounded)
    (hattempt : attempt = match f.fetch dir (dueFetch f url dir fs) fs₁ with
      | (.error e, fs₂) => ⟨.error e, [dueFetch f url dir fs], fs₂⟩
      | (.ok (), fs₂) => ⟨.ok a, [dueFetch f url dir fs], fs₂⟩)
    (hmark : ∀ b, attempt.outcome = .ok b → (Watermark.mark dir attempt.files).1 = .ok ()) :
    Course f url dir force fs (finish dir (dueFetch f url dir fs).done attempt) := by
  have hleft : LeavesWatermark dir fs₁ (f.fetch dir (dueFetch f url dir fs) fs₁).2 := by
    cases dueFetch f url dir fs with
    | clone url => exact hf.clone url fs₁ hfs₁
    | pull url => exact hf.pull url fs₁ hfs₁
  rcases hfetch : f.fetch dir (dueFetch f url dir fs) fs₁ with ⟨e | _, fs₂⟩
  · rw [hfetch] at hleft hattempt
    rw [hattempt]
    exact .failed hdue hprep hplain hfetch hleft
  · rw [hfetch] at hleft hattempt
    rw [hattempt] at hmark ⊢
    obtain ⟨fs₃, hwrite, hstamped⟩ := stamped_of_mark hleft.grounded (hmark a rfl)
    simp only [finish, hwrite]
    exact .fetched hdue hprep hplain hfetch hleft hstamped

/-- A checkout that is due is pulled. -/
theorem course_pull (hf : f.Sound dir) (hfs : fs.Grounded) (hmark : Markable f url dir fs)
    (hdue : force = true ∨ ¬ Fresh fs dir) (hcheckout : f.isCheckout fs dir = true) :
    Course f url dir force fs (finish dir .pulled (pull f url dir fs)) := by
  have hdir := isDirectory_of_isCheckout hf hcheckout
  have hprep := createDirectories_of_isDirectory hfs hdir
  have hplain : ¬ Surfaces f dir fs := fun h => Bool.false_ne_true (h.1.symm.trans hcheckout)
  have hcall : dueFetch f url dir fs = .pull url := by rw [dueFetch, if_pos hcheckout]
  rw [Markable, if_pos hcheckout] at hmark
  have hcourse := course_of_fetch url (pull f url dir fs) () hf hdue hplain hprep hfs ?_ hmark
  · rwa [hcall] at hcourse
  · rw [hcall, pull, hdir]
    rfl

/-- What is due and no checkout is cloned, unless its directory cannot be created, or a checkout
comes to light there. -/
theorem course_clone (hf : f.Sound dir) (hfs : fs.Grounded) (hmark : Markable f url dir fs)
    (hdue : force = true ∨ ¬ Fresh fs dir) (hnone : f.isCheckout fs dir = false) :
    Course f url dir force fs (finish dir .cloned (clone f url dir fs)) := by
  have hgrounded := (FileSystem.createDirectories_preparation hfs dir).grounded
  rw [Markable, hnone] at hmark
  simp only [Bool.false_eq_true, if_false] at hmark
  rcases hprep : createDirectories dir fs with ⟨fault | _, fs₁⟩
  · have hrun : clone f url dir fs = ⟨.error (.io fault), [], fs₁⟩ := by simp only [clone, hprep]
    rw [hrun]
    exact .unprepared hdue hprep hnone
  · rw [hprep] at hgrounded
    cases hafter : f.isCheckout fs₁ dir with
    | true =>
      have hrun : clone f url dir fs = ⟨.ok false, [], fs₁⟩ := by simp [clone, hprep, hafter]
      rw [hrun] at hmark ⊢
      obtain ⟨fs₂, hwrite, hstamped⟩ := stamped_of_mark hgrounded (hmark false rfl)
      simp only [finish, hwrite]
      exact .surfaced hdue hprep ⟨hnone, fs₁, hprep, hafter⟩ hstamped
    | false =>
      have hplain : ¬ Surfaces f dir fs := by
        rintro ⟨-, fs', hprep', hafter'⟩
        have hsame : fs₁ = fs' := congrArg Prod.snd (hprep.symm.trans hprep')
        rw [hsame, hafter'] at hafter
        exact Bool.false_ne_true hafter.symm
      have hcall : dueFetch f url dir fs = .clone url := by rw [dueFetch, hnone]; rfl
      have hcourse := course_of_fetch url (clone f url dir fs) true hf hdue hplain hprep hgrounded
        ?_ hmark
      · rwa [hcall] at hcourse
      · rw [hcall]
        simp only [clone, hprep, hafter, Bool.false_eq_true, if_false]
        rfl

/-- Every call takes one of the courses. -/
theorem sync_course (hf : f.Sound dir) (hfs : fs.Grounded) (hmark : Markable f url dir fs) :
    Course f url dir force fs (sync f url dir force fs) := by
  rw [sync]
  by_cases hskip : force = false ∧ Fresh fs dir
  · have hdue : Watermark.isDue fs dir = false := by
      rw [Bool.eq_false_iff, Ne, Watermark.isDue_iff, not_not]
      exact hskip.2
    rw [hskip.1, hdue]
    exact .skipped rfl hskip.2
  · have hdue : force = true ∨ ¬ Fresh fs dir := by
      rw [Classical.not_and_iff_not_or_not, Bool.not_eq_false] at hskip
      exact hskip
    have hgo : (!force && !Watermark.isDue fs dir) = false := by
      rcases hdue with hforce | hstale
      · rw [hforce]
        rfl
      · rw [(Watermark.isDue_iff fs dir).mpr hstale]
        simp
    rw [hgo]
    simp only [Bool.false_eq_true, if_false]
    cases hcheckout : f.isCheckout fs dir with
    | true => exact course_pull hf hfs hmark hdue hcheckout
    | false => exact course_clone hf hfs hmark hdue hcheckout

/-- A course that is taken by a due call is not the skipping one. -/
theorem not_skip_of_due (hdue : force = true ∨ ¬ Fresh fs dir) :
    ¬ (force = false ∧ Fresh fs dir) := by
  rintro ⟨hforce, hfresh⟩
  rcases hdue with h | h
  · exact Bool.false_ne_true (hforce.symm.trans h)
  · exact h hfresh

/-- Whatever course a call takes, it does what is asked of it. -/
theorem Course.followsPolicy (hf : f.Sound dir) (hfs : fs.Grounded)
    (h : Course f url dir force fs run) : FollowsPolicy f url dir force fs run := by
  -- One case for each course. Most clauses are about another course and hold because what they ask
  -- for did not happen.
  cases h with
  | skipped hforce hfresh =>
    exact {
      skips := ⟨fun _ => ⟨hforce, hfresh⟩, fun _ => rfl⟩
      idle := fun _ => ⟨rfl, rfl⟩
      unprepared := fun hno => absurd rfl hno
      fetches := fun hno => absurd rfl hno
      marks := fun hno => absurd rfl hno
      keeps := fun hno => absurd rfl hno
      surfaces := fun hs =>
        ⟨(hs.stepsUp hf hfs).1, (hs.stepsUp hf hfs).2, fun hno => absurd rfl hno⟩ }
  | unprepared hdue hprep hplain =>
    have hnot : fs.isDirectory dir = false := by
      rw [Bool.eq_false_iff]
      intro hdir
      rw [createDirectories_of_isDirectory hfs hdir] at hprep
      cases congrArg Prod.fst hprep
    exact {
      skips := ⟨fun h => by simp at h, fun h => absurd h (not_skip_of_due hdue)⟩
      idle := fun h => by simp at h
      unprepared := fun _ fault' fs' hprep' => by
        obtain ⟨hfault, hfiles⟩ := Prod.mk.inj (hprep.symm.trans hprep')
        obtain rfl := Except.error.inj hfault
        subst hfiles
        exact ⟨rfl, Watermark.entryAt?_of_failure hfs hprep⟩
      fetches := fun _ _ hready => by simp [hnot, hprep] at hready
      marks := fun _ _ fs' _ hprep' => by cases congrArg Prod.fst (hprep.symm.trans hprep')
      keeps := fun _ _ _ fs' _ hprep' => by cases congrArg Prod.fst (hprep.symm.trans hprep')
      surfaces := fun ⟨_, fs', hprep', _⟩ => by cases congrArg Prod.fst (hprep.symm.trans hprep') }
  | failed hdue hprep hplain hfetch hleft =>
    exact {
      skips := ⟨fun h => by simp at h, fun h => absurd h (not_skip_of_due hdue)⟩
      idle := fun h => by simp at h
      unprepared := fun _ _ fs' hprep' => by cases congrArg Prod.fst (hprep.symm.trans hprep')
      fetches := fun _ _ _ => rfl
      marks := fun _ _ fs' fs'' hprep' hfetch' => by
        obtain rfl := congrArg Prod.snd (hprep.symm.trans hprep')
        cases congrArg Prod.fst (hfetch.symm.trans hfetch')
      keeps := fun _ _ e' fs' fs'' hprep' hfetch' => by
        obtain rfl := congrArg Prod.snd (hprep.symm.trans hprep')
        obtain ⟨herror, hfiles⟩ := Prod.mk.inj (hfetch.symm.trans hfetch')
        exact ⟨congrArg Except.error (Except.error.inj herror), hfiles, fun hup =>
          hleft.watermark.trans (Watermark.entryAt?_of_success hfs hup hprep)⟩
      surfaces := fun hs => absurd hs hplain }
  | fetched hdue hprep hplain hfetch hleft hstamped =>
    have hnever : (Except.ok (dueFetch f url dir fs).done : Except Error SyncOutcome) ≠
        .ok .skipped := fun h => FetchCall.done_ne_skipped _ (Except.ok.inj h)
    exact {
      skips := ⟨fun h => absurd h hnever, fun h => absurd h (not_skip_of_due hdue)⟩
      idle := fun h => absurd h hnever
      unprepared := fun _ _ fs' hprep' => by cases congrArg Prod.fst (hprep.symm.trans hprep')
      fetches := fun _ _ _ => rfl
      marks := fun _ _ fs' fs'' hprep' hfetch' => by
        obtain rfl := congrArg Prod.snd (hprep.symm.trans hprep')
        obtain rfl := congrArg Prod.snd (hfetch.symm.trans hfetch')
        exact ⟨rfl, hstamped⟩
      keeps := fun _ _ e' fs' fs'' hprep' hfetch' => by
        obtain rfl := congrArg Prod.snd (hprep.symm.trans hprep')
        cases congrArg Prod.fst (hfetch.symm.trans hfetch')
      surfaces := fun hs => absurd hs hplain }
  | surfaced hdue hprep hs hstamped =>
    exact {
      skips := ⟨fun h => by simp at h, fun h => absurd h (not_skip_of_due hdue)⟩
      idle := fun h => by simp at h
      unprepared := fun _ _ fs' hprep' => by cases congrArg Prod.fst (hprep.symm.trans hprep')
      fetches := fun _ hplain => absurd hs hplain
      marks := fun _ hplain => absurd hs hplain
      keeps := fun _ hplain => absurd hs hplain
      surfaces := fun _ =>
        ⟨(hs.stepsUp hf hfs).1, (hs.stepsUp hf hfs).2, fun _ => ⟨rfl, rfl, _, hprep, hstamped⟩⟩ }

end LocalCopy

end Repertoire
