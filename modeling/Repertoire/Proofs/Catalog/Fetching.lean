import Repertoire.Catalog.Tarball
import Repertoire.Proofs.Catalog.Policy
import Repertoire.Proofs.Catalog.Unpacking

/-!
# Fetching an archive

A fetch unpacks the archive that the remote serves, if it serves one, and does nothing otherwise.
This holds where the directory is reached, to which everything else is brought back here: a sync
creates its directory first, and what it does after the fetch is to write the watermark.
-/

namespace Repertoire.Tarball

open Repertoire.Archive (unpackEntries)
open Repertoire.FileSystem (createDirectories createDirectories_preparation Steady)
open Repertoire.LocalCopy (sync clone pull finish)

variable {remote : CatalogSource → RemoteAnswer} {url dir : String} {force : Bool}
  {fs made fs' : FileSystem} {top : Place} {a a' : Archive}

/-- An outcome that means success, with the files beside it. -/
theorem eq_ok_of_fst {out : Fetched} (h : out.1 = .ok ()) : out = (.ok (), out.2) := Prod.ext h rfl

/-- A remote serves an archive under an address: it answers with it, and the answer means
success. -/
def Serves (remote : CatalogSource → RemoteAnswer) (url : String) (a : Archive) : Prop :=
  ∃ source status, CatalogSource.parse url = .ok source ∧ remote source = .answered status a ∧
    HttpStatus.isSuccess status = true

/-- Under an address at most one archive is served. -/
theorem Serves.unique (h : Serves remote url a) (h' : Serves remote url a') : a = a' := by
  obtain ⟨source, status, hparse, hanswer, -⟩ := h
  obtain ⟨source', status', hparse', hanswer', -⟩ := h'
  obtain rfl := Except.ok.inj (hparse.symm.trans hparse')
  exact (RemoteAnswer.answered.inj (hanswer.symm.trans hanswer')).2

/-- A fetch into a directory that is reached unpacks the archive that is served, or fails without
any effect if none is. -/
theorem fetch_cases (hfs : fs.Grounded) (htop : fs.Reaches dir top)
    (remote : CatalogSource → RemoteAnswer) (url : String) :
    (∃ a, Serves remote url a ∧ fetch remote url dir fs = a.unpack dir fs) ∨
      ((∀ a, ¬ Serves remote url a) ∧ ∃ err, fetch remote url dir fs = (.error err, fs)) := by
  -- A fetch fails without effect at three places: the address, the connection and the status.
  cases hsource : CatalogSource.parse url with
  | error err =>
    have hfetch : fetch remote url dir fs = (.error err, fs) := by simp only [fetch, hsource]
    refine .inr ⟨?_, err, hfetch⟩
    rintro a ⟨source, status, hparse, -⟩
    rw [hsource] at hparse
    cases hparse
  | ok source =>
    have hserves {a : Archive} (h : Serves remote url a) :
        ∃ status, remote source = .answered status a ∧ HttpStatus.isSuccess status = true := by
      obtain ⟨source', status, hparse, hanswer, hsuccess⟩ := h
      obtain rfl := Except.ok.inj (hsource.symm.trans hparse)
      exact ⟨status, hanswer, hsuccess⟩
    cases hanswer : remote source with
    | unreachable =>
      have hfetch : fetch remote url dir fs = (.error .http, fs) := by
        simp only [fetch, hsource, hanswer]
      refine .inr ⟨fun a ha => ?_, .http, hfetch⟩
      obtain ⟨status, hother, -⟩ := hserves ha
      rw [hanswer] at hother
      cases hother
    | answered status body =>
      cases hstatus : HttpStatus.isSuccess status with
      | true =>
        have hfetch : fetch remote url dir fs = body.unpack dir fs := by
          simp only [fetch, hsource, hanswer, hstatus, Bool.not_true, Bool.false_eq_true, if_false,
            (createDirectories_preparation hfs dir).there top htop]
        exact .inl ⟨body, ⟨source, status, hsource, hanswer, hstatus⟩, hfetch⟩
      | false =>
        have hfetch : fetch remote url dir fs = (.error (refused source status), fs) := by
          simp only [fetch, hsource, hanswer, hstatus, Bool.not_false, if_true]
        refine .inr ⟨fun a ha => ?_, refused source status, hfetch⟩
        obtain ⟨status', hother, hsuccess⟩ := hserves ha
        rw [hanswer, RemoteAnswer.answered.injEq] at hother
        rw [← hother.1, hstatus] at hsuccess
        cases hsuccess

/-- Unpacking into a directory that is reached keeps directories and links. -/
theorem unpack_steady (hfs : fs.Grounded) (htop : fs.Reaches dir top) (a : Archive) :
    Steady fs (a.unpack dir fs).2 := by
  cases hcanon : fs.canonical dir with
  | error fault =>
    simp only [Archive.unpack, hcanon]
    exact .refl hfs
  | ok place =>
    obtain ⟨-, rfl⟩ := (htop.canonical_iff hfs).mp hcanon
    rw [(Archive.unpack_entries a hcanon).1]
    exact Archive.unpackEntries_steady hfs place a.offered

/-- A fetch into a directory that is reached keeps directories and links. -/
theorem fetch_steady (hfs : fs.Grounded) (htop : fs.Reaches dir top)
    (remote : CatalogSource → RemoteAnswer) (url : String) :
    Steady fs (fetch remote url dir fs).2 := by
  rcases fetch_cases hfs htop remote url with ⟨a, -, hfetch⟩ | ⟨-, err, hfetch⟩
  · rw [hfetch]
    exact unpack_steady hfs htop a
  · rw [hfetch]
    exact .refl hfs

/-! ## The sync around the fetch -/

/-- A pull is a fetch, where there is a directory. -/
theorem pull_run (remote : CatalogSource → RemoteAnswer) (url : String)
    (hdir : fs.isDirectory dir = true) :
    (pull (fetcher remote) url dir fs).outcome = (fetch remote url dir fs).1 ∧
      (pull (fetcher remote) url dir fs).files = (fetch remote url dir fs).2 := by
  simp only [pull, hdir, Bool.not_true, Bool.false_eq_true, if_false, fetcher]
  rcases fetch remote url dir fs with ⟨e | _, fs'⟩ <;> exact ⟨rfl, rfl⟩

/-- A clone into a directory that was created and is populated fetches nothing. -/
theorem clone_populated (remote : CatalogSource → RemoteAnswer) (url : String)
    (hmade : createDirectories dir fs = (.ok (), made))
    (h : Watermark.isPopulated made dir = true) :
    clone (fetcher remote) url dir fs = ⟨.ok false, [], made⟩ := by
  simp only [clone, hmade, fetcher, h, if_true]

/-- Any other clone is a fetch into the directory that was created. -/
theorem clone_run (remote : CatalogSource → RemoteAnswer) (url : String)
    (hmade : createDirectories dir fs = (.ok (), made))
    (h : Watermark.isPopulated made dir = false) :
    (clone (fetcher remote) url dir fs).outcome =
        (fetch remote url dir made).1.map (fun _ => true) ∧
      (clone (fetcher remote) url dir fs).files = (fetch remote url dir made).2 := by
  simp only [clone, hmade, fetcher, h, Bool.false_eq_true, if_false]
  rcases fetch remote url dir made with ⟨e | _, fs'⟩ <;> exact ⟨rfl, rfl⟩

/-- Where the directory is reached after an attempt, nothing else changes in a sync that fails. -/
theorem finish_error {α : Type} {attempt : SyncRun α} {o : SyncOutcome} {err : Error}
    (hfs : attempt.files.Grounded) (htop : attempt.files.Reaches dir top)
    (h : (finish dir o attempt).outcome = .error err) :
    (finish dir o attempt).calls = attempt.calls ∧
      (finish dir o attempt).files = attempt.files := by
  rw [finish] at h ⊢
  cases hattempt : attempt.outcome with
  | error e => exact ⟨rfl, rfl⟩
  | ok a =>
    simp only [hattempt] at h ⊢
    rcases hmark : Watermark.mark dir attempt.files with ⟨fault | _, fs'⟩
    · exact ⟨rfl, Watermark.mark_error hfs htop hmark⟩
    · rw [hmark] at h
      cases h

/-- In a sync that succeeds the attempt succeeded, and the watermark was written after it. -/
theorem finish_ok {α : Type} {attempt : SyncRun α} {o o' : SyncOutcome}
    (h : (finish dir o attempt).outcome = .ok o') :
    (∃ a, attempt.outcome = .ok a) ∧
      Watermark.mark dir attempt.files = (.ok (), (finish dir o attempt).files) := by
  rw [finish] at h ⊢
  cases hattempt : attempt.outcome with
  | error e =>
    rw [hattempt] at h
    cases h
  | ok a =>
    simp only [hattempt] at h ⊢
    rcases hmark : Watermark.mark dir attempt.files with ⟨fault | _, fs'⟩
    · rw [hmark] at h
      cases h
    · exact ⟨⟨a, rfl⟩, rfl⟩

/-- A checkout is reached, so no directory has to be created for it. -/
theorem createDirectories_of_isPopulated (hfs : fs.Grounded)
    (h : Watermark.isPopulated fs dir = true) :
    fs.isDirectory dir = true ∧ createDirectories dir fs = (.ok (), fs) := by
  obtain ⟨name, names, hlist⟩ := Watermark.exists_name_of_isPopulated h
  have hdir := LocalCopy.isDirectory_of_list hlist
  exact ⟨hdir, LocalCopy.createDirectories_of_isDirectory hfs hdir⟩

/-- The directory could be created if it is reached afterwards. -/
theorem createDirectories_ok (hfs : fs.Grounded) (hmade : (createDirectories dir fs).2 = made)
    (htop : made.Reaches dir top) : createDirectories dir fs = (.ok (), made) := by
  refine Prod.ext ?_ hmade
  by_contra hfail
  exact (createDirectories_preparation hfs dir).failed hfail top (hmade ▸ htop)

/-- What a sync that fails leaves, where the directory is reached once it was to be created: what
the fetch leaves, or nothing new if none was attempted. -/
theorem sync_error_files {err : Error} (hfs : fs.Grounded)
    (hmade : (createDirectories dir fs).2 = made) (htop : made.Reaches dir top)
    (herror : (sync (fetcher remote) url dir force fs).outcome = .error err) :
    ((sync (fetcher remote) url dir force fs).calls = [] ∧
        (sync (fetcher remote) url dir force fs).files = made) ∨
      (sync (fetcher remote) url dir force fs).files = (fetch remote url dir made).2 := by
  have hgrounded : made.Grounded := hmade ▸ (createDirectories_preparation hfs dir).grounded
  have hsteady := fetch_steady hgrounded htop remote url
  have hreached := htop.of_steady hsteady
  rw [sync] at herror ⊢
  split at herror
  · cases herror
  rename_i hdue
  rw [if_neg hdue]
  -- A checkout is pulled. Anything else is cloned, unless creating the directory turned it into a
  -- checkout, in which case nothing is fetched.
  split at herror
  · rename_i hcheckout
    rw [if_pos hcheckout]
    obtain ⟨hdir, hthere⟩ := createDirectories_of_isPopulated hfs hcheckout
    obtain rfl : fs = made := by rw [← hmade, hthere]
    obtain ⟨-, hfiles⟩ := pull_run remote url hdir
    rw [← hfiles] at hsteady hreached
    rw [← hfiles]
    exact .inr (finish_error hsteady.grounded hreached herror).2
  · rename_i hcheckout
    rw [if_neg hcheckout]
    have hok := createDirectories_ok hfs hmade htop
    cases hpopulated : Watermark.isPopulated made dir with
    | true =>
      rw [clone_populated remote url hok hpopulated] at herror ⊢
      exact .inl (finish_error hgrounded htop herror)
    | false =>
      obtain ⟨-, hfiles⟩ := clone_run remote url hok hpopulated
      rw [← hfiles] at hsteady hreached
      rw [← hfiles]
      exact .inr (finish_error hsteady.grounded hreached herror).2

/-- A sync that fetches and succeeds fetched successfully and then wrote the watermark, unless a
checkout came to light. -/
theorem sync_ok_files {o : SyncOutcome} (hfs : fs.Grounded)
    (hmade : (createDirectories dir fs).2 = made) (htop : made.Reaches dir top)
    (hplain : Watermark.isPopulated made dir = true → Watermark.isPopulated fs dir = true)
    (hok : (sync (fetcher remote) url dir force fs).outcome = .ok o) (hdone : o ≠ .skipped) :
    ∃ fs', fetch remote url dir made = (.ok (), fs') ∧
      Watermark.mark dir fs' = (.ok (), (sync (fetcher remote) url dir force fs).files) := by
  rw [sync] at hok ⊢
  split at hok
  · exact absurd (Except.ok.inj hok).symm hdone
  rename_i hdue
  rw [if_neg hdue]
  split at hok
  · rename_i hcheckout
    rw [if_pos hcheckout]
    obtain ⟨hdir, hthere⟩ := createDirectories_of_isPopulated hfs hcheckout
    obtain rfl : fs = made := by rw [← hmade, hthere]
    obtain ⟨⟨_, hresult⟩, hmark⟩ := finish_ok hok
    obtain ⟨houtcome, hfiles⟩ := pull_run remote url hdir
    rw [hfiles] at hmark
    rw [houtcome] at hresult
    exact ⟨_, eq_ok_of_fst hresult, hmark⟩
  · rename_i hcheckout
    rw [if_neg hcheckout]
    have hempty : Watermark.isPopulated made dir = false :=
      Bool.eq_false_iff.mpr fun h => hcheckout (hplain h)
    obtain ⟨⟨_, hresult⟩, hmark⟩ := finish_ok hok
    obtain ⟨houtcome, hfiles⟩ := clone_run remote url (createDirectories_ok hfs hmade htop) hempty
    rw [hfiles] at hmark
    rw [houtcome] at hresult
    refine ⟨_, eq_ok_of_fst ?_, hmark⟩
    cases hfetch : (fetch remote url dir made).1 with
    | error err =>
      rw [hfetch] at hresult
      cases hresult
    | ok _ => rfl

end Repertoire.Tarball
