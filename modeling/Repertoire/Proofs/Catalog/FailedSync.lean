import Repertoire.Proofs.Catalog.Fetching

/-!
# The watermark after a sync that failed

The watermark lies in the directory that archives are unpacked over, and unpacking gives its name no
special treatment. So a sync of an archive that fails leaves the watermark alone unless the archive
has an entry that was reached and puts something in its place; then that is what stands there
afterwards. Nothing else in a failed sync touches the watermark, at whichever point it failed.

The watermark is taken to be what stands at its place in the directory, a link for itself. The
directory may hold anything, links included. If its path leads nowhere and steps up, the attempt to
create it may itself leave a directory in the place of the watermark.
-/

namespace Repertoire.Tarball

open Repertoire.Archive (Reached Puts)
open Repertoire.FileSystem (createDirectories createDirectories_preparation createDirectories_grown
  entry?)
open Repertoire.LocalCopy (sync clone finish)

variable {remote : CatalogSource → RemoteAnswer} {url dir : String} {force : Bool}
  {fs made : FileSystem} {top : Place}

/-- An entry of the archive that a remote serves is reached by a fetch, with the file system that it
finds. -/
def Extracts (remote : CatalogSource → RemoteAnswer) (url dir : String) (fs : FileSystem)
    (e : ArchiveEntry) (fs' : FileSystem) : Prop :=
  ∃ a top, Serves remote url a ∧ fs.canonical dir = .ok top ∧ Reached top a.offered fs e fs'

/-- What stands at a name right in the directory after a fetch: what stood there before, if no entry
that was reached puts anything there, and otherwise what one of them put there. -/
theorem fetch_settles (hfs : fs.Grounded) (htop : fs.Reaches dir top)
    (remote : CatalogSource → RemoteAnswer) (url n : String) :
    ((∀ e fs' new, Extracts remote url dir fs e fs' → ¬ Puts top n e fs' new) ∧
        entry? (fetch remote url dir fs).2 (top ++ [n]) = fs.entry? (top ++ [n])) ∨
      ∃ e fs' new, Extracts remote url dir fs e fs' ∧ Puts top n e fs' new ∧
        entry? (fetch remote url dir fs).2 (top ++ [n]) = some new := by
  rcases fetch_cases hfs htop remote url with ⟨a, hserves, hfetch⟩ | ⟨hnone, err, hfetch⟩
  · rw [hfetch]
    cases hcanon : fs.canonical dir with
    | error fault =>
      refine .inl ⟨?_, by simp only [Archive.unpack, hcanon]⟩
      rintro e fs' new ⟨a', top', -, hcanon', -⟩
      rw [hcanon] at hcanon'
      cases hcanon'
    | ok place =>
      obtain ⟨-, rfl⟩ := (htop.canonical_iff hfs).mp hcanon
      rw [(Archive.unpack_entries a hcanon).1]
      rcases Archive.unpackEntries_settles hfs htop.2.2 a.offered n with
        ⟨hno, hsame⟩ | ⟨e, fs', new, hreached, hput, hnew⟩
      · refine .inl ⟨?_, hsame⟩
        rintro e fs' new ⟨a', top', hserves', hcanon', hreached⟩
        obtain rfl := hserves.unique hserves'
        obtain rfl := Except.ok.inj (hcanon.symm.trans hcanon')
        exact hno e fs' new hreached
      · exact .inr ⟨e, fs', new, ⟨a, place, hserves, hcanon, hreached⟩, hput, hnew⟩
  · rw [hfetch]
    refine .inl ⟨?_, rfl⟩
    rintro e fs' new ⟨a, top', hserves, -⟩
    exact absurd hserves (hnone a)

/-- The attempt to create the directory changes nothing at a name right in it, unless the path steps
up and the attempt creates that very name. -/
theorem child_of_createDirectories (hfs : fs.Grounded)
    (htop : (createDirectories dir fs).2.Reaches dir top) (n : String) :
    entry? (createDirectories dir fs).2 (top ++ [n]) = fs.entry? (top ++ [n]) ∨
      (fs.StepsUp dir ∧ fs.entry? (top ++ [n]) = none ∧
        entry? (createDirectories dir fs).2 (top ++ [n]) = some .directory) := by
  have hprep := createDirectories_preparation hfs dir
  rcases (createDirectories_grown fs dir).grows (top ++ [n]) with hsame | ⟨-, hnone, hdir⟩
  · exact .inl hsame
  · refine .inr ⟨?_, hnone, hdir⟩
    by_contra hup
    have hno (d : Place) (hd : fs.Reaches dir d) : False := by
      rw [hprep.there d hd, hnone] at hdir
      simp at hdir
    have hok : (createDirectories dir fs).1 = .ok () := by
      by_contra hfail
      exact hprep.failed hfail top htop
    obtain ⟨d, hd, hempty⟩ := hprep.made hok hno
    obtain rfl := htop.2.unique hd.2
    rw [hempty hup n] at hdir
    simp at hdir

/-! ## The watermark -/

open Watermark (entryAt? fileName)

/-- What a sync that fails does to the watermark. Where the directory cannot be created there is
none before or after. Elsewhere it is as it was, unless an entry that was reached puts something in
its place, and then that is what stands there. -/
structure FailureLeaves (remote : CatalogSource → RemoteAnswer) (url dir : String)
    (fs : FileSystem) (run : SyncRun SyncOutcome) : Prop where
  unreached : (∀ top, ¬ (createDirectories dir fs).2.Reaches dir top) →
    entryAt? fs dir = none ∧ entryAt? run.files dir = none
  untouched : ∀ top, (createDirectories dir fs).2.Reaches dir top →
    (∀ e fs' new, Extracts remote url dir (createDirectories dir fs).2 e fs' →
      ¬ Puts top fileName e fs' new) →
    run.files.entry? (top ++ [fileName]) = fs.entry? (top ++ [fileName]) ∨
      (fs.StepsUp dir ∧ fs.entry? (top ++ [fileName]) = none ∧
        run.files.entry? (top ++ [fileName]) = some .directory)
  overwritten : ∀ top, (createDirectories dir fs).2.Reaches dir top → run.calls ≠ [] →
    (∃ e fs' new, Extracts remote url dir (createDirectories dir fs).2 e fs' ∧
      Puts top fileName e fs' new) →
    ∃ e fs' new, Extracts remote url dir (createDirectories dir fs).2 e fs' ∧
      Puts top fileName e fs' new ∧ run.files.entry? (top ++ [fileName]) = some new

/-- Where the directory cannot be created, a sync that fails leaves what the attempt left. -/
theorem sync_error_unreached {err : Error} (hfs : fs.Grounded)
    (hno : ∀ top, ¬ (createDirectories dir fs).2.Reaches dir top)
    (herror : (sync (fetcher remote) url dir force fs).outcome = .error err) :
    (sync (fetcher remote) url dir force fs).files = (createDirectories dir fs).2 := by
  have hprep := createDirectories_preparation hfs dir
  have hbefore (d : Place) (hd : fs.Reaches dir d) : False := by
    have hsame := congrArg Prod.snd (hprep.there d hd)
    exact hno d (hsame.symm ▸ hd)
  rw [sync] at herror ⊢
  split at herror
  · simp at herror
  · rename_i hdue
    rw [if_neg hdue]
    have hcheckout : ¬ (fetcher remote).isCheckout fs dir = true := by
      intro h
      obtain ⟨d, hd⟩ := LocalCopy.reaches_of_isDirectory hfs
        (createDirectories_of_isPopulated hfs h).1
      exact hbefore d hd
    rw [if_neg hcheckout]
    rcases hout : createDirectories dir fs with ⟨fault | _, fs₁⟩
    · simp only [clone, hout, finish]
    · rw [hout] at hprep hno
      obtain ⟨d, hd, -⟩ := hprep.made rfl hbefore
      exact absurd hd (hno d)

/-- A local copy with a watermark and one file. -/
def markedCopy : FileSystem where
  entries := [(["mirror"], .directory),
    (["mirror", "community.md"], .file "A community skill.\n".toUTF8 0),
    (["mirror", fileName], .file "Last sync: 0\n".toUTF8 0)]
  workingDir := []
  now := 30 * 24 * 60 * 60 * Watermark.second

/-- A remote whose archive has an entry for the watermark, and then one that is refused. -/
def forger : CatalogSource → RemoteAnswer := fun _ =>
  .answered 200 ⟨[⟨"top/.skillhost-open-skills-sync", .file, "x".toUTF8, 100⟩,
    ⟨"top/../x", .file, "x".toUTF8, 100⟩], .complete⟩

/-- A local copy without a watermark. -/
def unmarkedCopy : FileSystem where
  entries := [(["mirror"], .directory)]
  workingDir := []
  now := 30 * 24 * 60 * 60 * Watermark.second

/-- A path through the missing watermark and back leads to that copy once a directory stands in the
place of the watermark, and there it stays although nothing could be fetched. -/
example :
    let run := sync (fetcher fun _ => .unreachable) "owner/repo"
      "mirror/.skillhost-open-skills-sync/.." false unmarkedCopy
    run.outcome = .error .http ∧ unmarkedCopy.entry? ["mirror", fileName] = none ∧
      run.files.entry? ["mirror", fileName] = some .directory := ⟨rfl, rfl, rfl⟩

end Repertoire.Tarball
