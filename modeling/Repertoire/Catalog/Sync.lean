import Repertoire.Catalog.Fetcher

/-!
# Keeping a local copy in step

A local copy is fetched when it is due or when that is asked for: by a pull when it is a checkout
of its fetcher, and by a clone otherwise. The watermark is written after a fetch that succeeded.
Each operation tells which fetches it attempted.
-/

namespace Repertoire

/-- An attempt to fetch from an address. -/
inductive FetchCall where
  | clone (url : String)
  | pull (url : String)
deriving DecidableEq, Repr

/-- What became of a local copy that was to be brought in step. -/
inductive SyncOutcome where
  | skipped
  | cloned
  | pulled
deriving DecidableEq, Repr

/-- The outcome of an operation on a local copy, the fetches it attempted, and the file system
afterwards. -/
structure SyncRun (α : Type) where
  outcome : Except Error α
  calls : List FetchCall
  files : FileSystem

namespace LocalCopy

/-- Fills a directory from an address, unless it is a checkout; tells whether it did. -/
def clone (f : Fetcher) (url dir : String) (fs : FileSystem) : SyncRun Bool :=
  match FileSystem.createDirectories dir fs with
  | (.error fault, fs) => ⟨.error (.io fault), [], fs⟩
  | (.ok (), fs) =>
    if f.isCheckout fs dir then ⟨.ok false, [], fs⟩
    else
      match f.clone url dir fs with
      | (.error e, fs) => ⟨.error e, [.clone url], fs⟩
      | (.ok (), fs) => ⟨.ok true, [.clone url], fs⟩

/-- Brings a directory up to date. -/
def pull (f : Fetcher) (url dir : String) (fs : FileSystem) : SyncRun Unit :=
  if !fs.isDirectory dir then ⟨.error (.fileNotFound dir), [], fs⟩
  else
    match f.pull url dir fs with
    | (.error e, fs) => ⟨.error e, [.pull url], fs⟩
    | (.ok (), fs) => ⟨.ok (), [.pull url], fs⟩

/-- Writes the watermark after a fetch that succeeded. -/
def finish {α : Type} (dir : String) (outcome : SyncOutcome) (run : SyncRun α) :
    SyncRun SyncOutcome :=
  match run.outcome with
  | .error e => ⟨.error e, run.calls, run.files⟩
  | .ok _ =>
    match Watermark.mark dir run.files with
    | (.error fault, fs) => ⟨.error (.io fault), run.calls, fs⟩
    | (.ok (), fs) => ⟨.ok outcome, run.calls, fs⟩

/-- Fetches a local copy that is due, or any local copy if that is asked for. -/
def sync (f : Fetcher) (url dir : String) (force : Bool) (fs : FileSystem) :
    SyncRun SyncOutcome :=
  if !force && !Watermark.isDue fs dir then ⟨.ok .skipped, [], fs⟩
  else if f.isCheckout fs dir then finish dir .pulled (pull f url dir fs)
  else finish dir .cloned (clone f url dir fs)

end LocalCopy

end Repertoire
