import Repertoire.Catalog.Archive
import Repertoire.Catalog.HttpStatus
import Repertoire.Catalog.Source

/-!
# Fetching a catalog as an archive

A repository is fetched by downloading an archive of it and unpacking that over the local copy. What
the remote answers is a parameter: nothing at all, or a status with an archive. The directory is
left alone unless the answer means success.
-/

namespace Repertoire

/-- What a remote answers. -/
inductive RemoteAnswer where
  | unreachable
  | answered (status : Nat) (body : Archive)

namespace Tarball

/-- The error for an answer that does not mean success. -/
def refused (source : CatalogSource) (status : Nat) : Error :=
  .message ("failed to fetch " ++ source.text ++ ": HTTP " ++ HttpStatus.text status)

/-- Downloads the archive of a repository and unpacks it into a directory. -/
def fetch (remote : CatalogSource → RemoteAnswer) (url dir : String) (fs : FileSystem) : Fetched :=
  match CatalogSource.parse url with
  | .error e => (.error e, fs)
  | .ok source =>
    match remote source with
    | .unreachable => (.error .http, fs)
    | .answered status body =>
      if !HttpStatus.isSuccess status then (.error (refused source status), fs)
      else
        match FileSystem.createDirectories dir fs with
        | (.error fault, fs) => (.error (.io fault), fs)
        | (.ok (), fs) => body.unpack dir fs

/-- The fetcher that downloads archives from a remote. -/
def fetcher (remote : CatalogSource → RemoteAnswer) : Fetcher :=
  ⟨fetch remote, fetch remote, Watermark.isPopulated⟩

end Tarball

end Repertoire
