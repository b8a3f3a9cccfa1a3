import Repertoire.Catalog.Repository
import Repertoire.Catalog.Sync
import Repertoire.Catalog.Tarball
import Repertoire.Settings.Location
import Repertoire.Skill.Discovery

/-!
# The catalog

The remote catalog of skills as the settings describe it: its address, the directory of its
local copy, and the fetcher. The local copy is scanned like any other directory with skills; one
that is missing holds none.
-/

namespace Repertoire

/-- A catalog with its local copy. -/
structure Catalog where
  repoUrl : String
  dir : String
  fetcher : Fetcher

namespace Catalog

/-- The fetcher of a kind. -/
def fetcherOf (remote : CatalogSource → RemoteAnswer) : FetcherKind → Fetcher
  | .git => Repository.fetcher
  | .tarball => Tarball.fetcher remote

/-- The catalog that settings describe. -/
def ofSettings (env : Environment) (given : GivenDirectories) (settings : Settings)
    (remote : CatalogSource → RemoteAnswer) : Catalog :=
  ⟨settings.catalog.repoUrl, Location.catalogDir env given settings,
    fetcherOf remote settings.catalog.fetcher⟩

/-- The local copy is due to be fetched again. -/
def isDue (c : Catalog) (fs : FileSystem) : Bool := Watermark.isDue fs c.dir

/-- Brings the local copy in step with the catalog. -/
def sync (c : Catalog) (force : Bool) (fs : FileSystem) : SyncRun SyncOutcome :=
  LocalCopy.sync c.fetcher c.repoUrl c.dir force fs

/-- Loads and registers the skills of a local copy. -/
def scanLocalCopy (fs : FileSystem) (r : Registry) (dir : String) : Except Error Scan × Registry :=
  if !fs.isDirectory dir then (.ok .empty, r) else Discovery.scan fs r dir

/-- Loads and registers the skills of the catalog. -/
def load (c : Catalog) (fs : FileSystem) (r : Registry) : Except Error Scan × Registry :=
  scanLocalCopy fs r c.dir

end Catalog

end Repertoire
