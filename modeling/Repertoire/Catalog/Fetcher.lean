import Repertoire.Catalog.Watermark

/-!
# Fetchers

What brings a catalog into a directory. A fetcher can fill a directory from an address, bring one
up to date that it filled before, and tell whether a directory is one that it can bring up to
date. Each of the first two returns its outcome with the file system afterwards.
-/

namespace Repertoire

/-- An outcome with the file system afterwards. -/
abbrev Fetched := Except Error Unit × FileSystem

/-- What brings a catalog from an address into a directory. -/
structure Fetcher where
  clone : String → String → FileSystem → Fetched
  pull : String → String → FileSystem → Fetched
  isCheckout : FileSystem → String → Bool

/-- The outcome of an operation on files as one of a fetch. -/
def Fetched.ofFiles {α : Type} (run : Except FileFault α × FileSystem) :
    Except Error α × FileSystem :=
  match run with
  | (.ok a, fs) => (.ok a, fs)
  | (.error fault, fs) => (.error (.io fault), fs)

end Repertoire
