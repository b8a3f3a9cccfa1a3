import Repertoire.FileSystem.Write

/-!
# The watermark of a local copy

A file in the local copy of a catalog whose time of writing tells when the copy was last in step
with the catalog. A local copy is due again after seven days, or when it has no watermark. A
watermark from the future is fresh.
-/

namespace Repertoire.Watermark

/-- The name of the file. -/
def fileName : String := ".skillhost-open-skills-sync"

/-- The nanoseconds of a second. -/
def second : Int := 1000000000

/-- The age in nanoseconds beyond which a local copy is due. -/
def interval : Int := 7 * 24 * 60 * 60 * second

/-- The path of the watermark of a local copy. -/
def path (dir : String) : String := Path.join dir fileName

/-- The local copy is due to be fetched again. -/
def isDue (fs : FileSystem) (dir : String) : Bool :=
  match fs.modified? (path dir) with
  | none => true
  | some time => interval < fs.now - time

/-- What is written into the watermark at a time: the seconds since 1970, none before. -/
def content (time : Int) : String :=
  "Last sync: " ++ toString (time.fdiv second).toNat ++ "\n"

/-- Writes the watermark of a local copy. -/
def mark (dir : String) : FileSystem.FileM Unit := do
  FileSystem.createDirectories dir
  let fs ← get
  FileSystem.writeFile (path dir) (content fs.now).toUTF8

/-- The directory holds anything but a watermark. -/
def isPopulated (fs : FileSystem) (dir : String) : Bool :=
  match fs.list dir with
  | .ok names => names.any fun name => name ≠ fileName
  | .error _ => false

end Repertoire.Watermark
