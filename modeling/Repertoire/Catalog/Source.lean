import Repertoire.Error
import Repertoire.Text.Blank
import Repertoire.Text.Cut

/-!
# Sources of a catalog

A catalog that is fetched as an archive is named by the owner and the name of a repository, with
or without the address of the host in front. Blanks and slashes at the end do not count, and
neither does a suffix that addresses of repositories often have.
-/

namespace Repertoire

open Repertoire.Text

/-- The repository that a catalog is fetched from. -/
structure CatalogSource where
  owner : String
  repo : String
deriving DecidableEq, Repr

namespace CatalogSource

/-- The suffix that addresses of repositories may have, any number of times. -/
def suffix : List Char := ".git".toList

/-- The addresses of the host that may stand in front. -/
def hosts : List (List Char) :=
  ["https://github.com/".toList, "http://github.com/".toList, "github.com/".toList]

/-- The text without the first of the leads that it starts with. -/
def dropLead (leads : List (List Char)) (cs : List Char) : List Char :=
  (leads.findSome? fun lead => after? lead cs).getD cs

/-- The text between what may stand in front of a source and behind it. -/
def core (cs : List Char) : List Char :=
  dropLead hosts (dropAllCopies suffix (dropTail (· == '/') (trimChars cs)))

/-- The owner and the name in a text with exactly one slash between them. -/
def split? (cs : List Char) : Option CatalogSource :=
  match pieces '/' cs with
  | [owner, repo] =>
    if owner.isEmpty || repo.isEmpty then none
    else some ⟨String.ofList owner, String.ofList repo⟩
  | _ => none

/-- The words for a text that names no source. -/
def invalidText (text : String) : String :=
  "invalid catalog source '" ++ text ++ "': expected 'owner/repo' or a GitHub URL"

/-- The source that a text names. -/
def parse (text : String) : Except Error CatalogSource :=
  match split? (core text.toList) with
  | some source => .ok source
  | none => .error (.invalidArgument (invalidText text))

/-- Owner and name as one text. -/
def text (source : CatalogSource) : String := source.owner ++ "/" ++ source.repo

end CatalogSource

end Repertoire
