import Repertoire.Manifest.Json
import Repertoire.Manifest.Narrative
import Repertoire.Manifest.Structured
import Repertoire.Path

/-!
# The format of a manifest

The extension of a file decides in which format its manifest is written, where it is one of the
two known ones. Otherwise the content decides: a document that holds the table of a skill
somewhere is structured, and any other is a narrative.
-/

namespace Repertoire

namespace ManifestFormat

/-- The format of a document. -/
def detect (source content : String) : ManifestFormat :=
  match Path.extension? source with
  | some "json" => .json
  | some "toml" => .structured
  | _ =>
    if Text.holds StructuredManifest.skillMarker.toList content.toList then .structured
    else .narrative

end ManifestFormat

/-- The manifest that a document from a source holds. A narrative takes its name from the
source. -/
def Manifest.parse (source content : String) : Except Error Manifest :=
  match ManifestFormat.detect source content with
  | .structured => StructuredManifest.parse content
  | .json => JsonManifest.parse content
  | .narrative => NarrativeManifest.parse ((Path.stem? source).getD "") content

end Repertoire
