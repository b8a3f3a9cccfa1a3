import Repertoire.Error
import Repertoire.Manifest.Basic
import Repertoire.Record
import Repertoire.Text.Cut
import Repertoire.Yaml.Record

/-!
# Manifests in prose

A narrative manifest is a text document that may start with front matter between two fences of
three dashes. The front matter declares the fields of the manifest; without a description there,
the first line of the body that is no heading describes the skill. The name comes from outside.

The reader of the front matter is a parameter, so that what is said about documents does not
depend on the language the front matter is written in.
-/

namespace Repertoire

open Repertoire.Text

/-- The fields that front matter can declare. -/
structure FrontMatter where
  description : Option String
  version : Option String
  author : Option String
  tags : List String
deriving DecidableEq, Repr

namespace FrontMatter

/-- Front matter that declares nothing. -/
def empty : FrontMatter := ⟨none, none, none, []⟩

/-- The front matter that a YAML text writes. -/
def ofYaml? (text : String) : Option FrontMatter := do
  let d ← Yaml.Document.ofChars? text.toList
  let ms ← d.rootMembers?
  let description ← Record.get ["description"] none d.optionalText? ms
  let version ← Record.get ["version"] none d.optionalText? ms
  let author ← Record.get ["author"] none d.optionalText? ms
  let tags ← Record.get ["tags"] [] d.texts? ms
  return ⟨description, version, author, tags⟩

end FrontMatter

namespace NarrativeManifest

/-- The three dashes of a fence. -/
def fence : List Char := ['-', '-', '-']

/-- What ends front matter: a line end with a fence behind it. -/
def closing : List Char := '\x0a' :: fence

/-- A document taken apart: without front matter, with front matter and body, or with front
matter that nothing closes. -/
inductive Parts where
  | bodyOnly
  | fenced (front body : List Char)
  | unclosed
deriving DecidableEq, Repr

/-- Takes a document apart. Blanks in front of the opening fence do not count, and the fence must
end its line. -/
def split (content : List Char) : Parts :=
  match after? fence (trimFront content) with
  | none => .bodyOnly
  | some rest =>
    match rest with
    | '\x0a' :: _ | '\x0d' :: _ =>
      match cutAt? closing rest with
      | some (front, body) => .fenced front body
      | none => .unclosed
    | _ => .bodyOnly

/-- The line is part of the prose: neither empty nor a heading. -/
def isProse (line : List Char) : Bool :=
  !line.isEmpty && line.head? != some '#'

/-- The first line of prose, without blanks at its ends. -/
def firstProse? (body : List Char) : Option (List Char) :=
  ((lines body).map trimChars).find? isProse

/-- The manifest that front matter and a body describe. -/
def manifest (name : String) (front : FrontMatter) (body : List Char) : Manifest where
  name := name
  description :=
    ((front.description.filter fun d => ¬ AllBlank d).orElse fun _ =>
      (firstProse? body).map String.ofList).getD ""
  version := front.version.getD defaultVersion
  author := front.author.filter fun a => !a.isEmpty
  tags := front.tags
  tools := []
  prompts := []
  location := none

/-- The manifest that a document describes, with front matter read by `engine`. Blank front
matter declares nothing and is not read. -/
def parseWith (engine : String → Option FrontMatter) (name content : String) :
    Except Error Manifest :=
  match split content.toList with
  | .bodyOnly => .ok (manifest name FrontMatter.empty content.toList)
  | .unclosed => .error (.malformed .narrative "missing closing --- for frontmatter")
  | .fenced front body =>
    if AllBlank (String.ofList front) then .ok (manifest name FrontMatter.empty body)
    else
      match engine (String.ofList front) with
      | some f => .ok (manifest name f body)
      | none => .error (.malformed .narrative "invalid frontmatter: the fields are malformed")

/-- The manifest that a document describes. -/
def parse (name content : String) : Except Error Manifest :=
  parseWith FrontMatter.ofYaml? name content

end NarrativeManifest

end Repertoire
