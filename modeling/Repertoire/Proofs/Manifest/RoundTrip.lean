import Repertoire.Proofs.Json.Reading
import Repertoire.Proofs.Skill.Loading

/-!
# Manifests written and read back

A manifest that is written as JSON and read again is the same manifest, whatever its texts hold: an
author that is absent stays apart from an empty one, an empty version is not replaced by the default
one, and the arguments of a tool keep their order and their repeated keys. A file that holds the
written text is therefore loaded as the manifest, except for its location.

The tree between the text and the manifest is given in closed form. That the writer produces it and
that the reader takes it apart again are separate facts.
-/

namespace Repertoire

open Repertoire.Json

/-- Reading each of several things that can be read gives all of them. -/
theorem mapM_map_eq_some {α β : Type} {f : α → Option β} {g : β → α} (h : ∀ x, f (g x) = some x)
    (xs : List β) : (xs.map g).mapM f = some xs := by
  have hread : f ∘ g = fun x => pure x := funext h
  rw [List.mapM_map, hread, List.mapM_pure, List.map_id']
  rfl

namespace Json.Tree

/-- The tree of a text. -/
def ofText (s : String) : Tree := .string (Quoted.encode s.toList)

/-- The tree of a text that may be absent. -/
def ofOptional : Option String → Tree
  | none => .null
  | some s => ofText s

/-- The tree of named fields. -/
def ofFields (fields : List (String × Tree)) : Tree :=
  .object (fields.map fun (name, t) => (Quoted.encode name.toList, t))

/-- The tree of a tool. -/
def ofTool (t : Tool) : Tree :=
  ofFields [
    ("name", ofText t.name),
    ("description", ofText t.description),
    ("kind", ofText t.kind),
    ("command", ofText t.command),
    ("args", ofFields (t.args.map fun a => (a.key, ofText a.value)))]

/-- The tree of a manifest. -/
def ofManifest (m : Manifest) : Tree :=
  ofFields [
    ("name", ofText m.name),
    ("description", ofText m.description),
    ("version", ofText m.version),
    ("author", ofOptional m.author),
    ("tags", .array (m.tags.map ofText)),
    ("tools", .array (m.tools.map ofTool)),
    ("prompts", .array (m.prompts.map ofText)),
    ("location", ofOptional m.location)]

end Json.Tree

/-! ## Writing -/

namespace Json.Value

open Json.Tree

/-- Items that are made in the same way have the trees that are made in that way. -/
theorem trees?_map {α : Type} {toValue : α → Value} {toTree : α → Tree}
    (h : ∀ x, tree? (toValue x) = some (toTree x)) (xs : List α) :
    trees? (xs.map toValue) = some (xs.map toTree) := by
  induction xs with
  | nil => rfl
  | cons x xs ih => simp only [List.map_cons, trees?, h, ih]

/-- Texts under names have the trees of texts under names. -/
theorem memberTrees?_texts (fields : List (String × String)) :
    memberTrees? (fields.map fun (name, s) => (name, .string s)) =
      some (fields.map fun (name, s) => (Quoted.encode name.toList, ofText s)) := by
  induction fields with
  | nil => rfl
  | cons field fields ih => simp only [List.map_cons, memberTrees?, tree?, ih, ofText]

/-- The tree of a text that may be absent. -/
theorem tree?_optionalJson (s : Option String) :
    tree? (Manifest.optionalJson s) = some (ofOptional s) := by
  cases s <;> rfl

/-- The tree of a tool. -/
theorem tree?_tool (t : Tool) : tree? t.toJson = some (ofTool t) := by
  have hargs : memberTrees? (t.args.map fun a => (a.key, .string a.value)) =
      some (t.args.map fun a => (Quoted.encode a.key.toList, ofText a.value)) := by
    have htexts := memberTrees?_texts (t.args.map fun a => (a.key, a.value))
    simpa only [List.map_map, Function.comp_def] using htexts
  simp only [Tool.toJson, tree?, memberTrees?, hargs, ofTool, ofFields, ofText, Option.map_some,
    List.map_cons, List.map_nil, List.map_map, Function.comp_def]

/-- The tree of a manifest. -/
theorem tree?_manifest (m : Manifest) : tree? m.toJson = some (ofManifest m) := by
  have htexts (ss : List String) : trees? (ss.map .string) = some (ss.map ofText) :=
    trees?_map (fun _ => rfl) ss
  simp only [Manifest.toJson, tree?, memberTrees?, tree?_optionalJson, htexts,
    trees?_map tree?_tool, ofManifest, ofFields, ofText, Option.map_some, List.map_cons,
    List.map_nil]

end Json.Value

/-! ## Reading -/

namespace JsonManifest

open Json.Tree

/-- A text reads back. -/
theorem text?_ofText (s : String) : text? (ofText s) = some s := textOf?_encode s

/-- A text that may be absent reads back. -/
theorem optionalText?_ofOptional (s : Option String) : optionalText? (ofOptional s) = some s := by
  cases s with
  | none => rfl
  | some s =>
    simp only [ofOptional, ofText, optionalText?, text?, textOf?_encode, Option.map_some]

/-- Texts read back. -/
theorem texts?_map_ofText (ss : List String) : texts? (.array (ss.map ofText)) = some ss :=
  mapM_map_eq_some text?_ofText ss

/-- Fields read back under their names. -/
theorem members?_ofFields (names : List String) (fields : List (String × Tree)) :
    members? names (ofFields fields) = some fields := by
  refine mapM_map_eq_some (fun (name, t) => ?_) fields
  simp only [textOf?_encode, Option.map_some]

/-- Arguments read back, in order and with repeated keys. -/
theorem args?_ofFields (args : List ToolArg) :
    args? (ofFields (args.map fun a => (a.key, ofText a.value))) = some args := by
  rw [ofFields, args?, List.map_map]
  refine mapM_map_eq_some (fun a => ?_) args
  simp only [Function.comp_apply, textOf?_encode, ofText, Tree.value?, Option.map_some, argText]

/-- A tool reads back. -/
theorem tool?_ofTool (t : Tool) : tool? (ofTool t) = some t := by
  simp [tool?, ofTool, members?_ofFields, Record.get, Record.field?, text?_ofText,
    args?_ofFields]

/-- A manifest reads back. -/
theorem ofTree?_ofManifest (m : Manifest) : ofTree? (ofManifest m) = some m := by
  have htools : tools? (.array (m.tools.map ofTool)) = some m.tools :=
    mapM_map_eq_some tool?_ofTool m.tools
  simp [ofTree?, ofManifest, members?_ofFields, Record.get, Record.field?, text?_ofText,
    optionalText?_ofOptional, texts?_map_ofText, htools]

/-- The written form of a manifest reads back. -/
theorem parse_written (m : Manifest) : parse m.toJsonText = .ok m := by
  rw [parse, Manifest.toJsonText, Value.ofString?_pretty (Value.tree?_manifest m),
    Option.bind_some, ofTree?_ofManifest]

/-- A file in which a manifest is written is loaded as that manifest. -/
theorem load_written {fs : FileSystem} {path : String} {m : Manifest}
    (hjson : Path.extension? path = some "json") (htext : fs.readText path = .ok m.toJsonText) :
    Skill.load fs path = .ok (.ofManifest fs.now { m with location := some path }) := by
  have hformat : ManifestFormat.detect path m.toJsonText = .json := by
    simp only [ManifestFormat.detect, hjson]
  simp only [Skill.load, Skill.resolve_of_readText htext, Skill.loadFile, htext, Manifest.parse,
    hformat, parse_written]

/-- A file with the bytes of a text reads as that text. -/
theorem readText_toUTF8 {fs : FileSystem} {path s : String} {place : Place} {time : Int}
    (h : fs.lookUp? path = .ok (place, .file s.toUTF8 time)) : fs.readText path = .ok s := by
  have hvalid : s.toUTF8.IsValidUTF8 := s.isValidUTF8
  simp only [FileSystem.readText, FileSystem.readBytes, h, Text.strict?, String.fromUTF8?,
    dif_pos hvalid]
  rfl

/-- A manifest that is written and read again is the same, and a file that holds the written text is
loaded as that manifest with the file as its location. -/
theorem parse_toJsonText (m : Manifest) :
    parse m.toJsonText = .ok m ∧
      ∀ (fs : FileSystem) (path : String), Path.extension? path = some "json" →
        fs.readText path = .ok m.toJsonText →
          Skill.load fs path = .ok (.ofManifest fs.now { m with location := some path }) :=
  ⟨parse_written m, fun _ _ hjson htext => load_written hjson htext⟩

/-- A manifest with an empty author, an empty version, and an argument that is declared twice. -/
def declaredTwice : Manifest where
  name := "twice"
  description := "a \"quoted\" word\nand a line"
  version := ""
  author := some ""
  tags := ["b", "a"]
  tools := [⟨"list", "lists", "shell", "ls", [⟨"depth", "1"⟩, ⟨"depth", "2"⟩]⟩]
  prompts := []
  location := none

/-- That manifest reads back, and so does a file that holds it. -/
theorem parse_toJsonText_declaredTwice :
    ∃ fs : FileSystem, Path.extension? "/twice.json" = some "json" ∧
      fs.readText "/twice.json" = .ok declaredTwice.toJsonText ∧
      parse declaredTwice.toJsonText = .ok declaredTwice ∧
      Skill.load fs "/twice.json" =
        .ok (.ofManifest 7 { declaredTwice with location := some "/twice.json" }) := by
  let fs : FileSystem :=
    ⟨[(["twice.json"], .file declaredTwice.toJsonText.toUTF8 0)], [], 7⟩
  have hjson : Path.extension? "/twice.json" = some "json" := by decide
  have htext : fs.readText "/twice.json" = .ok declaredTwice.toJsonText := readText_toUTF8 rfl
  obtain ⟨hparse, hload⟩ := parse_toJsonText declaredTwice
  exact ⟨fs, hjson, htext, hparse, hload fs "/twice.json" hjson htext⟩

end JsonManifest

end Repertoire
