import Repertoire.Proofs.Settings.Format
import Repertoire.Proofs.Toml.Draft
import Repertoire.Settings.Format

/-!
# Configuration files with a gap

The format of a file decides how a document is read, and from there on both formats are treated
alike: a document with a gap is read as a document whose strings have gaps, and the settings in it
have the gap in one text at most. What words fit depends on the place of the gap, since TOML has
strings of several forms, and comments.
-/

namespace Repertoire

open Text

/-! ## Documents -/

/-- The formats in which strings are between marks. -/
inductive DocumentFormat where
  | toml
  | json

/-- The format of the file at a path. -/
def DocumentFormat.ofPath? (path : String) : Option DocumentFormat :=
  match (Path.extension? path).getD "toml" with
  | "toml" => some .toml
  | "json" => some .json
  | _ => none

/-- The places in a document of a format that may hold a gap. JSON has strings of one form and no
comments. -/
inductive DocumentFormat.Place : DocumentFormat → Type where
  | toml (place : Toml.Literal.Spot) : Place .toml
  | json : Place .json

/-- A word fits a gap in a place if it means itself there. -/
def DocumentFormat.Place.Fits {format : DocumentFormat} : format.Place → List Char → Prop
  | .toml place => place.Fits
  | .json => Json.Quoted.Fits

/-- A character that stands for itself in every string of a document of the format. -/
def DocumentFormat.IsPlain : DocumentFormat → Char → Prop
  | .toml => Toml.Literal.IsPlain
  | .json => Json.Quoted.IsPlain

/-- A document as it is written. -/
inductive Document where
  | toml (statements : List (Toml.Statement Toml.Value))
  | json (tree : Json.Tree)

namespace Document

/-- The document that a text writes. -/
def read? : DocumentFormat → List Char → Option Document
  | .toml, cs => (Toml.statements? cs).map .toml
  | .json, cs => (Json.Tree.ofChars? cs).map .json

/-- The keys in a document: those of TOML by what they name, and those of JSON as they are
written. -/
def keys : Document → List (List Char)
  | toml statements => (statements.flatMap Toml.Statement.keys).map String.toList
  | json tree => tree.names

/-- The settings that a document holds. -/
def settings : Document → Except SettingsError Settings
  | toml statements => orError .malformedToml
      ((Toml.Entries.ofStatements? statements).bind fun entries =>
        Shape.toml.settingsOf? (Toml.Node.members entries))
  | json tree => orError .malformedJson
      ((Shape.json.members? Shape.sectionNames tree).bind Shape.json.settingsOf?)

end Document

/-- A file with a document in it holds the settings of the document. -/
theorem Settings.parse_eq_settings {format : DocumentFormat} {path : String} {cs : List Char}
    {doc : Document} (hformat : DocumentFormat.ofPath? path = some format)
    (h : Document.read? format cs = some doc) :
    Settings.parse path (String.ofList cs) = doc.settings := by
  unfold DocumentFormat.ofPath? at hformat
  unfold Settings.parse
  split at hformat
  · rename_i htoml
    obtain rfl := Option.some.inj hformat
    obtain ⟨statements, hstatements, rfl⟩ := Option.map_eq_some_iff.mp h
    rw [htoml]
    have hread := Toml.readDocument_eq cs
    rw [hstatements, Option.bind_some] at hread
    change orError SettingsError.malformedToml (Settings.ofToml? (String.ofList cs)) = _
    rw [Settings.ofToml?, Toml.ofString?, String.toList_ofList, hread, Option.bind_map]
    rfl
  · rename_i hjson
    obtain rfl := Option.some.inj hformat
    obtain ⟨tree, htree, rfl⟩ := Option.map_eq_some_iff.mp h
    rw [hjson]
    change orError SettingsError.malformedJson (Settings.ofJson? (String.ofList cs)) = _
    rw [Settings.ofJson?, Json.Tree.ofString?, String.toList_ofList, htree]
    rfl
  · simp at hformat

/-- A document with gaps. -/
inductive DocumentDraft where
  | toml (statements : List (Toml.Statement Toml.Value.Draft))
  | json (tree : Outline Json.Tree (List Char))

namespace DocumentDraft

/-- The document with a word in its gaps. -/
def fill (w : List Char) : DocumentDraft → Document
  | toml statements => .toml (statements.map (Toml.Statement.map (Toml.Value.Draft.fill w)))
  | json tree => .json (tree.fill Json.Tree.form w)

/-- The number of gaps in a document. -/
def gaps : DocumentDraft → ℕ
  | toml statements => (statements.map (Toml.Statement.size Outline.gaps)).sum
  | json tree => tree.gaps

end DocumentDraft

section

variable {word : List Char} {d : Draft} {doc : Document}

/-- What is no error was there before errors came in. -/
theorem orError_eq_ok {α ε : Type} {e : ε} {x : Option α} {a : α} (h : orError e x = .ok a) :
    x = some a := by
  cases x with
  | none => simp [orError] at h
  | some b => exact congrArg some (Except.ok.inj h)

/-- A TOML document with a gap holds settings with a gap. -/
theorem DocumentDraft.settings_toml (statements : List (Toml.Statement Toml.Value.Draft))
    {raw : List Char} (hraw : '$' ∈ raw) {s : Settings}
    (h : ((toml statements).fill raw).settings = .ok s) :
    ∃ draft : SettingsDraft, draft.gaps ≤ (toml statements).gaps ∧ draft.fill raw = s ∧
      ∀ w, ((toml statements).fill w).settings = .ok (draft.fill w) := by
  have hentries : ∀ w, ((toml statements).fill w).settings = orError .malformedToml
      ((Toml.Entries.ofStatements? statements).bind fun entries => Shape.toml.settingsOf?
        (fillEach Toml.Value.form w (Toml.Entries.outlines entries))) := fun w => by
    have hmembers : ∀ entries : Toml.Entries Toml.Value.Draft,
        fillEach Toml.Value.form w (Toml.Entries.outlines entries) =
          Toml.Node.members (Toml.Entries.map (Toml.Value.Draft.fill w) entries) := fun entries => by
      rw [fillEach_eq_fillMembers, Toml.Entries.fill_outlines]
    simp only [fill, Document.settings, Toml.Entries.ofStatements?_map, Option.bind_map, hmembers,
      Function.comp_def]
  obtain ⟨entries, hof, hsettings⟩ :=
    Option.bind_eq_some_iff.mp (orError_eq_ok ((hentries raw).symm.trans h))
  obtain ⟨draft, hgaps, hfill, hread⟩ :=
    (Shape.follows_toml (fun _ => True) raw).settings hraw hsettings
  refine ⟨draft, hgaps.trans ?_, hfill, fun w => ?_⟩
  · rw [gapsEach_eq_membersGaps, Toml.Entries.gaps_outlines]
    exact Toml.Entries.size_ofStatements? hof
  · rw [hentries, hof, Option.bind_some, hread w trivial]
    rfl

/-- A JSON document with a gap holds settings with a gap. -/
theorem DocumentDraft.settings_json (tree : Outline Json.Tree (List Char))
    (hword : ∀ c ∈ '$' :: word, Json.Quoted.IsPlain c) {s : Settings}
    (h : ((json tree).fill ('$' :: word)).settings = .ok s) :
    ∃ draft : SettingsDraft, draft.gaps ≤ (json tree).gaps ∧ draft.fill ('$' :: word) = s ∧
      ∀ w, (∀ c ∈ w, Json.Quoted.IsPlain c) →
        ((json tree).fill w).settings = .ok (draft.fill w) := by
  have hfollows := Shape.follows_json hword
  obtain ⟨ms, hms, hsettings⟩ := Option.bind_eq_some_iff.mp (orError_eq_ok h)
  obtain ⟨os, hos, rfl, hmembers⟩ := hfollows.members _ tree ms hms
  obtain ⟨draft, hgaps, hfill, hread⟩ := hfollows.settings List.mem_cons_self hsettings
  refine ⟨draft, hgaps.trans hos, hfill, fun w hw => ?_⟩
  simp only [fill, Document.settings, hmembers w hw, Option.bind_some, hread w hw]
  rfl

/-- A document whose only word is in one of its strings is read, with a fitting word in its place,
as the same document with that word in that string, and if it holds settings, it holds the same
settings with that word in that text. -/
theorem Document.read?_draft {format : DocumentFormat}
    (hword : ∀ c ∈ '$' :: word, format.IsPlain c)
    (h : Document.read? format (d.fill ('$' :: word)) = some doc)
    (hkeys : Unnamed word doc.keys) :
    ∃ (place : format.Place) (o : DocumentDraft), o.gaps ≤ d.gaps ∧ o.fill ('$' :: word) = doc ∧
      (∀ w, place.Fits w → Document.read? format (d.fill w) = some (o.fill w)) ∧
      ∀ s, doc.settings = .ok s → ∃ draft : SettingsDraft, draft.gaps ≤ d.gaps ∧
        draft.fill ('$' :: word) = s ∧
        ∀ w, place.Fits w → (o.fill w).settings = .ok (draft.fill w) := by
  cases format with
  | toml =>
    obtain ⟨statements, hstatements, rfl⟩ := Option.map_eq_some_iff.mp h
    have hkeyless : Toml.Keyless word (statements.flatMap Toml.Statement.keys) := hkeys
    obtain ⟨places, os, hlen, hgaps, rfl, hread⟩ := Toml.statements?_draft hword hstatements
      fun s hs => hkeyless.mono fun name hname => List.mem_flatMap_of_mem hs hname
    obtain ⟨place, hplace⟩ := Toml.Literal.exists_place (hlen.trans d.gaps_le_one)
    refine ⟨.toml place, .toml os, hgaps.trans hlen, rfl, fun w hw => ?_, fun s hs => ?_⟩
    · exact congrArg (Option.map Document.toml) (hread w (hplace w hw))
    · obtain ⟨draft, hdraft, hfill, hsettings⟩ :=
        DocumentDraft.settings_toml os List.mem_cons_self hs
      exact ⟨draft, hdraft.trans (hgaps.trans hlen), hfill, fun w _ => hsettings w⟩
  | json =>
    obtain ⟨tree, htree, rfl⟩ := Option.map_eq_some_iff.mp h
    obtain ⟨o, hgaps, rfl, hread⟩ := Json.Tree.ofChars?_draft hword htree hkeys
    refine ⟨.json, .json o, hgaps, rfl, fun w hw => ?_, fun s hs => ?_⟩
    · exact congrArg (Option.map Document.json) (hread w hw)
    · obtain ⟨draft, hdraft, hfill, hsettings⟩ := DocumentDraft.settings_json o hword hs
      exact ⟨draft, hdraft.trans hgaps, hfill, hsettings⟩

end

end Repertoire
