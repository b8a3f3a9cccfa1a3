import Mathlib.Data.List.Permutation
import Repertoire.Proofs.Manifest.RoundTrip
import Repertoire.Proofs.Settings.Document
import Repertoire.Proofs.Settings.Placeholder
import Repertoire.Settings.Location

/-!
# Values of variables in configuration files

Placeholders are replaced in the text of a file before the file is read. So a value stays inside the
string in which its placeholder stands only if its characters stand for themselves there: the file
then holds the settings that it holds with the placeholder, with the value in the place of the
placeholder in one text. Any other value is read as part of the file. A quotation mark ends the
string, and what follows it may break the file or set other fields.

How a document with a gap is read is known before; here the gap is where the placeholder stands.
-/

namespace Repertoire

open Text

namespace Placeholder

/-- A placeholder as it is written, behind its dollar sign. -/
def behindDollar (name : List Char) : List Char := '\x7b' :: (name ++ closing)

/-- The only placeholder of a text has this name and no fallback, and it stands between `front` and
`back`. -/
structure IsOnly (text front name back : List Char) : Prop where
  opened : cutAt? opening text = some (front, name ++ closing ++ back)
  closed : cutAt? closing (name ++ closing ++ back) = some (name, back)
  named : name ≠ []
  bare : cutAt? fallbackMark name = none
  last : ∀ before rest, cutAt? opening back = some (before, rest) → cutAt? closing rest = none

variable {text front name back : List Char}

/-- The text is a draft with the placeholder in its gap. -/
theorem IsOnly.text_eq (h : IsOnly text front name back) :
    (Draft.gapped front back).fill ('$' :: behindDollar name) = text := by
  rw [eq_of_cutAt? h.opened]
  simp [behindDollar, opening]

/-- The only placeholder makes way for the value of its variable. -/
theorem IsOnly.replace_eq (h : IsOnly text front name back) {lookup : String → Option String}
    {value : String} (hvalue : lookup (String.ofList name) = some value) :
    replaceChars lookup text = (Draft.gapped front back).fill value.toList := by
  have hpart : replacement lookup name = value.toList := by
    simp [replacement, cutFallback, h.bare, h.named, hvalue]
  cases hlength : text.length with
  | zero =>
    have hnil := h.opened
    rw [List.eq_nil_of_length_eq_zero hlength] at hnil
    exact absurd hnil (by simp [cutAt?, opening])
  | succ n =>
    rw [replaceChars, hlength, replaceUpTo, h.opened]
    simp only [h.closed, hpart, replaceUpTo_of_none h.last]
    rfl

end Placeholder

namespace Settings

open Placeholder

/-- A file with one placeholder is read as the text with the value of the variable in its place.
If it is a document in which the placeholder is in no key, there is a place for the gap, so that
with every value that fits the place the file is the same document with the value in one of its
texts. If the document holds settings, then with the value it holds the same settings, except that
one text at most has the value where it had the placeholder. -/
theorem load_substituted {fs : FileSystem} {path : String} {text front name back : List Char}
    {format : DocumentFormat} {doc : Document} (htext : fs.readText path = .ok (String.ofList text))
    (hformat : DocumentFormat.ofPath? path = some format) (honly : IsOnly text front name back)
    (hplain : ∀ c ∈ '$' :: behindDollar name, format.IsPlain c)
    (hdoc : Document.read? format text = some doc) (hkeys : Unnamed (behindDollar name) doc.keys) :
    (∀ (env : Environment) (value : String), env.get? (String.ofList name) = some value →
      load fs env path = parse path (String.ofList (front ++ value.toList ++ back))) ∧
    ∃ (place : format.Place) (o : DocumentDraft), o.gaps ≤ 1 ∧
      o.fill ('$' :: behindDollar name) = doc ∧
      (∀ (env : Environment) (value : String), env.get? (String.ofList name) = some value →
        place.Fits value.toList → load fs env path = (o.fill value.toList).settings) ∧
      ∀ s, doc.settings = .ok s → ∃ draft : SettingsDraft, draft.gaps ≤ 1 ∧
        draft.fill ('$' :: behindDollar name) = s ∧
        ∀ (env : Environment) (value : String), env.get? (String.ofList name) = some value →
          place.Fits value.toList → load fs env path = .ok (draft.fill value.toList) := by
  have hload : ∀ (env : Environment) (value : String),
      env.get? (String.ofList name) = some value →
        load fs env path = parse path (String.ofList (front ++ value.toList ++ back)) := by
    intro env value hvalue
    simp only [load, htext, ofFileText, Placeholder.replace, String.toList_ofList]
    rw [honly.replace_eq hvalue]
    rfl
  rw [← honly.text_eq] at hdoc
  obtain ⟨place, o, hgaps, hfill, hread, hsettings⟩ := Document.read?_draft hplain hdoc hkeys
  have hfits : ∀ (env : Environment) (value : String),
      env.get? (String.ofList name) = some value → place.Fits value.toList →
        load fs env path = (o.fill value.toList).settings := fun env value hvalue hfit =>
    (hload env value hvalue).trans (parse_eq_settings hformat (hread _ hfit))
  refine ⟨hload, place, o, hgaps, hfill, hfits, fun s hs => ?_⟩
  obtain ⟨draft, hdraft, hraw, hsame⟩ := hsettings s hs
  exact ⟨draft, hdraft, hraw, fun env value hvalue hfit =>
    (hfits env value hvalue hfit).trans (hsame _ hfit)⟩

/-- What stands before the placeholder in a file that sets the working directory. -/
def workingDirFront : List Char := "\x7b\"exec\":\x7b\"working_dir\":\"".toList

/-- What stands behind the placeholder in that file. -/
def workingDirBack : List Char := "\"\x7d\x7d".toList

/-- The text of that file. -/
def workingDirText : List Char :=
  (Draft.gapped workingDirFront workingDirBack).fill ('$' :: behindDollar ['D'])

/-- The file with the text. -/
def workingDirFile : FileSystem :=
  ⟨[(["c.json"], .file (String.ofList workingDirText).toUTF8 0)], [], 0⟩

/-- The document in the file. -/
def workingDirDocument : Document :=
  .json (.object [("exec".toList, .object [("working_dir".toList,
    .string ('$' :: behindDollar ['D']))])])

/-- The settings in the file with a text for the working directory. -/
def workingIn (dir : String) : Settings :=
  { default with exec := { defaultExec with workingDir := some dir } }

/-- A variable with a value. -/
def variableD (value : String) : Environment := ⟨[("D", value)], none⟩

/-- A value that ends the string and goes on as the file does. -/
def catalogValue : String := "/x\"\x7d,\"catalog\":\x7b\"enabled\":true,\"dir\":\"/y"

/-- Values of plain characters stay inside the string of that file. A quotation mark breaks the file,
and a value that goes on behind the mark as the file does sets fields of another section. -/
theorem load_substituted_workingDir :
    IsOnly workingDirText workingDirFront ['D'] workingDirBack ∧
    (∃ draft : SettingsDraft, draft.gaps ≤ 1 ∧
      draft.fill ('$' :: behindDollar ['D']) = workingIn "$\x7bD\x7d" ∧
      ∀ value : String, (∀ c ∈ value.toList, Json.Quoted.IsPlain c) →
        load workingDirFile (variableD value) "/c.json" = .ok (draft.fill value.toList)) ∧
    load workingDirFile (variableD "\"") "/c.json" = .error .malformedJson ∧
    load workingDirFile (variableD catalogValue) "/c.json" =
      .ok { workingIn "/x" with catalog := ⟨true, defaultCatalog.repoUrl, some "/y", .git⟩ } := by
  have htext : workingDirFile.readText "/c.json" = .ok (String.ofList workingDirText) :=
    JsonManifest.readText_toUTF8 rfl
  have hformat : DocumentFormat.ofPath? "/c.json" = some .json := by
    have hextension : Path.extension? "/c.json" = some "json" := by decide
    rw [DocumentFormat.ofPath?, hextension]
    rfl
  have honly : IsOnly workingDirText workingDirFront ['D'] workingDirBack := by
    refine ⟨by decide, by decide, by decide, by decide, fun before rest hcut => ?_⟩
    have hnone : cutAt? opening workingDirBack = none := by decide
    exact absurd (hnone.symm.trans hcut) (Option.some_ne_none _).symm
  have hplain : ∀ c ∈ '$' :: behindDollar ['D'], DocumentFormat.json.IsPlain c := by
    have hall : ('$' :: behindDollar ['D']).all (fun c => decide (Json.Quoted.IsPlain c)) = true := by
      decide
    intro c hc
    have hplain : Json.Quoted.IsPlain c := of_decide_eq_true (List.all_eq_true.mp hall c hc)
    exact hplain
  have hdoc : Document.read? .json workingDirText = some workingDirDocument := by cbv
  have hkeys : Unnamed (behindDollar ['D']) workingDirDocument.keys := by
    have hnames : workingDirDocument.keys = ["exec".toList, "working_dir".toList] := rfl
    have hnone : ∀ name ∈ ["exec".toList, "working_dir".toList], '$' ∉ name := by simp
    exact fun name hname hword => hnone name (hnames ▸ hname) (hword.subset List.mem_cons_self)
  have hsettings : workingDirDocument.settings = .ok (workingIn "$\x7bD\x7d") := by cbv
  have hvalue : ∀ value, (variableD value).get? (String.ofList ['D']) = some value := fun _ => rfl
  obtain ⟨hload, place, o, -, -, -, hsame⟩ :=
    load_substituted htext hformat honly hplain hdoc hkeys
  obtain ⟨draft, hgaps, hraw, hdraft⟩ := hsame _ hsettings
  refine ⟨honly, ⟨draft, hgaps, hraw, fun value hfit => ?_⟩, ?_, ?_⟩
  · cases place
    exact hdraft _ _ (hvalue value) hfit
  · rw [hload _ _ (hvalue _)]
    cbv
  · rw [hload _ _ (hvalue _)]
    cbv

end Settings

end Repertoire
