import Mathlib
import Repertoire.Manifest.Structured
import Repertoire.Proofs.Manifest.ArgumentKeys
import Repertoire.Proofs.Manifest.Content

/-!
# The same content in two languages

A TOML document and a JSON object with the same content are read as the same manifest: fields that
are left out get the same defaults, tools, prompts, and arguments keep their order, and arguments
have the same texts. This holds for every way of splitting the tools and the prompts in TOML.

The two readers share only how they look up fields. For each of them the lemmas follow the content
from texts over arguments and tools to the whole; both end at the manifest that the content
describes.
-/

namespace Repertoire

open Record

/-! ## Readers -/

variable {V β γ : Type}

/-- A reader gives what was written. -/
def ReadsAs (Writes : β → V → Prop) (read : V → Option γ) (meaning : β → γ) : Prop :=
  ∀ ⦃b v⦄, Writes b v → read v = some (meaning b)

variable {Writes : β → V → Prop} {read : V → Option γ} {meaning : β → γ} {names : List String}
  {name : String} {members : List (String × V)} {b : Option β}

/-- What was written item by item is read item by item. -/
theorem ReadsAs.mapM (h : ReadsAs Writes read meaning) {parts : List β} {vs : List V}
    (hparts : List.Forall₂ Writes parts vs) : vs.mapM read = some (parts.map meaning) := by
  rw [mapM_eq_some_iff, List.forall₂_map_right_iff]
  exact hparts.flip.imp fun _ _ hwrites => h hwrites

/-- Items that are read in the same way. -/
theorem mapM_eq_mapM {α δ : Type} {f : α → Option γ} {g : δ → Option γ} {xs : List α} {ys : List δ}
    (h : List.Forall₂ (fun x y => f x = g y) xs ys) : xs.mapM f = ys.mapM g := by
  induction h with
  | nil => rfl
  | cons hxy _ ih => rw [List.mapM_cons, List.mapM_cons, hxy, ih]

namespace Record

/-- A field is read under a name if none of its other names occurs. -/
theorem get_of_hasField (h : ReadsAs Writes read meaning) (hfield : HasField Writes name members b)
    (hnames : ∀ m ∈ members, names.contains m.1 = decide (m.1 = name)) (missing : γ) :
    Record.get names missing read members = some ((b.map meaning).getD missing) := by
  have hfilter : (members.filter fun m => names.contains m.1) =
      members.filter fun m => m.1 = name := List.filter_congr hnames
  rw [Record.get, field?, hfilter]
  cases b with
  | none =>
    rw [List.map_eq_nil_iff.mp (hasField_none_iff.mp hfield)]
    rfl
  | some b =>
    obtain ⟨v, hone, hwrites⟩ := hasField_some_iff.mp hfield
    obtain ⟨m, hm, rfl⟩ := List.map_eq_singleton_iff.mp hone
    rw [hm]
    exact h hwrites

/-- A field that means what is written has it, or its default. -/
theorem get_self {read : V → Option β} (h : ReadsAs Writes read id)
    (hfield : HasField Writes name members b) (missing : β) :
    Record.get [name] missing read members = some (b.getD missing) := by
  rw [get_of_hasField h hfield (fun m _ => by simp) missing, Option.map_id, id]

/-- A field that is a list has its parts, or none. -/
theorem get_list {α δ : Type} {Writes : List α → V → Prop} {read : V → Option (List δ)}
    {meaning : α → δ} {parts : Option (List α)} (h : ReadsAs Writes read (List.map meaning))
    (hfield : HasField Writes name members parts) :
    Record.get [name] [] read members = some ((parts.getD []).map meaning) := by
  rw [get_of_hasField h hfield (fun m _ => by simp) []]
  cases parts <;> rfl

/-- A field without a default has what is written, if it is given. -/
theorem get_option {read : V → Option (Option β)} (h : ReadsAs Writes read some)
    (hfield : HasField Writes name members b) : Record.get [name] none read members = some b := by
  rw [get_of_hasField h hfield (fun m _ => by simp) none]
  cases b <;> rfl

/-- The kind of a tool is found, though it may go by two names. -/
theorem get_kind {D : Dialect V} {t : ToolContent} {read : V → Option String}
    (h : ReadsAs D.IsText read id) (htool : D.ToolMembers t members) (missing : String) :
    Record.get ["kind", "type"] missing read members = some (t.kind.getD missing) := by
  -- No member has the second name, so looking for both finds what looking for the first does.
  have hnames : ∀ m ∈ members, ["kind", "type"].contains m.1 = decide (m.1 = "kind") := by
    intro m hm
    have hnone : valuesOf "type" members = [] := hasField_none_iff.mp htool.noType
    have htype : m.1 ≠ "type" := fun heq => by
      have hmem : m.2 ∈ valuesOf "type" members :=
        List.mem_map_of_mem (List.mem_filter.mpr ⟨hm, decide_eq_true heq⟩)
      exact absurd hmem (hnone ▸ List.not_mem_nil)
    simp [htype]
  rw [get_of_hasField h htool.kind hnames missing, Option.map_id, id]

end Record

namespace StructuredManifest

open Toml

/-- Texts are read. -/
theorem reads_text : ReadsAs dialect.IsText text? id := by
  rintro s _ rfl
  rfl

/-- Texts that may be left out are read. -/
theorem reads_given : ReadsAs dialect.IsText (fun v => (text? v).map some) some := fun s v hs => by
  simp [reads_text hs]

/-- Arrays of texts are read. -/
theorem reads_texts : ReadsAs (dialect.IsArrayOf dialect.IsText) texts? id := by
  rintro texts _ ⟨items, rfl, hitems⟩
  exact (reads_text.mapM hitems).trans (by rw [List.map_id, id])

/-- An argument has the text of its value. -/
theorem reads_arg : ReadsAs dialect.IsArg
    (fun (key, v) => v.resolved?.map fun v => ⟨key, argText v⟩) Scalar.arg := by
  rintro ⟨_, x⟩ ⟨key, v⟩ ⟨hkey, hv⟩
  change key = _ at hkey
  change v = _ at hv
  rw [hkey, hv]
  cases x with
  | text s => rfl
  | flag b => cases b <;> rfl
  | integer n => rfl

/-- Arguments are read in their order. -/
theorem reads_args : ReadsAs dialect.IsArgs args? (List.map Scalar.arg) := by
  rintro args _ ⟨members, rfl, hmembers⟩
  exact reads_arg.mapM hmembers

/-- A tool is read. -/
theorem reads_tool : ReadsAs dialect.IsTool tool? ToolContent.tool := by
  rintro t _ ⟨members, rfl, h⟩
  simp only [tool?, members?, Option.bind_eq_bind, Option.bind_some, get_self reads_text h.name,
    get_self reads_text h.description, get_kind reads_text h, get_self reads_text h.command,
    get_list reads_args h.args]
  rfl

/-- Tools are read in their order. -/
theorem reads_tools :
    ReadsAs (dialect.IsArrayOf dialect.IsTool) tools? (List.map ToolContent.tool) := by
  rintro tools _ ⟨items, rfl, hitems⟩
  exact reads_tool.mapM hitems

/-- What the table of a skill says about a content. -/
def skillOf (c : ManifestContent) : Skill where
  name := c.name.getD ""
  description := c.description.getD ""
  version := c.version
  author := c.author
  tags := c.tags.getD []
  tools := (c.tools.getD []).map ToolContent.tool
  prompts := c.prompts.getD []

/-- The table of a skill is read. -/
theorem reads_skill : ReadsAs dialect.IsSkill skill? skillOf := by
  rintro c _ ⟨members, rfl, h⟩
  simp only [skill?, members?, Option.bind_eq_bind, Option.bind_some, get_self reads_text h.name,
    get_self reads_text h.description, get_option reads_given h.version,
    get_option reads_given h.author, get_self reads_texts h.tags, get_list reads_tools h.tools,
    get_self reads_texts h.prompts]
  rfl

/-- Both parts of a content that is split make up its manifest. -/
theorem manifest_skillOf {c : ManifestContent} (split : c.Split) :
    manifest (skillOf split.inSkill) ((split.topTools.getD []).map ToolContent.tool)
      (split.topPrompts.getD []) = c.manifest := by
  have hauthor : c.author.filter (fun a => !a.isEmpty) = c.author := by
    cases hc : c.author with
    | none => rfl
    | some a =>
      have hne : a ≠ "" := fun ha => c.author_ne_empty (ha ▸ hc)
      simp [hne]
  have htools : (split.topTools.getD []).map ToolContent.tool ++
      (split.skillTools.getD []).map ToolContent.tool =
        (c.tools.getD []).map ToolContent.tool := by
    rw [← List.map_append, split.tools_eq]
  simp only [manifest, skillOf, ManifestContent.Split.inSkill, hauthor, htools, split.prompts_eq]
  rfl

/-- A content that is split is read as its manifest. -/
theorem ofMembers_of_inToml {c : ManifestContent} {split : c.Split}
    {members : List (String × Value)} (h : split.InToml members) :
    ofMembers members = .ok c.manifest := by
  have hread : ReadsAs dialect.IsSkill (fun v => (skill? v).map some) fun c => some (skillOf c) :=
    fun content v hv => by simp [reads_skill hv]
  have hskill : Record.get ["skill"] none (fun v => (skill? v).map some) members =
      some (some (skillOf split.inSkill)) :=
    get_of_hasField hread h.skill (fun m _ => by simp) none
  simp only [ofMembers, document?, hskill, get_list reads_tools h.tools,
    get_self reads_texts h.prompts, Option.bind_eq_bind, Option.bind_some, Option.pure_def,
    manifest_skillOf]

end StructuredManifest

namespace JsonManifest

open Json

variable {literals : List (List Char × Tree)} {members : List (String × Tree)}

/-- Texts are read. -/
theorem reads_text : ReadsAs dialect.IsText text? id := by
  rintro s _ ⟨literal, hliteral, rfl⟩
  exact hliteral

/-- Texts that may be left out are read. -/
theorem reads_given : ReadsAs dialect.IsText optionalText? some := by
  rintro s _ ⟨literal, hliteral, rfl⟩
  simp [optionalText?, text?, hliteral]

/-- Arrays of texts are read. -/
theorem reads_texts : ReadsAs (dialect.IsArrayOf dialect.IsText) texts? id := by
  rintro texts _ ⟨items, rfl, hitems⟩
  exact (reads_text.mapM hitems).trans (by rw [List.map_id, id])

/-- The members of a record are read with the texts that their literals name. -/
theorem members?_of_isRecord {t : Tree} (h : dialect.IsRecord members t) (names : List String) :
    members? names t = some members := by
  obtain ⟨literals, rfl, hliterals⟩ := h
  refine mapM_eq_some_iff.mpr (hliterals.imp fun l m hm => ?_)
  obtain ⟨hname, hvalue⟩ := hm
  simp [hname, hvalue]

/-- An argument has the text of its value, however many levels there are around it. -/
theorem reads_arg (room : ℕ) : ReadsAs dialect.IsArg
    (fun (key, t) => (t.value? room).map fun v => ⟨key, argText v⟩) Scalar.arg := by
  rintro ⟨_, x⟩ ⟨key, t⟩ ⟨hkey, ht⟩
  change key = _ at hkey
  rw [hkey]
  cases x with
  | text s =>
    obtain ⟨literal, hliteral, rfl⟩ := ht
    simp [Tree.value?, hliteral, argText, Scalar.arg, Scalar.shown]
  | flag b =>
    obtain rfl := ht
    cases b <;> simp [Tree.value?, argText, Value.compact, Scalar.arg, Scalar.shown]
  | integer n =>
    obtain rfl := ht
    simp [Tree.value?, Numeral.value?_ofInt, argText, Value.compact, Number.text, Scalar.arg,
      Scalar.shown]

/-- Arguments are read in their order. -/
theorem reads_args : ReadsAs dialect.IsArgs args? (List.map Scalar.arg) := by
  rintro args _ ⟨members, ⟨literals, rfl, hliterals⟩, hmembers⟩
  rw [← (reads_arg (nestingLimit - levelsAroundArg)).mapM hmembers]
  refine mapM_eq_mapM (hliterals.imp fun l m hm => ?_)
  obtain ⟨hname, hvalue⟩ := hm
  simp only [hname, hvalue]
  cases m.2.value? (nestingLimit - levelsAroundArg) <;> rfl

/-- A tool is read. -/
theorem reads_tool : ReadsAs dialect.IsTool tool? ToolContent.tool := by
  rintro t _ ⟨members, hrecord, h⟩
  simp only [tool?, members?_of_isRecord hrecord, Option.bind_eq_bind, Option.bind_some,
    get_self reads_text h.name, get_self reads_text h.description, get_self reads_text h.kind,
    get_self reads_text h.command, get_list reads_args h.args]
  rfl

/-- Tools are read in their order. -/
theorem reads_tools :
    ReadsAs (dialect.IsArrayOf dialect.IsTool) tools? (List.map ToolContent.tool) := by
  rintro tools _ ⟨items, rfl, hitems⟩
  exact reads_tool.mapM hitems

/-- A content is read as its manifest. -/
theorem reads_skill : ReadsAs dialect.IsSkill ofTree? ManifestContent.manifest := by
  rintro c _ ⟨members, hrecord, h⟩
  simp only [ofTree?, members?_of_isRecord hrecord, Option.bind_eq_bind, Option.bind_some,
    get_self reads_text h.name, get_self reads_text h.description, get_self reads_text h.version,
    get_option reads_given h.author, get_self reads_texts h.tags, get_list reads_tools h.tools,
    get_self reads_texts h.prompts, get_option reads_given h.noLocation]
  rfl

end JsonManifest

/-- Every content can be written in TOML, however it is split, and in JSON, and texts that write it
in either language are read as its manifest. -/
theorem parse_sameContent (c : ManifestContent) (split : c.Split) :
    (∃ members, split.InToml members) ∧ (∃ tree, Json.dialect.IsSkill c tree) ∧
      ∀ toml json members tree, Toml.ofString? toml = some members → split.InToml members →
        Json.Tree.ofString? json = some tree → Json.dialect.IsSkill c tree →
          StructuredManifest.parse toml = .ok c.manifest ∧
            JsonManifest.parse json = .ok c.manifest := by
  refine ⟨split.exists_inToml, Json.dialect.exists_isSkill c, ?_⟩
  intro toml json members tree htoml hmembers hjson htree
  constructor
  · rw [StructuredManifest.parse, htoml]
    exact StructuredManifest.ofMembers_of_inToml hmembers
  · rw [JsonManifest.parse, hjson, Option.bind_some, JsonManifest.reads_skill htree]

/-- A tool with the least integer as an argument. -/
def countUp : ToolContent :=
  ⟨some "up", none, none, none, some [("n", .integer (-9223372036854775808)), ("w", .flag true)]⟩

/-- A tool that has only a name. -/
def countDown : ToolContent := ⟨some "down", none, none, none, none⟩

/-- A content with both tools. -/
def counting : ManifestContent where
  name := some "count"
  description := none
  version := none
  author := none
  tags := none
  tools := some [countUp, countDown]
  prompts := none

/-- The tool with arguments stands at the top level, and the other one in the table of the skill. -/
def countingSplit : counting.Split where
  topTools := some [countUp]
  skillTools := some [countDown]
  topPrompts := none
  skillPrompts := none
  tools_eq := rfl
  prompts_eq := rfl

/-- The content in TOML. -/
def countingToml : String :=
  "[skill]\nname = 'count'\ntools = [\x7bname = 'down'\x7d]\n" ++
    "[[tools]]\nname = 'up'\n[tools.args]\nn = -9223372036854775808\nw = true\n"

/-- The content in JSON. -/
def countingJson : String :=
  "\x7b\"name\":\"count\",\"tools\":[\x7b\"name\":\"up\"," ++
    "\"args\":\x7b\"n\":-9223372036854775808,\"w\":true\x7d\x7d," ++
    "\x7b\"name\":\"down\"\x7d]\x7d"

/-- The first tool in TOML. -/
def upTable : Toml.Value := .table [("name", .string "up"),
  ("args", .table [("n", .integer (-9223372036854775808)), ("w", .bool true)])]

/-- The second tool in TOML. -/
def downTable : Toml.Value := .table [("name", .string "down")]

/-- The members of the TOML document. -/
def countingMembers : List (String × Toml.Value) := [
  ("skill", .table [("name", .string "count"), ("tools", .array [downTable])]),
  ("tools", .array [upTable])]

/-- The arguments of the first tool in JSON. -/
def upArgs : Json.Tree :=
  .ofFields [("n", .number (.ofInt (-9223372036854775808))), ("w", .bool true)]

/-- The tools in JSON. -/
def countingTools : Json.Tree := .array [
  .ofFields [("name", .ofText "up"), ("args", upArgs)], .ofFields [("name", .ofText "down")]]

/-- The TOML document writes the content. -/
theorem inToml_counting : countingSplit.InToml countingMembers := by
  have hup : Toml.dialect.IsTool countUp upTable := by
    refine ⟨_, rfl, ?_⟩
    constructor <;> simp [countUp, Toml.dialect, Dialect.IsArgs, Dialect.IsArg]
  have hdown : Toml.dialect.IsTool countDown downTable := by
    refine ⟨_, rfl, ?_⟩
    constructor <;> simp [countDown, Toml.dialect]
  have htools (t : ToolContent) (v : Toml.Value) (h : Toml.dialect.IsTool t v) :
      Toml.dialect.IsArrayOf Toml.dialect.IsTool [t] (.array [v]) := ⟨_, rfl, .cons h .nil⟩
  have hskill : Toml.dialect.IsSkill countingSplit.inSkill
      (.table [("name", .string "count"), ("tools", .array [downTable])]) := by
    refine ⟨_, rfl, ?_⟩
    constructor <;>
      simp [ManifestContent.Split.inSkill, countingSplit, counting, htools _ _ hdown]
    rfl
  constructor
  · simpa [countingMembers] using hskill
  · simpa [countingMembers, countingSplit] using htools _ _ hup
  · simp [countingMembers, countingSplit]

/-- The JSON object writes the content. -/
theorem isSkill_counting : Json.dialect.IsSkill counting
    (.ofFields [("name", .ofText "count"), ("tools", countingTools)]) := by
  have htext (s : String) : Json.dialect.IsText s (.ofText s) := Json.Tree.isText_ofText s
  have hargs : Json.dialect.IsArgs
      [("n", .integer (-9223372036854775808)), ("w", .flag true)] upArgs :=
    ⟨_, Json.Tree.isRecord_ofFields _, .cons ⟨rfl, rfl⟩ (.cons ⟨rfl, rfl⟩ .nil)⟩
  have hup : Json.dialect.IsTool countUp
      (.ofFields [("name", .ofText "up"), ("args", upArgs)]) := by
    refine ⟨_, Json.Tree.isRecord_ofFields _, ?_⟩
    constructor <;> simp [countUp, htext, hargs]
  have hdown : Json.dialect.IsTool countDown (.ofFields [("name", .ofText "down")]) := by
    refine ⟨_, Json.Tree.isRecord_ofFields _, ?_⟩
    constructor <;> simp [countDown, htext]
  have htools : Json.dialect.IsArrayOf Json.dialect.IsTool [countUp, countDown] countingTools :=
    ⟨_, rfl, .cons hup (.cons hdown .nil)⟩
  refine ⟨_, Json.Tree.isRecord_ofFields _, ?_⟩
  constructor <;> simp [counting, htext, htools]

/-- Both texts are read as one manifest. -/
theorem parse_sameContent_counting :
    StructuredManifest.parse countingToml = .ok counting.manifest ∧
      JsonManifest.parse countingJson = .ok counting.manifest := by
  have htoml : Toml.ofString? countingToml = some countingMembers := by cbv
  have hjson : Json.Tree.ofString? countingJson =
      some (.ofFields [("name", .ofText "count"), ("tools", countingTools)]) := by cbv
  exact (parse_sameContent counting countingSplit).2.2 _ _ _ _ htoml inToml_counting hjson
    isSkill_counting

end Repertoire
