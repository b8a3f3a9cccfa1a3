import Mathlib.Data.List.Forall2
import Mathlib.Tactic.Choose
import Repertoire.Proofs.Json.Integer
import Repertoire.Proofs.Manifest.RoundTrip
import Repertoire.Toml.Document

/-!
# The content of a manifest

What a document says about a skill, apart from the language in which it is written: fields may be
left out, and the value of an argument is a string, a truth value, or an integer of sixty-four bits,
which both TOML and JSON have. A content describes one manifest. An author who is given has a name,
because an empty author is dropped in one of the languages and kept in the other.

What it means to write a content is said once for both languages, over whatever stands for texts,
arrays, records, and scalars in them. Members may stand in any order, and members that no field has
are free. In TOML the tools and the prompts are split between the top level and the table of the
skill. Every content can be written, however it is split.
-/

namespace Repertoire

variable {V β : Type}

/-! ## Contents -/

/-- The value of an argument, as far as both languages have it. -/
inductive Scalar where
  | text (s : String)
  | flag (b : Bool)
  | integer (n : Int64)
deriving DecidableEq

/-- The text of an argument with the value. -/
def Scalar.shown : Scalar → String
  | .text s => s
  | .flag true => "true"
  | .flag false => "false"
  | .integer n => toString n.toInt

/-- The argument of a key with a value. -/
def Scalar.arg (a : String × Scalar) : ToolArg := ⟨a.1, a.2.shown⟩

/-- What a document says about a tool, where it may leave out any field. -/
structure ToolContent where
  name : Option String
  description : Option String
  kind : Option String
  command : Option String
  args : Option (List (String × Scalar))
deriving DecidableEq

/-- What a document says about a skill, where it may leave out any field. -/
structure ManifestContent where
  name : Option String
  description : Option String
  version : Option String
  author : Option String
  tags : Option (List String)
  tools : Option (List ToolContent)
  prompts : Option (List String)
  author_ne_empty : author ≠ some "" := by decide

/-- The tool that a content describes. -/
def ToolContent.tool (t : ToolContent) : Tool where
  name := t.name.getD ""
  description := t.description.getD ""
  kind := t.kind.getD ""
  command := t.command.getD ""
  args := (t.args.getD []).map Scalar.arg

/-- The manifest that a content describes. -/
def ManifestContent.manifest (c : ManifestContent) : Manifest where
  name := c.name.getD ""
  description := c.description.getD ""
  version := c.version.getD "0.1.0"
  author := c.author
  tags := c.tags.getD []
  tools := (c.tools.getD []).map ToolContent.tool
  prompts := c.prompts.getD []
  location := none

/-- A split of the tools and the prompts of a content into those that stand at the top level and
those in the table of the skill. A place without any may be left out. -/
structure ManifestContent.Split (c : ManifestContent) where
  topTools : Option (List ToolContent)
  skillTools : Option (List ToolContent)
  topPrompts : Option (List String)
  skillPrompts : Option (List String)
  tools_eq : topTools.getD [] ++ skillTools.getD [] = c.tools.getD []
  prompts_eq : topPrompts.getD [] ++ skillPrompts.getD [] = c.prompts.getD []

/-- What the table of the skill holds of a content that is split. -/
def ManifestContent.Split.inSkill {c : ManifestContent} (split : c.Split) : ManifestContent :=
  { c with tools := split.skillTools, prompts := split.skillPrompts }

/-! ## Writing a content -/

namespace Record

/-- The values that a record has under a name. -/
def valuesOf (name : String) (members : List (String × V)) : List V :=
  (members.filter fun m => m.1 = name).map Prod.snd

/-- A record has one member under a name for a field that is given, and none for one that is left
out. -/
def HasField (Writes : β → V → Prop) (name : String) (members : List (String × V))
    (b : Option β) : Prop :=
  List.Forall₂ Writes b.toList (valuesOf name members)

section

variable {Writes : β → V → Prop} {name : String} {members : List (String × V)}

@[simp] theorem valuesOf_nil (name : String) : valuesOf name ([] : List (String × V)) = [] := rfl

@[simp] theorem valuesOf_cons (name : String) (m : String × V) (members : List (String × V)) :
    valuesOf name (m :: members) =
      if m.1 = name then m.2 :: valuesOf name members else valuesOf name members := by
  by_cases h : m.1 = name <;> simp [valuesOf, h]

@[simp] theorem valuesOf_append (name : String) (a b : List (String × V)) :
    valuesOf name (a ++ b) = valuesOf name a ++ valuesOf name b := by
  simp [valuesOf]

/-- A field that is left out has no member. -/
@[simp] theorem hasField_none_iff :
    HasField Writes name members none ↔ valuesOf name members = [] :=
  List.forall₂_nil_left_iff

/-- A field that is given has one member. -/
@[simp] theorem hasField_some_iff {b : β} :
    HasField Writes name members (some b) ↔ ∃ v, valuesOf name members = [v] ∧ Writes b v := by
  constructor
  · intro h
    obtain ⟨v, rest, hv, hrest, hvalues⟩ := List.forall₂_cons_left_iff.mp h
    exact ⟨v, List.forall₂_nil_left_iff.mp hrest ▸ hvalues, hv⟩
  · rintro ⟨v, hvalues, hv⟩
    rw [HasField, hvalues]
    exact .cons hv .nil

end

end Record

open Record

/-- How a language writes texts, arrays, records, and scalars. It can write all of them. -/
structure Dialect (V : Type) where
  IsText : String → V → Prop
  IsArray : List V → V → Prop
  IsRecord : List (String × V) → V → Prop
  IsScalar : Scalar → V → Prop
  exists_text : ∀ s, ∃ v, IsText s v
  exists_array : ∀ items, ∃ v, IsArray items v
  exists_record : ∀ members, ∃ v, IsRecord members v
  exists_scalar : ∀ x, ∃ v, IsScalar x v

namespace Dialect

variable (D : Dialect V)

/-- An array with an item for each part. -/
def IsArrayOf (Writes : β → V → Prop) (parts : List β) (v : V) : Prop :=
  ∃ items, D.IsArray items v ∧ List.Forall₂ Writes parts items

/-- A member under the key of an argument. -/
def IsArg (a : String × Scalar) (m : String × V) : Prop := m.1 = a.1 ∧ D.IsScalar a.2 m.2

/-- A record with a member for each argument, in their order. -/
def IsArgs (args : List (String × Scalar)) (v : V) : Prop :=
  ∃ members, D.IsRecord members v ∧ List.Forall₂ D.IsArg args members

/-- Members that write a tool. Its kind stands under the name that it has in both languages, and not
under the other one that it has in TOML. -/
structure ToolMembers (t : ToolContent) (members : List (String × V)) : Prop where
  name : HasField D.IsText "name" members t.name
  description : HasField D.IsText "description" members t.description
  kind : HasField D.IsText "kind" members t.kind
  noType : HasField D.IsText "type" members none
  command : HasField D.IsText "command" members t.command
  args : HasField D.IsArgs "args" members t.args

/-- A record that writes a tool. -/
def IsTool (t : ToolContent) (v : V) : Prop :=
  ∃ members, D.IsRecord members v ∧ D.ToolMembers t members

/-- Members that write a content, with all of its tools and prompts. -/
structure SkillMembers (c : ManifestContent) (members : List (String × V)) : Prop where
  name : HasField D.IsText "name" members c.name
  description : HasField D.IsText "description" members c.description
  version : HasField D.IsText "version" members c.version
  author : HasField D.IsText "author" members c.author
  tags : HasField (D.IsArrayOf D.IsText) "tags" members c.tags
  tools : HasField (D.IsArrayOf D.IsTool) "tools" members c.tools
  prompts : HasField (D.IsArrayOf D.IsText) "prompts" members c.prompts
  noLocation : HasField D.IsText "location" members none

/-- A record that writes a content, with all of its tools and prompts. -/
def IsSkill (c : ManifestContent) (v : V) : Prop :=
  ∃ members, D.IsRecord members v ∧ D.SkillMembers c members

end Dialect

namespace Toml

/-- How TOML writes. -/
def dialect : Dialect Value where
  IsText s v := v = .string s
  IsArray items v := v = .array items
  IsRecord members v := v = .table members
  IsScalar x v := v = match x with
    | .text s => .string s
    | .flag b => .bool b
    | .integer n => .integer n.toInt
  exists_text _ := ⟨_, rfl⟩
  exists_array _ := ⟨_, rfl⟩
  exists_record _ := ⟨_, rfl⟩
  exists_scalar _ := ⟨_, rfl⟩

end Toml

namespace Json

namespace Tree

/-- A literal that names a text. -/
def IsText (s : String) (t : Tree) : Prop :=
  ∃ literal, textOf? literal = some s ∧ t = .string literal

/-- An object with literals that name the keys of members. -/
def IsRecord (members : List (String × Tree)) (t : Tree) : Prop :=
  ∃ literals : List (List Char × Tree), t = .object literals ∧
    List.Forall₂ (fun l m => textOf? l.1 = some m.1 ∧ l.2 = m.2) literals members

/-- Every text has a literal. -/
theorem isText_ofText (s : String) : IsText s (ofText s) := ⟨_, textOf?_encode s, rfl⟩

/-- Members under any keys make up an object. -/
theorem isRecord_ofFields (members : List (String × Tree)) : IsRecord members (ofFields members) :=
  ⟨_, rfl, List.forall₂_map_left_iff.mpr
    (List.forall₂_same.mpr fun m _ => ⟨textOf?_encode m.1, rfl⟩)⟩

end Tree

/-- How JSON writes. A text may have several literals, and an integer has its decimal form. -/
def dialect : Dialect Tree where
  IsText := Tree.IsText
  IsArray items t := t = .array items
  IsRecord := Tree.IsRecord
  IsScalar x t := match x with
    | .text s => Tree.IsText s t
    | .flag b => t = .bool b
    | .integer n => t = .number (.ofInt n.toInt)
  exists_text s := ⟨_, Tree.isText_ofText s⟩
  exists_array _ := ⟨_, rfl⟩
  exists_record members := ⟨_, Tree.isRecord_ofFields members⟩
  exists_scalar x := match x with
    | .text s => ⟨_, Tree.isText_ofText s⟩
    | .flag _ => ⟨_, rfl⟩
    | .integer _ => ⟨_, rfl⟩

end Json

namespace ManifestContent

/-- The members of a TOML document that write a content that is split. -/
structure Split.InToml {c : ManifestContent} (split : c.Split)
    (members : List (String × Toml.Value)) : Prop where
  skill : HasField Toml.dialect.IsSkill "skill" members (some split.inSkill)
  tools : HasField (Toml.dialect.IsArrayOf Toml.dialect.IsTool) "tools" members split.topTools
  prompts : HasField (Toml.dialect.IsArrayOf Toml.dialect.IsText) "prompts" members split.topPrompts

end ManifestContent

/-! ## Every content can be written -/

namespace Record

/-- A member under a name, if there is a value. -/
def optional (name : String) (value : Option V) : List (String × V) := value.toList.map (name, ·)

@[simp] theorem valuesOf_optional (name other : String) (value : Option V) :
    valuesOf name (optional other value) = if other = name then value.toList else [] := by
  cases value <;> by_cases h : other = name <;> simp [valuesOf, optional, h]

end Record

/-- What is written for each of several things. -/
theorem exists_forall₂ {Writes : β → V → Prop} (h : ∀ b, ∃ v, Writes b v) (parts : List β) :
    ∃ vs, List.Forall₂ Writes parts vs := by
  choose write hwrite using h
  exact ⟨parts.map write,
    List.forall₂_map_right_iff.mpr (List.forall₂_same.mpr fun b _ => hwrite b)⟩

/-- What is written for a field, if it is given. -/
theorem exists_option {Writes : β → V → Prop} (h : ∀ b, ∃ v, Writes b v) (b : Option β) :
    ∃ value : Option V, List.Forall₂ Writes b.toList value.toList := by
  cases b with
  | none => exact ⟨none, .nil⟩
  | some b =>
    obtain ⟨v, hv⟩ := h b
    exact ⟨some v, .cons hv .nil⟩

namespace Dialect

variable (D : Dialect V)

/-- Every array can be written if its parts can be. -/
theorem exists_isArrayOf {Writes : β → V → Prop} (h : ∀ b, ∃ v, Writes b v) (parts : List β) :
    ∃ v, D.IsArrayOf Writes parts v := by
  obtain ⟨items, hitems⟩ := exists_forall₂ h parts
  obtain ⟨v, hv⟩ := D.exists_array items
  exact ⟨v, items, hv, hitems⟩

/-- Arguments can be written. -/
theorem exists_isArgs (args : List (String × Scalar)) : ∃ v, D.IsArgs args v := by
  have hmember (a : String × Scalar) : ∃ m, D.IsArg a m := by
    obtain ⟨v, hv⟩ := D.exists_scalar a.2
    exact ⟨(a.1, v), rfl, hv⟩
  obtain ⟨members, hmembers⟩ := exists_forall₂ hmember args
  obtain ⟨v, hv⟩ := D.exists_record members
  exact ⟨v, members, hv, hmembers⟩

/-- A tool can be written. -/
theorem exists_isTool (t : ToolContent) : ∃ v, D.IsTool t v := by
  obtain ⟨name, hname⟩ := exists_option D.exists_text t.name
  obtain ⟨description, hdescription⟩ := exists_option D.exists_text t.description
  obtain ⟨kind, hkind⟩ := exists_option D.exists_text t.kind
  obtain ⟨command, hcommand⟩ := exists_option D.exists_text t.command
  obtain ⟨args, hargs⟩ := exists_option D.exists_isArgs t.args
  obtain ⟨v, hv⟩ := D.exists_record (optional "name" name ++ optional "description" description ++
    optional "kind" kind ++ optional "command" command ++ optional "args" args)
  refine ⟨v, _, hv, ?_⟩
  constructor <;> simp_all [HasField]

/-- A content can be written. -/
theorem exists_isSkill (c : ManifestContent) : ∃ v, D.IsSkill c v := by
  obtain ⟨name, hname⟩ := exists_option D.exists_text c.name
  obtain ⟨description, hdescription⟩ := exists_option D.exists_text c.description
  obtain ⟨version, hversion⟩ := exists_option D.exists_text c.version
  obtain ⟨author, hauthor⟩ := exists_option D.exists_text c.author
  obtain ⟨tags, htags⟩ := exists_option (D.exists_isArrayOf D.exists_text) c.tags
  obtain ⟨tools, htools⟩ := exists_option (D.exists_isArrayOf D.exists_isTool) c.tools
  obtain ⟨prompts, hprompts⟩ := exists_option (D.exists_isArrayOf D.exists_text) c.prompts
  obtain ⟨v, hv⟩ := D.exists_record (optional "name" name ++ optional "description" description ++
    optional "version" version ++ optional "author" author ++ optional "tags" tags ++
    optional "tools" tools ++ optional "prompts" prompts)
  refine ⟨v, _, hv, ?_⟩
  constructor <;> simp_all [HasField]

end Dialect

namespace ManifestContent

/-- A content that is split can be written in TOML. -/
theorem Split.exists_inToml {c : ManifestContent} (split : c.Split) :
    ∃ members, split.InToml members := by
  obtain ⟨skill, hskill⟩ := Toml.dialect.exists_isSkill split.inSkill
  obtain ⟨tools, htools⟩ :=
    exists_option (Toml.dialect.exists_isArrayOf Toml.dialect.exists_isTool) split.topTools
  obtain ⟨prompts, hprompts⟩ :=
    exists_option (Toml.dialect.exists_isArrayOf Toml.dialect.exists_text) split.topPrompts
  refine ⟨optional "skill" (some skill) ++ optional "tools" tools ++ optional "prompts" prompts,
    ?_, ?_, ?_⟩ <;> simpa [HasField]

end ManifestContent

end Repertoire
