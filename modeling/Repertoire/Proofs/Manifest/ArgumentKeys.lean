import Mathlib.Data.List.Forall2
import Repertoire.Proofs.Toml.Distinct

/-!
# The keys of declared arguments

A tool declares its arguments in an order, and nothing keeps it from declaring a key twice. A tool
that was read from TOML declares every key once, because its arguments are the members of a table.
-/

namespace Repertoire

/-- The keys that a tool declares. -/
def Tool.argKeys (t : Tool) : List String := t.args.map ToolArg.key

/-- A key has no default exactly when it is not declared. -/
theorem Tool.arg?_eq_none_iff (t : Tool) (key : String) : t.arg? key = none ↔ key ∉ t.argKeys := by
  rw [Tool.arg?, Option.map_eq_none_iff, List.find?_eq_none]
  simp [Tool.argKeys]

/-- A list is read item by item. -/
theorem mapM_eq_some_iff {α β : Type} {f : α → Option β} {xs : List α} {ys : List β} :
    xs.mapM f = some ys ↔ List.Forall₂ (fun x y => f x = some y) xs ys := by
  induction xs generalizing ys with
  | nil => simp [eq_comm]
  | cons x xs ih =>
    simp only [List.mapM_cons, Option.bind_eq_bind, Option.pure_def, Option.bind_eq_some_iff,
      Option.some.injEq, List.forall₂_cons_left_iff, ih]
    constructor
    · rintro ⟨y, hy, ys', hys, rfl⟩
      exact ⟨y, ys', hy, hys, rfl⟩
    · rintro ⟨y, ys', hy, hys, rfl⟩
      exact ⟨y, hy, ys', hys, rfl⟩

/-- Every item of a related list is related to an item. -/
theorem exists_of_mem_forall₂ {α β : Type} {R : α → β → Prop} {xs : List α} {ys : List β}
    (h : List.Forall₂ R xs ys) {y : β} (hy : y ∈ ys) : ∃ x ∈ xs, R x y := by
  induction h with
  | nil => exact absurd hy List.not_mem_nil
  | @cons x y' xs ys hxy _ ih =>
    rcases List.mem_cons.mp hy with rfl | hy
    · exact ⟨x, List.mem_cons_self, hxy⟩
    · obtain ⟨x', hx', hxy'⟩ := ih hy
      exact ⟨x', List.mem_cons_of_mem _ hx', hxy'⟩

/-- A field that is read has its default or comes from a member. -/
theorem Record.of_get {α β : Type} {names : List String} {default b : β} {read : α → Option β}
    {members : List (String × α)} (h : Record.get names default read members = some b) :
    b = default ∨ ∃ m ∈ members, read m.2 = some b := by
  rw [Record.get, Record.field?] at h
  split at h
  · simp at h
  · exact .inl (Option.some.inj h).symm
  · rename_i value hfield
    split at hfield
    · simp at hfield
    · rename_i name value' hfilter
      obtain rfl := Option.some.inj (Option.some.inj hfield)
      have hmem : (name, value') ∈ members := List.mem_of_mem_filter (hfilter ▸ List.mem_cons_self)
      exact .inr ⟨_, hmem, h⟩
    · simp at hfield

namespace StructuredManifest

open Repertoire.Toml

variable {v : Value} {members : List (String × Value)}

/-- The members of a record with distinct keys have distinct keys in their values. -/
theorem distinct_members? {names : List String} (h : members? names v = some members)
    (hv : v.Distinct) : ∀ m ∈ members, m.2.Distinct := by
  cases hv with
  | table hkeys hvalues =>
    obtain rfl := Option.some.inj h
    exact hvalues
  | array hitems =>
    obtain rfl := Option.some.inj h
    exact fun m hm => hitems m.2 (List.of_mem_zip hm).2
  | dateTime d =>
    obtain rfl := Option.some.inj h
    exact List.forall_mem_singleton.mpr (.string _)
  | string | integer | float | bool => simp [members?] at h

/-- The arguments that are read from a table with distinct keys have distinct keys. -/
theorem nodup_args? {args : List ToolArg} (h : args? v = some args) (hv : v.Distinct) :
    (args.map ToolArg.key).Nodup := by
  cases hv with
  | @table members hkeys =>
    have hkey : List.Forall₂ (fun m a => m.1 = ToolArg.key a) members args :=
      (mapM_eq_some_iff.mp h).imp fun m a ha => by
        obtain ⟨v', -, rfl⟩ := Option.map_eq_some_iff.mp ha
        rfl
    rw [← List.forall₂_map_right_iff, ← List.forall₂_map_left_iff, List.forall₂_eq_eq_eq] at hkey
    exact hkey ▸ hkeys
  | dateTime d =>
    obtain rfl := Option.some.inj h
    exact List.nodup_singleton _
  | string | integer | float | bool | array => simp [args?] at h

/-- A tool that is read from a value with distinct keys declares every key once. -/
theorem nodup_tool? {t : Tool} (h : tool? v = some t) (hv : v.Distinct) : t.argKeys.Nodup := by
  simp only [tool?, Option.bind_eq_bind, Option.bind_eq_some_iff] at h
  obtain ⟨members, hmembers, name, -, description, -, kind, -, command, -, args, hargs, ht⟩ := h
  obtain rfl := Option.some.inj ht
  rcases Record.of_get hargs with rfl | ⟨m, hm, hread⟩
  · exact List.nodup_nil
  · exact nodup_args? hread (distinct_members? hmembers hv m hm)

/-- Tools that are read from a value with distinct keys declare every key once. -/
theorem nodup_tools? {tools : List Tool} (h : tools? v = some tools) (hv : v.Distinct) :
    ∀ t ∈ tools, t.argKeys.Nodup := by
  cases hv with
  | array hitems =>
    intro t ht
    obtain ⟨item, hitem, hread⟩ := exists_of_mem_forall₂ (mapM_eq_some_iff.mp h) ht
    exact nodup_tool? hread (hitems item hitem)
  | string | integer | float | bool | dateTime | table => simp [tools?] at h

/-- The tools of the table of a skill declare every key once. -/
theorem nodup_skill? {s : Skill} (h : skill? v = some s) (hv : v.Distinct) :
    ∀ t ∈ s.tools, t.argKeys.Nodup := by
  simp only [skill?, Option.bind_eq_bind, Option.bind_eq_some_iff] at h
  obtain ⟨members, hmembers, name, -, description, -, version, -, author, -, tags, -, tools, htools,
    prompts, -, hs⟩ := h
  split_ifs at hs
  obtain rfl := Option.some.inj hs
  rcases Record.of_get htools with rfl | ⟨m, hm, hread⟩
  · exact fun t ht => absurd ht List.not_mem_nil
  · exact nodup_tools? hread (distinct_members? hmembers hv m hm)

/-- Every tool of a manifest that is read from TOML declares every key once. -/
theorem nodup_parse {content : String} {m : Manifest} (h : parse content = .ok m) :
    ∀ t ∈ m.tools, t.argKeys.Nodup := by
  rw [parse] at h
  split at h
  · rename_i members hmembers
    obtain _ | _ | _ | _ | _ | _ | ⟨-, hvalues⟩ := distinct_ofString? hmembers
    rw [ofMembers] at h
    split at h
    · simp at h
    · simp at h
    · rename_i skill tools prompts hdocument
      obtain rfl := Except.ok.inj h
      simp only [document?, Option.bind_eq_bind, Option.bind_eq_some_iff] at hdocument
      obtain ⟨skill', hskill, tools', htools, prompts', -, hout⟩ := hdocument
      obtain ⟨rfl, rfl, rfl⟩ : skill' = some skill ∧ tools' = tools ∧ prompts' = prompts := by
        simpa using hout
      intro t ht
      rcases List.mem_append.mp ht with ht | ht
      · rcases Record.of_get htools with rfl | ⟨m, hm, hread⟩
        · exact absurd ht List.not_mem_nil
        · exact nodup_tools? hread (hvalues m hm) t ht
      · rcases Record.of_get hskill with hnone | ⟨m, hm, hread⟩
        · simp at hnone
        · obtain ⟨s, hs, hsame⟩ := Option.map_eq_some_iff.mp hread
          obtain rfl := Option.some.inj hsame
          exact nodup_skill? hs (hvalues m hm) t ht
  · simp at h

end StructuredManifest

end Repertoire
