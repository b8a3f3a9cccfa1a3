import Mathlib.Data.List.Induction
import Mathlib.Data.Nat.Find
import Repertoire.Proofs.Manifest.Validation
import Repertoire.Proofs.Registry.Entries
import Repertoire.Tools.Host

/-!
# How far registering tools gets

A host takes the tools of a skill in order and stops at the first one whose name is taken, by a tool
that it keeps or by an earlier tool of the skill. Nothing is undone, so the tools before that one
are kept, and they are all that was added. Between two skills a host never keeps a name twice.

The second tool already meets a host that keeps the first, so both ways in which a name can be taken
are one: whether a later place is taken does not change when the first tool is added. The induction
is on the place at which registering stops, for every host.
-/

namespace Repertoire.ToolHost

/-- The names that a host keeps. -/
def names (h : ToolHost) : List String := h.tools.map ToolDefinition.name

/-- The host with the definitions of more tools. -/
def added (h : ToolHost) (tools : List Tool) : ToolHost := ⟨h.tools ++ tools.map Tool.definition⟩

/-- The host after the tools of skills were registered in order. -/
def after (skills : List Skill) : ToolHost := skills.foldl (fun h s => (h.registerTools s).2) empty

/-- The tool at a place has a name that the host keeps or an earlier tool has. -/
def TakenAt (h : ToolHost) (tools : List Tool) (k : ℕ) : Prop :=
  ∃ t, tools[k]? = some t ∧ (t.name ∈ h.names ∨ t.name ∈ (tools.take k).map Tool.name)

/-- The tool is at the first place whose name is taken. -/
structure FirstTaken (h : ToolHost) (tools : List Tool) (k : ℕ) (t : Tool) : Prop where
  tool : tools[k]? = some t
  taken : h.TakenAt tools k
  earlier : ∀ j < k, ¬ h.TakenAt tools j

/-- A skill that is not loaded is refused. The tools of a loaded skill are added up to the first
place whose name is taken, and all of them if there is none. A valid skill only fails over a name
that the host kept before. -/
structure TakesTools (h : ToolHost) (s : Skill) : Prop where
  refused : s.loaded = false → h.registerTools s =
    (.error (.invalidArgument ("skill '" ++ s.name ++ "' is not loaded")), h)
  stopped : s.loaded = true → ∀ k t, h.FirstTaken s.manifest.tools k t → h.registerTools s =
    (.error (.alreadyExists .tool t.name), h.added (s.manifest.tools.take k))
  finished : s.loaded = true → (∀ k, ¬ h.TakenAt s.manifest.tools k) → h.registerTools s =
    (.ok s.manifest.tools.length, h.added s.manifest.tools)
  valid : s.loaded = true → s.validate = .ok () → ∀ e, (h.registerTools s).1 = .error e →
    ∃ t ∈ s.manifest.tools, t.name ∈ h.names ∧ e = .alreadyExists .tool t.name

variable {h : ToolHost} {tools : List Tool} {t : Tool} {k : ℕ}

/-! ## One tool -/

@[simp] theorem names_added (h : ToolHost) (tools : List Tool) :
    (h.added tools).names = h.names ++ tools.map Tool.name := by
  simp [names, added, Tool.definition, Function.comp_def]

@[simp] theorem added_nil (h : ToolHost) : h.added [] = h := by simp [added]

theorem added_added (h : ToolHost) (a b : List Tool) : (h.added a).added b = h.added (a ++ b) := by
  simp [added]

/-- A host has no definition of a name exactly when it does not keep the name. -/
theorem get?_eq_none_iff (h : ToolHost) (name : String) : h.get? name = none ↔ name ∉ h.names := by
  simp [get?, names]

/-- A tool is added unless its name is kept. -/
theorem register_definition (h : ToolHost) (t : Tool) :
    h.register t.definition =
      if t.name ∈ h.names then (.error (.alreadyExists .tool t.name), h)
      else (.ok (), h.added [t]) := by
  have hname : t.definition.name = t.name := rfl
  rw [register, hname]
  cases hget : h.get? t.name with
  | none => rw [if_neg ((get?_eq_none_iff h t.name).mp hget)]; rfl
  | some d =>
    have hkept : t.name ∈ h.names := by
      by_contra hfree
      rw [(get?_eq_none_iff h t.name).mpr hfree] at hget
      exact Option.some_ne_none d hget.symm
    rw [if_pos hkept]

/-- Tools are added one by one, up to the first whose name is kept by then. -/
theorem registerAll_cons (h : ToolHost) (t : Tool) (rest : List Tool) :
    h.registerAll ((t :: rest).map Tool.definition) =
      if t.name ∈ h.names then (.error (.alreadyExists .tool t.name), h)
      else (h.added [t]).registerAll (rest.map Tool.definition) := by
  rw [List.map_cons, registerAll, register_definition]
  by_cases hkept : t.name ∈ h.names
  · rw [if_pos hkept, if_pos hkept]
  · rw [if_neg hkept, if_neg hkept]

/-! ## Places that are taken -/

/-- The first place is taken when the host keeps its name. -/
theorem takenAt_zero (h : ToolHost) (t : Tool) (rest : List Tool) :
    h.TakenAt (t :: rest) 0 ↔ t.name ∈ h.names := by
  simp [TakenAt]

/-- A later place is taken exactly when it is once the first tool was added. -/
theorem takenAt_succ (h : ToolHost) (t : Tool) (rest : List Tool) (k : ℕ) :
    h.TakenAt (t :: rest) (k + 1) ↔ (h.added [t]).TakenAt rest k := by
  simp only [TakenAt, List.getElem?_cons_succ, List.take_succ_cons, List.map_cons, List.mem_cons,
    names_added, List.map_nil, List.mem_append, List.not_mem_nil, or_false, or_assoc]

/-- Where a place is taken there is a first one. -/
theorem exists_firstTaken (htaken : h.TakenAt tools k) : ∃ j t, h.FirstTaken tools j t := by
  classical
  have hany : ∃ k, h.TakenAt tools k := ⟨k, htaken⟩
  obtain ⟨t, ht, -⟩ := Nat.find_spec hany
  exact ⟨Nat.find hany, t, ht, Nat.find_spec hany, fun j hj => Nat.find_min hany hj⟩

/-- Tools in front of which no place is taken are all added. -/
theorem registerAll_of_free (hfree : ∀ j < k, ¬ h.TakenAt tools j) :
    h.registerAll (tools.map Tool.definition) =
      (h.added (tools.take k)).registerAll ((tools.drop k).map Tool.definition) := by
  induction k generalizing h tools with
  | zero => simp
  | succ k ih =>
    cases tools with
    | nil => simp
    | cons t rest =>
      have hfirst : t.name ∉ h.names := fun hkept =>
        hfree 0 k.succ_pos ((takenAt_zero h t rest).mpr hkept)
      have hlater : ∀ j < k, ¬ (h.added [t]).TakenAt rest j := fun j hj htaken =>
        hfree (j + 1) (Nat.succ_lt_succ hj) ((takenAt_succ h t rest j).mpr htaken)
      rw [registerAll_cons, if_neg hfirst, ih hlater, added_added]
      rfl

/-- Registering stops at the first place that is taken. -/
theorem FirstTaken.registerAll_eq (hfirst : h.FirstTaken tools k t) :
    h.registerAll (tools.map Tool.definition) =
      (.error (.alreadyExists .tool t.name), h.added (tools.take k)) := by
  obtain ⟨ht, ⟨u, hu, htaken⟩, hearlier⟩ := hfirst
  obtain rfl : t = u := Option.some.inj (ht.symm.trans hu)
  have hkept : t.name ∈ (h.added (tools.take k)).names := by
    rw [names_added, List.mem_append]
    exact htaken
  have hdrop : tools.drop k = t :: tools.drop (k + 1) := by
    obtain ⟨hk, rfl⟩ := List.getElem?_eq_some_iff.mp ht
    exact List.drop_eq_getElem_cons hk
  rw [registerAll_of_free hearlier, hdrop, registerAll_cons, if_pos hkept]

/-- Where no place is taken, all tools are added. -/
theorem registerAll_of_allFree (hfree : ∀ k, ¬ h.TakenAt tools k) :
    h.registerAll (tools.map Tool.definition) = (.ok (), h.added tools) := by
  rw [registerAll_of_free (k := tools.length) fun j _ => hfree j, List.take_length,
    List.drop_length]
  rfl

/-! ## Skills -/

variable {s : Skill}

/-- Adding tools keeps no name twice. -/
theorem nodup_registerAll (hnodup : h.names.Nodup) (tools : List Tool) :
    (h.registerAll (tools.map Tool.definition)).2.names.Nodup := by
  induction tools generalizing h with
  | nil => exact hnodup
  | cons t rest ih =>
    rw [registerAll_cons]
    by_cases hkept : t.name ∈ h.names
    · rwa [if_pos hkept]
    · rw [if_neg hkept]
      apply ih
      rw [names_added, List.nodup_append]
      refine ⟨hnodup, List.nodup_singleton t.name, fun a ha b hb hab => ?_⟩
      have hname : b = t.name := List.mem_singleton.mp hb
      exact hkept (hname ▸ hab ▸ ha)

/-- A loaded skill has its tools added, and the answer tells their number unless one failed. -/
theorem registerTools_of_loaded (hloaded : s.loaded = true) :
    h.registerTools s = match h.registerAll (s.manifest.tools.map Tool.definition) with
      | (.ok (), h) => (.ok s.manifest.tools.length, h)
      | (.error e, h) => (.error e, h) := by
  rw [registerTools, hloaded]
  rfl

/-- Registering the tools of a skill keeps no name twice. -/
theorem nodup_registerTools (hnodup : h.names.Nodup) (s : Skill) :
    (h.registerTools s).2.names.Nodup := by
  cases hloaded : s.loaded with
  | false => simpa [registerTools, hloaded] using hnodup
  | true =>
    have hall := nodup_registerAll hnodup s.manifest.tools
    rw [registerTools_of_loaded hloaded]
    rcases hout : h.registerAll (s.manifest.tools.map Tool.definition) with ⟨_ | _, h'⟩ <;>
      rwa [hout] at hall

/-- After any skills a host keeps no name twice. -/
theorem nodup_after (skills : List Skill) : (after skills).names.Nodup := by
  induction skills using List.reverseRecOn with
  | nil => exact List.nodup_nil
  | append_singleton skills s ih =>
    rw [after, List.foldl_append]
    exact nodup_registerTools ih s

/-- Where tools have distinct names, the name of a place is only taken by the host. -/
theorem FirstTaken.mem_names (hfirst : h.FirstTaken tools k t)
    (hnodup : (tools.map Tool.name).Nodup) : t.name ∈ h.names := by
  obtain ⟨ht, ⟨u, hu, htaken⟩, -⟩ := hfirst
  obtain rfl : t = u := Option.some.inj (ht.symm.trans hu)
  refine htaken.resolve_right fun hearlier => ?_
  obtain ⟨hk, rfl⟩ := List.getElem?_eq_some_iff.mp ht
  rw [← List.take_append_drop k tools, List.drop_eq_getElem_cons hk, List.map_append,
    List.map_cons, List.nodup_append] at hnodup
  exact hnodup.2.2 _ hearlier _ List.mem_cons_self rfl

/-- Every host takes the tools of every skill as far as their names allow. -/
theorem takesTools (h : ToolHost) (s : Skill) : TakesTools h s where
  refused hloaded := by simp [registerTools, hloaded, Skill.notLoaded]
  stopped hloaded k t hfirst := by
    rw [registerTools_of_loaded hloaded, hfirst.registerAll_eq]
  finished hloaded hfree := by
    rw [registerTools_of_loaded hloaded, registerAll_of_allFree hfree]
  valid hloaded hvalid e he := by
    rw [registerTools_of_loaded hloaded] at he
    by_cases htaken : ∃ k, h.TakenAt s.manifest.tools k
    · obtain ⟨k, hk⟩ := htaken
      obtain ⟨j, t, hfirst⟩ := exists_firstTaken hk
      have hdefect := (Manifest.validate_eq_ok_iff s.manifest).mp hvalid
      have hnodup := (Manifest.tools_of_defect?_eq_none hdefect).1
      rw [hfirst.registerAll_eq] at he
      exact ⟨t, List.mem_of_getElem? hfirst.tool, hfirst.mem_names hnodup,
        (Except.error.inj he).symm⟩
    · rw [registerAll_of_allFree fun k hk => htaken ⟨k, hk⟩] at he
      exact absurd he (by simp)

/-- A skill with tools of the given names. -/
def kit (names : List String) : Skill :=
  .ofManifest 0
    ⟨"kit", "A kit.", "", none, [], names.map fun n => ⟨n, "A tool.", "http", "", []⟩, [], none⟩

/-- The tool in front of a name that is kept stays added. -/
example : ((after [kit ["b"]]).registerTools (kit ["a", "b", "c"])).1 =
      .error (.alreadyExists .tool "b") ∧
    (after [kit ["b"], kit ["a", "b", "c"]]).names = ["b", "a"] := by
  decide +kernel

end Repertoire.ToolHost
