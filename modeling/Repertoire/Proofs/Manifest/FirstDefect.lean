import Repertoire.Proofs.Manifest.Validation
import Repertoire.Proofs.Registry.Entries

/-!
# The defect that validation reports

What can be wrong with a manifest is stated here one thing at a time and without any order, so that
a manifest may be wrong in many ways at once: a blank kind is also one that does not exist, and a
tool may have a blank name that an earlier tool had. The order is stated apart from it, as the place
of a defect and its rank at that place. Validation reports the least defect in that order, and
accepts where there is none.

Ranks at one place are distinct, so that there is only one least defect.
-/

namespace Repertoire

/-- The names of the kinds that exist. -/
def ToolKind.names : List String := ["shell", "http", "builtin", "script", "custom"]

/-- The text is the name of the kind between blanks exactly when the kind is read off it. -/
theorem ToolKind.ofName?_eq_some_iff (text : String) (kind : ToolKind) :
    ToolKind.ofName? text = some kind ↔ Text.trim text = kind.name := by
  rw [ToolKind.ofName?]
  constructor
  · intro h
    have hname := List.find?_some h
    exact (of_decide_eq_true hname).symm
  · intro h
    rw [h]
    cases kind <;> decide

/-- A kind is read off a text exactly when the text is one of the names between blanks. -/
theorem ToolKind.ofName?_eq_none_iff (text : String) :
    ToolKind.ofName? text = none ↔ Text.trim text ∉ ToolKind.names := by
  rw [Option.eq_none_iff_forall_ne_some]
  simp only [ne_eq, ToolKind.ofName?_eq_some_iff]
  constructor
  · intro h hmem
    simp only [ToolKind.names, List.mem_cons, List.not_mem_nil, or_false] at hmem
    rcases hmem with hname | hname | hname | hname | hname
    · exact h .shell hname
    · exact h .http hname
    · exact h .builtin hname
    · exact h .script hname
    · exact h .custom hname
  · intro h kind hname
    refine h (hname ▸ ?_)
    cases kind <;> decide

/-- The rank of a defect among those at its place, which is the skill itself or one of its tools. -/
def Defect.rank : Defect → ℕ
  | .noName => 0
  | .noDescription _ => 1
  | .toolWithoutName .. => 0
  | .repeatedTool .. => 1
  | .toolWithoutDescription _ => 2
  | .toolWithoutKind _ => 3
  | .unknownKind .. => 4
  | .noCommand _ => 5

/-! ## Tools -/

/-- What is wrong with a tool of a skill behind tools with the given names. -/
inductive Tool.Flawed (skill : String) (before : List String) (t : Tool) : Defect → Prop
  | name (h : Text.AllBlank t.name) :
      Flawed skill before t (.toolWithoutName skill (before.length + 1))
  | repeated (h : t.name ∈ before) : Flawed skill before t (.repeatedTool skill t.name)
  | description (h : Text.AllBlank t.description) :
      Flawed skill before t (.toolWithoutDescription t.name)
  | noKind (h : Text.AllBlank t.kind) : Flawed skill before t (.toolWithoutKind t.name)
  | unknownKind (h : Text.trim t.kind ∉ ToolKind.names) :
      Flawed skill before t (.unknownKind t.name t.kind)
  | command (h : Text.trim t.kind = "shell") (hblank : Text.AllBlank t.command) :
      Flawed skill before t (.noCommand t.name)

/-- What is required of a tool on its own. -/
structure Tool.Sound (t : Tool) : Prop where
  name : ¬ Text.AllBlank t.name
  description : ¬ Text.AllBlank t.description
  kind : Text.trim t.kind ∈ ToolKind.names
  command : Text.trim t.kind = "shell" → ¬ Text.AllBlank t.command

/-- The first thing that is wrong with a tool behind tools with the given names. -/
def Tool.firstFlaw? (skill : String) (before : List String) (t : Tool) : Option Defect :=
  if Text.AllBlank t.name then some (.toolWithoutName skill (before.length + 1))
  else if t.name ∈ before then some (.repeatedTool skill t.name)
  else t.defect?

variable {skill : String} {before : List String} {t : Tool} {d : Defect}

/-- A sound tool has a name and is fit for use. -/
theorem Tool.sound_iff (t : Tool) : t.Sound ↔ ¬ Text.AllBlank t.name ∧ t.Fit := by
  constructor
  · intro h
    obtain ⟨kind, hkind⟩ := Option.ne_none_iff_exists'.mp
      (mt (ToolKind.ofName?_eq_none_iff t.kind).mp (not_not_intro h.kind))
    have htool := Tool.toolKind_of_ofName? hkind
    refine ⟨h.name, h.description, htool ▸ hkind, fun hshell => h.command ?_⟩
    rw [← htool, hshell] at hkind
    exact (ToolKind.ofName?_eq_some_iff _ _).mp hkind
  · rintro ⟨hname, hfit⟩
    have hkind := (ToolKind.ofName?_eq_some_iff _ _).mp hfit.kind
    refine ⟨hname, hfit.description, ?_, fun hshell => hfit.command ?_⟩
    · rw [hkind]
      cases t.toolKind <;> decide
    · exact Tool.toolKind_of_ofName? ((ToolKind.ofName?_eq_some_iff t.kind .shell).mpr hshell)

/-- The first flaw of a tool, with its kind read as a text. -/
theorem Tool.firstFlaw?_eq (skill : String) (before : List String) (t : Tool) :
    t.firstFlaw? skill before =
      if Text.AllBlank t.name then some (.toolWithoutName skill (before.length + 1))
      else if t.name ∈ before then some (.repeatedTool skill t.name)
      else if Text.AllBlank t.description then some (.toolWithoutDescription t.name)
      else if Text.AllBlank t.kind then some (.toolWithoutKind t.name)
      else if Text.trim t.kind ∉ ToolKind.names then some (.unknownKind t.name t.kind)
      else if Text.trim t.kind = "shell" ∧ Text.AllBlank t.command then some (.noCommand t.name)
      else none := by
  rw [Tool.firstFlaw?, Tool.defect?]
  cases hkind : ToolKind.ofName? t.kind with
  | none => simp only [if_pos ((ToolKind.ofName?_eq_none_iff _).mp hkind)]
  | some kind =>
    have hexists : ¬ Text.trim t.kind ∉ ToolKind.names := fun h => by
      rw [(ToolKind.ofName?_eq_none_iff _).mpr h] at hkind
      exact Option.some_ne_none kind hkind.symm
    have hshell := ToolKind.ofName?_eq_some_iff t.kind .shell
    rw [hkind, Option.some_inj, ToolKind.name] at hshell
    simp only [if_neg hexists, ← hshell]

/-- The first thing that is wrong with a tool is wrong with it and has the least rank. -/
theorem Tool.firstFlaw?_eq_some (h : t.firstFlaw? skill before = some d) :
    t.Flawed skill before d ∧ ∀ d', t.Flawed skill before d' → d.rank ≤ d'.rank := by
  rw [Tool.firstFlaw?_eq] at h
  -- Whatever has a lower rank was tested before and is not wrong.
  split_ifs at h with hname hseen hdescription hblank hkind hcommand <;>
    obtain rfl := Option.some.inj h
  · exact ⟨.name hname, fun d' _ => Nat.zero_le d'.rank⟩
  · refine ⟨.repeated hseen, fun d' h' => ?_⟩
    cases h' <;> simp_all [Defect.rank]
  · refine ⟨.description hdescription, fun d' h' => ?_⟩
    cases h' <;> simp_all [Defect.rank]
  · refine ⟨.noKind hblank, fun d' h' => ?_⟩
    cases h' <;> simp_all [Defect.rank]
  · refine ⟨.command hcommand.1 hcommand.2, fun d' h' => ?_⟩
    cases h' <;> simp_all [Defect.rank]
  · refine ⟨.unknownKind hkind, fun d' h' => ?_⟩
    cases h' <;> simp_all [Defect.rank]

/-- Nothing is wrong with a tool that has no first flaw. -/
theorem Tool.firstFlaw?_eq_none (h : t.firstFlaw? skill before = none) (d : Defect) :
    ¬ t.Flawed skill before d := by
  rw [Tool.firstFlaw?_eq] at h
  split_ifs at h with hname hseen hdescription hblank hkind hcommand
  intro hflawed
  cases hflawed with
  | name h => exact hname h
  | repeated h => exact hseen h
  | description h => exact hdescription h
  | noKind h => exact hblank h
  | unknownKind h => exact h hkind
  | command h hempty => exact hcommand ⟨h, hempty⟩

/-- What is wrong with a tool depends on the names in front of it, and not on their order. -/
theorem Tool.Flawed.of_perm {before' : List String} (h : t.Flawed skill before d)
    (hperm : before.Perm before') : t.Flawed skill before' d := by
  cases h with
  | name h => exact hperm.length_eq ▸ .name h
  | repeated h => exact .repeated (hperm.subset h)
  | description h => exact .description h
  | noKind h => exact .noKind h
  | unknownKind h => exact .unknownKind h
  | command h hempty => exact .command h hempty

/-- At one tool no two defects have the same rank. -/
theorem Tool.Flawed.unique {d' : Defect} (h : t.Flawed skill before d)
    (h' : t.Flawed skill before d') (hrank : d.rank = d'.rank) : d = d' := by
  cases h <;> cases h' <;> first | rfl | simp [Defect.rank] at hrank

namespace Manifest

/-! ## Manifests -/

/-- What is wrong with a manifest, and at which place: the skill itself is at place zero, and its
tools follow in order. -/
inductive Flawed (m : Manifest) : ℕ → Defect → Prop
  | name (h : Text.AllBlank m.name) : Flawed m 0 .noName
  | description (h : Text.AllBlank m.description) : Flawed m 0 (.noDescription m.name)
  | tool {i : ℕ} {d : Defect} (hi : i < m.tools.length)
      (h : m.tools[i].Flawed m.name ((m.tools.take i).map Tool.name) d) : Flawed m (i + 1) d

/-- What is wrong first: at the least place at which anything is wrong, with the least rank of what
is wrong there. -/
def FirstFlaw (m : Manifest) (d : Defect) : Prop :=
  ∃ place, m.Flawed place d ∧
    ∀ place' d', m.Flawed place' d' → place < place' ∨ place = place' ∧ d.rank ≤ d'.rank

/-- What is required of a manifest. -/
structure Sound (m : Manifest) : Prop where
  name : ¬ Text.AllBlank m.name
  description : ¬ Text.AllBlank m.description
  distinct : (m.tools.map Tool.name).Nodup
  tools : ∀ t ∈ m.tools, t.Sound

/-- A walk stops at the first tool with a flaw, or goes on with its name among those seen. -/
theorem toolDefect?_cons (skill : String) (seen : List String) (t : Tool) (rest : List Tool) :
    toolDefect? skill seen (t :: rest) =
      (t.firstFlaw? skill seen).or (toolDefect? skill (t.name :: seen) rest) := by
  rw [toolDefect?, Tool.firstFlaw?]
  split_ifs
  · rfl
  · rfl
  · cases t.defect? <;> rfl

/-- The names that a walk has seen in front of a tool. -/
def seenBefore (seen : List String) (tools : List Tool) (i : ℕ) : List String :=
  ((tools.take i).map Tool.name).reverse ++ seen

/-- A walk that finds a defect finds it at a tool with no flawed tool in front of it, and it has the
least rank there. -/
theorem toolDefect?_eq_some {seen : List String} {tools : List Tool} {d : Defect}
    (h : toolDefect? skill seen tools = some d) :
    ∃ (i : ℕ) (hi : i < tools.length), tools[i].Flawed skill (seenBefore seen tools i) d ∧
      (∀ d', tools[i].Flawed skill (seenBefore seen tools i) d' → d.rank ≤ d'.rank) ∧
      ∀ (j : ℕ) (hj : j < tools.length) (d' : Defect), j < i →
        ¬ tools[j].Flawed skill (seenBefore seen tools j) d' := by
  -- On the tools, with the names seen left open. If the first tool is without a flaw, every place
  -- behind it moves by one and its name joins the names seen.
  induction tools generalizing seen with
  | nil => simp [toolDefect?] at h
  | cons t rest ih =>
    rw [toolDefect?_cons] at h
    cases hfirst : t.firstFlaw? skill seen with
    | some d₀ =>
      rw [hfirst, Option.some_or] at h
      obtain rfl := Option.some.inj h
      obtain ⟨hflawed, hleast⟩ := Tool.firstFlaw?_eq_some hfirst
      exact ⟨0, Nat.zero_lt_succ _, hflawed, hleast,
        fun j _ _ hlt => absurd hlt (Nat.not_lt_zero j)⟩
    | none =>
      rw [hfirst, Option.none_or] at h
      obtain ⟨i, hi, hflawed, hleast, hfront⟩ := ih h
      have hseen (j : ℕ) :
          seenBefore seen (t :: rest) (j + 1) = seenBefore (t.name :: seen) rest j := by
        simp [seenBefore]
      refine ⟨i + 1, Nat.succ_lt_succ hi, ?_, ?_, ?_⟩
      · rw [hseen]
        exact hflawed
      · rw [hseen]
        exact hleast
      · intro j hj d' hlt
        cases j with
        | zero => exact Tool.firstFlaw?_eq_none hfirst d'
        | succ j =>
          rw [hseen]
          exact hfront j (Nat.lt_of_succ_lt_succ hj) d' (Nat.lt_of_succ_lt_succ hlt)

/-- The names in front of a tool are those that the walk has seen. -/
theorem seenBefore_perm (tools : List Tool) (i : ℕ) :
    (seenBefore [] tools i).Perm ((tools.take i).map Tool.name) := by
  rw [seenBefore, List.append_nil]
  exact List.reverse_perm _

/-- The defect that is found is wrong with the manifest, and nothing is wrong before it. -/
theorem firstFlaw_of_defect? {m : Manifest} {d : Defect} (h : m.defect? = some d) :
    m.FirstFlaw d := by
  rw [defect?] at h
  split_ifs at h with hname hdescription
  · obtain rfl := Option.some.inj h
    refine ⟨0, .name hname, fun place' d' h' => ?_⟩
    cases h' with
    | name | description => exact .inr ⟨rfl, Nat.zero_le _⟩
    | tool => exact .inl (Nat.succ_pos _)
  · obtain rfl := Option.some.inj h
    refine ⟨0, .description hdescription, fun place' d' h' => ?_⟩
    cases h' with
    | name h => exact absurd h hname
    | description => exact .inr ⟨rfl, le_rfl⟩
    | tool => exact .inl (Nat.succ_pos _)
  · obtain ⟨i, hi, hflawed, hleast, hfront⟩ := toolDefect?_eq_some h
    refine ⟨i + 1, .tool hi (hflawed.of_perm (seenBefore_perm m.tools i)), fun place' d' h' => ?_⟩
    cases h' with
    | name h => exact absurd h hname
    | description h => exact absurd h hdescription
    | @tool j _ hj h =>
      have hwalk := h.of_perm (seenBefore_perm m.tools j).symm
      rcases lt_trichotomy i j with hlt | rfl | hlt
      · exact .inl (Nat.succ_lt_succ hlt)
      · exact .inr ⟨rfl, hleast d' hwalk⟩
      · exact absurd hwalk (hfront j hj d' hlt)

/-- Only one defect is first. -/
theorem FirstFlaw.unique {m : Manifest} {d d' : Defect} (h : m.FirstFlaw d) (h' : m.FirstFlaw d') :
    d = d' := by
  obtain ⟨place, hflawed, hleast⟩ := h
  obtain ⟨place', hflawed', hleast'⟩ := h'
  have hle := hleast place' d' hflawed'
  have hle' := hleast' place d hflawed
  have hplace : place = place' := by omega
  have hrank : d.rank = d'.rank := by omega
  subst hplace
  cases hflawed with
  | name => cases hflawed' with
    | name => rfl
    | description => simp [Defect.rank] at hrank
  | description => cases hflawed' with
    | name => simp [Defect.rank] at hrank
    | description => rfl
  | tool hi h => cases hflawed' with
    | tool hi' h' => exact h.unique h' hrank

/-- A manifest has no defect exactly when it is sound. -/
theorem defect?_eq_none_iff (m : Manifest) : m.defect? = none ↔ m.Sound := by
  rw [defect?]
  split_ifs with hname hdescription
  · exact ⟨False.elim, fun h => h.name hname⟩
  · exact ⟨False.elim, fun h => h.description hdescription⟩
  · rw [toolDefect?_eq_none_iff]
    constructor
    · rintro ⟨hnodup, hall⟩
      exact ⟨hname, hdescription, hnodup, fun t ht => (Tool.sound_iff t).mpr (hall t ht).2⟩
    · intro h
      exact ⟨h.distinct, fun t ht => ⟨List.not_mem_nil, (Tool.sound_iff t).mp (h.tools t ht)⟩⟩

/-- Nothing is wrong with a sound manifest. -/
theorem Sound.not_flawed {m : Manifest} (h : m.Sound) (place : ℕ) (d : Defect) :
    ¬ m.Flawed place d := by
  intro hflawed
  cases hflawed with
  | name hname => exact h.name hname
  | description hdescription => exact h.description hdescription
  | @tool i d hi hflawed =>
    have ht := h.tools _ (List.getElem_mem hi)
    cases hflawed with
    | name hname => exact ht.name hname
    | repeated hmem =>
      have hdistinct := h.distinct
      rw [← List.take_append_drop i m.tools, List.drop_eq_getElem_cons hi, List.map_append,
        List.map_cons, List.nodup_middle, List.nodup_cons] at hdistinct
      exact hdistinct.1 (List.mem_append_left _ hmem)
    | description hdescription => exact ht.description hdescription
    | noKind hblank =>
      have hnone := ToolKind.ofName?_of_allBlank hblank
      exact (ToolKind.ofName?_eq_none_iff _).mp hnone ht.kind
    | unknownKind hkind => exact hkind ht.kind
    | command hshell hempty => exact ht.command hshell hempty

/-- What is required of a manifest does not depend on the order of its tools. -/
theorem Sound.of_perm {m : Manifest} (h : m.Sound) {tools : List Tool}
    (hperm : tools.Perm m.tools) : { m with tools := tools }.Sound where
  name := h.name
  description := h.description
  distinct := ((hperm.map Tool.name).nodup_iff).mpr h.distinct
  tools := fun t ht => h.tools t (hperm.subset ht)

/-- What validation decides and reports. It accepts exactly the sound manifests, in whichever order
their tools stand. For any other it reports what is wrong first, as an error of validation. -/
structure ReportsFirst (m : Manifest) : Prop where
  accepts : m.validate = .ok () ↔ m.Sound
  refuses : ∀ e, m.validate = .error e ↔ ∃ d, m.FirstFlaw d ∧ e = .validation d.text
  reordered : ∀ tools : List Tool, tools.Perm m.tools →
    ({ m with tools := tools }.validate = .ok () ↔ m.validate = .ok ())

end Manifest

end Repertoire
