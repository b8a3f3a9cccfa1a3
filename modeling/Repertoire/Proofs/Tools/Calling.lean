import Repertoire.Proofs.Tools.Dispatch

/-!
# What a call does

A call that cannot be carried out is an error, and a command that was carried out and failed is a
result. Errors come from the skill, from the name, from the kind of the tool, or from the executor,
and from nowhere else. No assumption is made about the skill: it need not be valid, so several of
its tools may share a name, and the first of them is the one that is called.

How often the executor is used is seen by an executor that notes its commands. It answers as the one
it is made of and changes the state in the same way, so that what is noted is what any executor is
handed.
-/

namespace Repertoire

variable {σ : Type}

namespace Manifest

/-- The tool is the first of a name. -/
def FirstNamed (m : Manifest) (tool : String) (t : Tool) : Prop :=
  ∃ front back, m.tools = front ++ t :: back ∧ t.name = tool ∧ ∀ u ∈ front, u.name ≠ tool

/-- The tool that is found is the first of the name. -/
theorem findTool?_eq_some_iff (m : Manifest) (tool : String) (t : Tool) :
    m.findTool? tool = some t ↔ m.FirstNamed tool t := by
  rw [findTool?, List.find?_eq_some_iff_append, FirstNamed]
  simp only [decide_eq_true_eq, Bool.not_eq_true', decide_eq_false_iff_not]
  constructor
  · rintro ⟨hname, front, back, htools, hfront⟩
    exact ⟨front, back, htools, hname, hfront⟩
  · rintro ⟨front, back, htools, hname, hfront⟩
    exact ⟨hname, front, back, htools, hfront⟩

/-- No tool is found exactly when none has the name. -/
theorem findTool?_eq_none_iff (m : Manifest) (tool : String) :
    m.findTool? tool = none ↔ ∀ t ∈ m.tools, t.name ≠ tool := by
  simp [findTool?]

/-- Only one tool is the first of a name. -/
theorem FirstNamed.unique {m : Manifest} {tool : String} {t u : Tool} (ht : m.FirstNamed tool t)
    (hu : m.FirstNamed tool u) : t = u := by
  rw [← findTool?_eq_some_iff] at ht hu
  exact Option.some.inj (ht.symm.trans hu)

/-- The first tool of a name has the name. -/
theorem FirstNamed.not_unnamed {m : Manifest} {tool : String} {t : Tool} (h : m.FirstNamed tool t) :
    ¬ ∀ u ∈ m.tools, u.name ≠ tool := by
  obtain ⟨front, back, htools, hname, -⟩ := h
  exact fun hnone => hnone t (htools ▸ List.mem_append_right _ List.mem_cons_self) hname

end Manifest

/-! ## Errors -/

/-- What a call by the name of a tool can come to, whatever the skill is like. -/
inductive Called (run : Executor σ) (s : Skill) (tool : String) (args : ToolArguments) (st : σ) :
    Except Error ToolResult × σ → Prop
  | unloaded (h : s.loaded = false) : Called run s tool args st (.error s.notLoaded, st)
  | unnamed (hloaded : s.loaded = true) (h : ∀ t ∈ s.manifest.tools, t.name ≠ tool) :
      Called run s tool args st (.error (.notFound .tool tool), st)
  | dispatched {t : Tool} {answer : Except Error ToolResult × σ} (hloaded : s.loaded = true)
      (hfirst : s.manifest.FirstNamed tool t) (h : Dispatched run s t args st answer) :
      Called run s tool args st answer

/-- A call comes to one of these. -/
theorem callTool_called (run : Executor σ) (s : Skill) (tool : String) (args : ToolArguments)
    (st : σ) : Called run s tool args st (callTool run s tool args st) := by
  cases hloaded : s.loaded with
  | false =>
    simp only [callTool, hloaded, Bool.not_false, if_true]
    exact .unloaded hloaded
  | true =>
    cases hfound : s.manifest.findTool? tool with
    | none =>
      simp only [callTool, hloaded, hfound, Bool.not_true, Bool.false_eq_true, if_false]
      exact .unnamed hloaded ((s.manifest.findTool?_eq_none_iff tool).mp hfound)
    | some t =>
      exact .dispatched hloaded ((s.manifest.findTool?_eq_some_iff tool t).mp hfound)
        (callTool_dispatched run args st hloaded hfound)

/-- The causes for which a call of a tool of a skill can fail with an error. -/
inductive Unable (run : Executor σ) (s : Skill) (tool : String) (args : ToolArguments) (st : σ) :
    Error → Prop
  | unloaded (h : s.loaded = false) : Unable run s tool args st s.notLoaded
  | unnamed (hloaded : s.loaded = true) (h : ∀ t ∈ s.manifest.tools, t.name ≠ tool) :
      Unable run s tool args st (.notFound .tool tool)
  | uncallable {t : Tool} (hloaded : s.loaded = true) (hfirst : s.manifest.FirstNamed tool t)
      (hkind : t.toolKind ∈ [.http, .script, .custom]) :
      Unable run s tool args st (.notImplemented t.toolKind)
  | unstarted {t : Tool} {e : Error} (hloaded : s.loaded = true)
      (hfirst : s.manifest.FirstNamed tool t) (hkind : t.toolKind = .shell)
      (hrun : (run (t.commandFor args) st).1 = .error e) : Unable run s tool args st e

variable {run : Executor σ} {s : Skill} {tool : String} {args : ToolArguments} {st : σ}

/-- A call fails with an error exactly for one of the causes. -/
theorem Called.error_iff {answer : Except Error ToolResult × σ}
    (h : Called run s tool args st answer) (e : Error) :
    answer.1 = .error e ↔ Unable run s tool args st e := by
  cases h with
  | unloaded h =>
    constructor
    · rintro ⟨⟩
      exact .unloaded h
    · intro hunable
      cases hunable <;> simp_all
  | unnamed hloaded h =>
    constructor
    · rintro ⟨⟩
      exact .unnamed hloaded h
    · intro hunable
      cases hunable with
      | unloaded h' => simp_all
      | unnamed => rfl
      | uncallable _ hfirst | unstarted _ hfirst => exact absurd h hfirst.not_unnamed
  | @dispatched t _ hloaded hfirst hd =>
    rw [hd.error_iff]
    constructor
    · rintro (⟨hkind, hrun⟩ | ⟨hkind, rfl⟩)
      · exact .unstarted hloaded hfirst hkind hrun
      · exact .uncallable hloaded hfirst hkind
    · intro hunable
      cases hunable with
      | unloaded h => simp_all
      | unnamed _ h => exact absurd h hfirst.not_unnamed
      | uncallable _ hfirst' hkind =>
        obtain rfl := hfirst.unique hfirst'
        exact .inr ⟨hkind, rfl⟩
      | unstarted _ hfirst' hkind hrun =>
        obtain rfl := hfirst.unique hfirst'
        exact .inl ⟨hkind, hrun⟩

/-! ## Results -/

/-- A builtin tool succeeds with code zero if it is one of the two that there are, and fails without
a code otherwise. -/
theorem runBuiltin_eq (s : Skill) (t : Tool) (args : ToolArguments) :
    ∃ output, runBuiltin s t args =
      if Text.trim t.command ∈ ["echo", "prompt"] then .succeeded output
      else .failed output (-1) := by
  rw [runBuiltin]
  split
  · rename_i hecho
    exact ⟨_, by rw [hecho, if_pos (by decide)]⟩
  · rename_i hprompt
    exact ⟨_, by rw [hprompt, if_pos (by decide)]⟩
  · rename_i hecho hprompt
    have hother : Text.trim t.command ∉ ["echo", "prompt"] := by
      simp only [List.mem_cons, List.not_mem_nil, or_false]
      rintro (h | h)
      · exact hecho h
      · exact hprompt h
    exact ⟨_, (if_neg hother).symm⟩

/-- A result is a success exactly when its code is zero. -/
theorem Called.success_iff {answer : Except Error ToolResult × σ} {r : ToolResult}
    (h : Called run s tool args st answer) (hr : answer.1 = .ok r) :
    r.success = true ↔ r.exitCode = 0 := by
  cases h with
  | unloaded | unnamed => simp at hr
  | dispatched hloaded hfirst hd =>
    cases hd with
    | ran =>
      obtain rfl := Except.ok.inj hr
      simp [ToolResult.ofShell]
    | unstarted | unimplemented => simp at hr
    | @answered hkind =>
      obtain rfl := Except.ok.inj hr
      obtain ⟨output, hbuiltin⟩ := runBuiltin_eq s _ args
      rw [hbuiltin]
      split <;> simp [ToolResult.succeeded, ToolResult.failed]

/-- A call depends on its arguments only through their text for the tool that is called. -/
theorem callTool_congr (run : Executor σ) {s : Skill} {tool : String} {args args' : ToolArguments}
    (h : ∀ t, s.manifest.findTool? tool = some t → args'.render t = args.render t) :
    callTool run s tool args' = callTool run s tool args := by
  rw [callTool, callTool]
  cases hfound : s.manifest.findTool? tool with
  | none => rfl
  | some t => simp only [runBuiltin, h t hfound]

/-! ## Uses of the executor -/

/-- The executor that also notes each command it is handed, behind those noted before. -/
def Executor.noting (run : Executor σ) : Executor (σ × List String) := fun command st =>
  ((run command st.1).1, (run command st.1).2, st.2 ++ [command])

/-- The commands that a call hands to the executor. -/
def Skill.commandsOf (s : Skill) (tool : String) (args : ToolArguments) : List String :=
  match s.manifest.findTool? tool with
  | some t => if s.loaded ∧ t.toolKind = .shell then [t.commandFor args] else []
  | none => []

/-- A call with an executor that notes its commands answers and changes the state as it would
without the notes, and the notes grow by its commands. -/
theorem callTool_noting (run : Executor σ) (s : Skill) (tool : String) (args : ToolArguments)
    (st : σ) (log : List String) :
    callTool run.noting s tool args (st, log) =
      ((callTool run s tool args st).1, (callTool run s tool args st).2,
        log ++ s.commandsOf tool args) := by
  have hquiet (answer : Except Error ToolResult) :
      (answer, st, log) = (answer, st, log ++ []) := by
    rw [List.append_nil]
  cases hloaded : s.loaded with
  | false =>
    have hnone : s.commandsOf tool args = [] := by
      rw [Skill.commandsOf, hloaded]
      cases s.manifest.findTool? tool <;> rfl
    rw [hnone, callTool, callTool, hloaded]
    exact hquiet _
  | true =>
    simp only [callTool, Skill.commandsOf, hloaded, Bool.not_true, Bool.false_eq_true, if_false,
      true_and]
    cases s.manifest.findTool? tool with
    | none => exact hquiet _
    | some t =>
      dsimp only
      cases hkind : t.toolKind with
      | shell =>
        simp only [bind, StateT.bind, Executor.noting, Tool.commandFor, if_true]
        rcases run (commandWith t.command (args.render t)) st with ⟨e | out, st'⟩ <;> rfl
      | builtin | http | script | custom => exact hquiet _

/-- The command of a tool that runs in the shell is the only one that a call hands on. -/
theorem Skill.commandsOf_shell {t : Tool} (hloaded : s.loaded = true)
    (hfirst : s.manifest.FirstNamed tool t) (hkind : t.toolKind = .shell) :
    s.commandsOf tool args = [t.commandFor args] := by
  simp only [Skill.commandsOf, (s.manifest.findTool?_eq_some_iff tool t).mpr hfirst, hloaded, hkind,
    and_self, if_true]

/-- A call of anything else hands nothing on. -/
theorem Skill.commandsOf_other
    (h : ¬ ∃ t, s.loaded = true ∧ s.manifest.FirstNamed tool t ∧ t.toolKind = .shell) :
    s.commandsOf tool args = [] := by
  rw [Skill.commandsOf]
  split
  · rename_i t hfound
    have hfirst := (s.manifest.findTool?_eq_some_iff tool t).mp hfound
    exact if_neg fun hshell => h ⟨t, hshell.1, hfirst, hshell.2⟩
  · rfl

/-- A call that hands nothing to the executor leaves its state. -/
theorem Called.state_of_other {answer : Except Error ToolResult × σ}
    (hcalled : Called run s tool args st answer)
    (h : ¬ ∃ t, s.loaded = true ∧ s.manifest.FirstNamed tool t ∧ t.toolKind = .shell) :
    answer.2 = st := by
  cases hcalled with
  | unloaded | unnamed => rfl
  | dispatched hloaded hfirst hd =>
    cases hd with
    | ran hkind | unstarted hkind => exact absurd ⟨_, hloaded, hfirst, hkind⟩ h
    | answered | unimplemented => rfl

/-- A command with arguments behind it, if their text is not empty. -/
theorem Tool.commandFor_eq (t : Tool) (args : ToolArguments) :
    t.commandFor args =
      if args.render t = "" then t.command else t.command ++ " " ++ args.render t := by
  simp only [Tool.commandFor, commandWith, String.isEmpty_iff]

/-- How a call tells errors from failures, and what it does. It fails with an error exactly when
nothing was run, which has one of four causes. It uses the executor once, and only for a tool that
runs in the shell, with the command and the arguments behind it; otherwise it changes nothing. A
result is a success exactly when its code is zero, and builtin tools have one that their command
decides. -/
structure SeparatesFailures (run : Executor σ) (s : Skill) (tool : String) (args : ToolArguments)
    (st : σ) : Prop where
  fails : (∃ e, (callTool run s tool args st).1 = .error e) ↔
    s.loaded = false ∨ (∀ t ∈ s.manifest.tools, t.name ≠ tool) ∨
      ∃ t, s.manifest.FirstNamed tool t ∧
        (t.toolKind ∈ [.http, .script, .custom] ∨
          t.toolKind = .shell ∧ ∃ e, (run (t.commandFor args) st).1 = .error e)
  cause : ∀ e, (callTool run s tool args st).1 = .error e ↔ Unable run s tool args st e
  once : ∀ t, s.loaded = true → s.manifest.FirstNamed tool t → t.toolKind = .shell →
    ∀ log, callTool run.noting s tool args (st, log) =
      ((callTool run s tool args st).1, (callTool run s tool args st).2,
        log ++ [if args.render t = "" then t.command else t.command ++ " " ++ args.render t])
  never : (¬ ∃ t, s.loaded = true ∧ s.manifest.FirstNamed tool t ∧ t.toolKind = .shell) →
    (callTool run s tool args st).2 = st ∧
      ∀ log, callTool run.noting s tool args (st, log) =
        ((callTool run s tool args st).1, st, log)
  success : ∀ r, (callTool run s tool args st).1 = .ok r → (r.success = true ↔ r.exitCode = 0)
  builtin : ∀ t, s.loaded = true → s.manifest.FirstNamed tool t → t.toolKind = .builtin →
    ∃ output, callTool run s tool args st =
      (.ok (if Text.trim t.command ∈ ["echo", "prompt"] then ⟨true, output, 0⟩
        else ⟨false, output, -1⟩), st)

/-- A call is unable exactly when the skill is not loaded, no tool has the name, its kind cannot be
called, or the executor does not start. -/
theorem exists_unable_iff :
    (∃ e, Unable run s tool args st e) ↔
      s.loaded = false ∨ (∀ t ∈ s.manifest.tools, t.name ≠ tool) ∨
        ∃ t, s.manifest.FirstNamed tool t ∧
          (t.toolKind ∈ [.http, .script, .custom] ∨
            t.toolKind = .shell ∧ ∃ e, (run (t.commandFor args) st).1 = .error e) := by
  constructor
  · rintro ⟨e, hunable⟩
    cases hunable with
    | unloaded h => exact .inl h
    | unnamed _ h => exact .inr (.inl h)
    | uncallable _ hfirst hkind => exact .inr (.inr ⟨_, hfirst, .inl hkind⟩)
    | unstarted _ hfirst hkind hrun => exact .inr (.inr ⟨_, hfirst, .inr ⟨hkind, e, hrun⟩⟩)
  · intro h
    cases hloaded : s.loaded with
    | false => exact ⟨_, .unloaded hloaded⟩
    | true =>
      rcases h with hshut | hnone | ⟨t, hfirst, hkind | ⟨hkind, e, hrun⟩⟩
      · simp [hloaded] at hshut
      · exact ⟨_, .unnamed hloaded hnone⟩
      · exact ⟨_, .uncallable hloaded hfirst hkind⟩
      · exact ⟨e, .unstarted hloaded hfirst hkind hrun⟩

end Repertoire
