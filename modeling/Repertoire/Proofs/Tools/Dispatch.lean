import Repertoire.Proofs.Manifest.Validation
import Repertoire.Proofs.Registry.Run
import Repertoire.Tools.Dispatch

/-!
# Calling the tools of registered skills

A call by the names of a skill and a tool comes to exactly one of four things, which the kind of the
tool decides. For a skill that a registry holds, the skill is found because names of skills are
distinct, and the tool because validation keeps names of tools distinct; so no tool is shadowed by
one that was declared before it.

The executor of shell commands is arbitrary and may fail in any way, with errors of any kind. What
is said about errors is therefore about those that are not its own.
-/

namespace Repertoire

variable {σ : Type}

/-- The command that a tool runs when it is called with arguments. -/
def Tool.commandFor (t : Tool) (args : ToolArguments) : String :=
  commandWith t.command (args.render t)

/-- The kinds of tools that there is no way to call. -/
def ToolKind.uncallable : List ToolKind := [.http, .script, .custom]

/-- The four things that a call of a tool can come to. -/
inductive Dispatched (run : Executor σ) (s : Skill) (t : Tool) (args : ToolArguments) (st : σ) :
    Except Error ToolResult × σ → Prop
  | ran {out : ShellOutput} {st' : σ} (hkind : t.toolKind = .shell)
      (hrun : run (t.commandFor args) st = (.ok out, st')) :
      Dispatched run s t args st (.ok (.ofShell out), st')
  | unstarted {e : Error} {st' : σ} (hkind : t.toolKind = .shell)
      (hrun : run (t.commandFor args) st = (.error e, st')) :
      Dispatched run s t args st (.error e, st')
  | answered (hkind : t.toolKind = .builtin) :
      Dispatched run s t args st (.ok (runBuiltin s t args), st)
  | unimplemented {kind : ToolKind} (hkind : t.toolKind = kind)
      (hnone : kind ∈ ToolKind.uncallable) :
      Dispatched run s t args st (.error (.notImplemented kind), st)

/-- A call of a loaded skill dispatches the tool that is found under the name. -/
theorem callTool_dispatched (run : Executor σ) {s : Skill} {t : Tool} {tool : String}
    (args : ToolArguments) (st : σ) (hloaded : s.loaded = true)
    (hfound : s.manifest.findTool? tool = some t) :
    Dispatched run s t args st (callTool run s tool args st) := by
  simp only [callTool, hloaded, Bool.not_true, Bool.false_eq_true, if_false, hfound]
  cases hkind : t.toolKind with
  | shell =>
    simp only [bind, StateT.bind]
    rcases hrun : run (commandWith t.command (args.render t)) st with ⟨e | out, st'⟩
    · exact .unstarted hkind hrun
    · exact .ran hkind hrun
  | builtin => exact .answered hkind
  | http => exact .unimplemented hkind (by decide)
  | script => exact .unimplemented hkind (by decide)
  | custom => exact .unimplemented hkind (by decide)

/-- An error of a call is one of the executor, or says that the kind cannot be called. -/
theorem Dispatched.error_iff {run : Executor σ} {s : Skill} {t : Tool} {args : ToolArguments}
    {st : σ} {answer : Except Error ToolResult × σ} (h : Dispatched run s t args st answer)
    (e : Error) :
    answer.1 = .error e ↔
      (t.toolKind = .shell ∧ (run (t.commandFor args) st).1 = .error e) ∨
        (t.toolKind ∈ ToolKind.uncallable ∧ e = .notImplemented t.toolKind) := by
  cases h with
  | ran hkind hrun => simp [hkind, hrun, ToolKind.uncallable]
  | unstarted hkind hrun => simp [hkind, hrun, ToolKind.uncallable]
  | answered hkind => simp [hkind, ToolKind.uncallable]
  | @unimplemented kind hkind hnone =>
    have hshell : kind ≠ .shell := fun hshell => by
      simp [hshell, ToolKind.uncallable] at hnone
    simp [hkind, hnone, hshell, eq_comm]

/-- A command with arguments begins with the command. -/
theorem Tool.command_prefix (t : Tool) (args : ToolArguments) :
    t.command.toList <+: (t.commandFor args).toList := by
  rw [Tool.commandFor, commandWith]
  split
  · exact List.prefix_rfl
  · rw [String.append_assoc, String.toList_append]
    exact List.prefix_append _ _

/-- A command that is not blank stays so with arguments behind it. -/
theorem Tool.commandFor_not_allBlank {t : Tool} (h : ¬ Text.AllBlank t.command)
    (args : ToolArguments) : ¬ Text.AllBlank (t.commandFor args) :=
  fun hall => h fun c hc => hall c ((t.command_prefix args).subset hc)

namespace Registry

/-- A skill that a consistent registry holds is found under its own name. -/
theorem Consistent.find_of_mem {r : Registry} (h : Consistent r) {s : Skill}
    (hs : s ∈ r.skills) : r.find s.name = .ok s := by
  have hopen : r.initialized = true := by
    by_contra hshut
    rw [h.shut (by simpa using hshut)] at hs
    exact List.not_mem_nil hs
  obtain ⟨u, hu⟩ := (exists_find_iff r s.name).mpr
    ⟨hopen, (mem_namesOf_iff s.name r.skills).mpr ⟨s, hs, rfl⟩⟩
  obtain ⟨-, hfound⟩ := (find_eq_ok_iff r s.name u).mp hu
  have hname : u.name = s.name := by simpa using List.find?_some hfound
  have hsame : u = s :=
    List.inj_on_of_nodup_map h.nodup (List.mem_of_find?_eq_some hfound) hs hname
  exact hsame ▸ hu

/-- What it means that a tool of a held skill is reachable by the names of the skill and its own.
It is the first tool of its name, and both readings of its kind agree. A call dispatches it and no
other tool, and fails only with an error of the executor, or because its kind cannot be called. What
a shell tool runs begins with its command and is not blank. -/
structure Reachable (r : Registry) (s : Skill) (i : ℕ) (t : Tool) : Prop where
  found : s.manifest.findTool? t.name = some t
  first : s.manifest.tools.findIdx (fun u => u.name = t.name) = i
  kind : ToolKind.ofName? t.kind = some t.toolKind
  dispatched : ∀ {σ : Type} (run : Executor σ) (args : ToolArguments) (st : σ),
    Dispatched run s t args st (r.callTool run s.name t.name args st)
  named : ∀ {σ : Type} (run : Executor σ) (args : ToolArguments) (st : σ) (e : Error),
    (e.isNotFound = true ∨ ∃ text, e = .invalidArgument text) →
    (r.callTool run s.name t.name args st).1 = .error e →
      t.toolKind = .shell ∧ (run (t.commandFor args) st).1 = .error e
  unimplemented : ∀ {σ : Type} (run : Executor σ) (args : ToolArguments) (st : σ)
    (kind : ToolKind),
    (r.callTool run s.name t.name args st).1 = .error (.notImplemented kind) ↔
      (t.toolKind ∈ [.http, .script, .custom] ∧ kind = t.toolKind) ∨
        (t.toolKind = .shell ∧ (run (t.commandFor args) st).1 = .error (.notImplemented kind))
  command : t.toolKind = .shell → ∀ args : ToolArguments,
    t.command.toList <+: (t.commandFor args).toList ∧ ¬ Text.AllBlank (t.commandFor args)

/-- After a run that was handed loaded skills only, every tool of every held skill is reachable by
its own name. -/
theorem reachable_run (ops : List Operation) (h : ∀ s ∈ offered ops, s.loaded = true) :
    ∀ s ∈ (new.run ops).skills, ∀ (i : ℕ) (hi : i < s.manifest.tools.length),
      Reachable (new.run ops) s i s.manifest.tools[i] := by
  intro s hs i hi
  have hconsistent := consistent_run ops
  have hloaded := loaded_run ops h s hs
  -- What was registered is valid, so its tools have distinct names and each is found by its own.
  have hdefect := (Manifest.validate_eq_ok_iff s.manifest).mp (hconsistent.valid s hs)
  obtain ⟨hnodup, hfit⟩ := Manifest.tools_of_defect?_eq_none hdefect
  obtain ⟨hfound, hfirst⟩ := Manifest.findTool?_getElem hnodup hi
  have ht := hfit _ (List.getElem_mem hi)
  have hcall {σ : Type} (run : Executor σ) (args : ToolArguments) (st : σ) :
      Dispatched run s s.manifest.tools[i] args st
        ((new.run ops).callTool run s.name s.manifest.tools[i].name args st) := by
    rw [Registry.callTool, hconsistent.find_of_mem hs]
    exact callTool_dispatched run args st hloaded hfound
  exact {
    found := hfound
    first := hfirst
    kind := ht.kind
    dispatched := hcall
    named := fun run args st e hnamed herror => by
      rcases ((hcall run args st).error_iff e).mp herror with hshell | ⟨-, rfl⟩
      · exact hshell
      · simp [Error.isNotFound] at hnamed
    unimplemented := fun run args st kind => by
      rw [(hcall run args st).error_iff, or_comm, Error.notImplemented.injEq]
      rfl
    command := fun hshell args =>
      ⟨Tool.command_prefix _ args, Tool.commandFor_not_allBlank (ht.command hshell) args⟩ }

/-- A skill with a tool of each of three kinds, one of them declared between blanks. -/
def almanac : Skill where
  manifest := {
    name := "almanac", description := "Dates and tides.", version := defaultVersion
    author := none, tags := [], prompts := [], location := none
    tools := [⟨"tide", "Asks a server.", "http", "https://tides", []⟩,
      ⟨"today", "Prints the date.", " shell ", "date", [⟨"format", "+%F"⟩]⟩,
      ⟨"say", "Repeats.", "builtin", "echo", []⟩] }
  loaded := true
  loadTime := none
  extensions := .empty

/-- The registration of that skill, once in vain. -/
def twice : List Operation := [.register almanac, .register almanac]

/-- Its second tool is reachable, and a call of it runs the command with the default argument. -/
theorem reachable_run_almanac :
    (∀ s ∈ offered twice, s.loaded = true) ∧ almanac ∈ (new.run twice).skills ∧
      Reachable (new.run twice) almanac 1 ⟨"today", "Prints the date.", " shell ", "date",
        [⟨"format", "+%F"⟩]⟩ ∧
      (new.run twice).callTool (fun command log => (.ok ⟨"", 0⟩, command :: log)) "almanac" "today"
        (.named []) [] = (.ok ⟨true, "", 0⟩, ["date +%F"]) := by
  have hloaded : ∀ s ∈ offered twice, s.loaded = true := by
    intro s hs
    have hsame : s = almanac := by simpa [offered, twice, Operation.offered] using hs
    rw [hsame]
    rfl
  have hheld : (new.run twice).skills = [almanac] := by decide +kernel
  have hmem : almanac ∈ (new.run twice).skills := by simp [hheld]
  refine ⟨hloaded, hmem, reachable_run twice hloaded almanac hmem 1 (by decide), ?_⟩
  rfl

end Registry

end Repertoire
