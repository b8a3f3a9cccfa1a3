import Repertoire.Registry
import Repertoire.Skill.Prompt
import Repertoire.Tools.Arguments

/-!
# Calling tools

A tool is called by the name of its skill and its own. Shell tools run through an executor, which
is a parameter: it gets the whole command and may change a state of its own. Builtin tools are
answered here, and the remaining kinds have no way to be called. A command that fails is a
result; an error means that nothing was run, or that the executor could not start.
-/

namespace Repertoire

/-- What a command printed, and the code it ended with. -/
structure ShellOutput where
  output : String
  exitCode : Int
deriving DecidableEq, Repr

/-- The outcome of a call. -/
structure ToolResult where
  success : Bool
  output : String
  exitCode : Int
deriving DecidableEq, Repr

/-- What runs shell commands, with the state it changes. -/
abbrev Executor (σ : Type) := String → StateM σ (Except Error ShellOutput)

namespace ToolResult

/-- The code of a call that ended with none. -/
def noExitCode : Int := -1

/-- A call that succeeded. -/
def succeeded (output : String) : ToolResult := ⟨true, output, 0⟩

/-- A call that failed. -/
def failed (output : String) (exitCode : Int) : ToolResult := ⟨false, output, exitCode⟩

/-- The outcome of a command. -/
def ofShell (out : ShellOutput) : ToolResult := ⟨out.exitCode == 0, out.output, out.exitCode⟩

end ToolResult

/-- Answers a builtin tool of a skill. -/
def runBuiltin (s : Skill) (t : Tool) (args : ToolArguments) : ToolResult :=
  match Text.trim t.command with
  | "echo" =>
    let text := args.render t
    .succeeded (if text.isEmpty then "Echo from skill" else "Echo from skill: " ++ text)
  | "prompt" => .succeeded s.manifest.prompt
  | other => .failed ("Unknown built-in tool: " ++ other) ToolResult.noExitCode

/-- Calls a tool of a skill. -/
def callTool {σ : Type} (run : Executor σ) (s : Skill) (tool : String) (args : ToolArguments) :
    StateM σ (Except Error ToolResult) :=
  if !s.loaded then pure (.error s.notLoaded)
  else
    match s.manifest.findTool? tool with
    | none => pure (.error (.notFound .tool tool))
    | some t =>
      match t.toolKind with
      | .shell => do
        match ← run (commandWith t.command (args.render t)) with
        | .ok out => return .ok (.ofShell out)
        | .error e => return .error e
      | .builtin => pure (.ok (runBuiltin s t args))
      | .http => pure (.error (.notImplemented .http))
      | .script => pure (.error (.notImplemented .script))
      | .custom => pure (.error (.notImplemented .custom))

/-- Calls a tool of a registered skill. -/
def Registry.callTool {σ : Type} (run : Executor σ) (r : Registry) (skill tool : String)
    (args : ToolArguments) : StateM σ (Except Error ToolResult) :=
  match r.find skill with
  | .error e => pure (.error e)
  | .ok s => Repertoire.callTool run s tool args

end Repertoire
