import Repertoire.Catalog.Basic
import Repertoire.CommandLine.Arguments
import Repertoire.CommandLine.VariableFile
import Repertoire.Manifest.Json
import Repertoire.Shell.System
import Repertoire.Skill.Summary
import Repertoire.Tools.Host

/-!
# Running the command line

Each command loads the skills that the settings let it find, does its work, and prints. A command
that fails prints its error. Loading skills never fails because of a skill: those that cannot be
used are left out.
-/

namespace Repertoire.CommandLine

open Repertoire.Text

/-- Why a command fails. -/
inductive CommandError where
  | error (cause : Error)
  | malformedPair (pair : String)
  | pairsAndRaw
  | toolFailed (tool : String) (exitCode : Int)
deriving DecidableEq, Repr

/-- What the program printed, the code it ended with, and the file system afterwards. -/
structure Outcome where
  code : Nat
  output : String
  complaint : String
  files : FileSystem

/-- What a command printed, and why it failed if it did. -/
structure Report where
  output : String
  failure : Option CommandError
  files : FileSystem

namespace CommandError

/-- The message of an error. -/
def text : CommandError → String
  | .error cause => cause.text
  | .malformedPair pair => "invalid --arg '" ++ pair ++ "': expected KEY=VALUE"
  | .pairsAndRaw => "use either --arg KEY=VALUE or raw arguments, not both"
  | .toolFailed tool code => "tool '" ++ tool ++ "' failed with exit code " ++ toString code

/-- The causes behind an error. -/
def causes : CommandError → List String
  | .error (.readFailed _ fault) => [fault.text]
  | _ => []

/-- An error as it is printed, with the causes behind it. -/
def complaint (e : CommandError) : String :=
  "Error: " ++ e.text ++
    (if e.causes.isEmpty then ""
      else "\n\nCaused by:" ++ String.join (e.causes.map fun cause => "\n    " ++ cause)) ++ "\n"

end CommandError

/-- What commands work with. -/
structure Context where
  env : Environment
  given : GivenDirectories
  settings : Settings
  remote : CatalogSource → RemoteAnswer

namespace Context

/-- The catalog that the settings describe. -/
def catalog (c : Context) : Catalog := .ofSettings c.env c.given c.settings c.remote

/-- The paths of the directories in which skills are looked for. -/
def searchPaths (c : Context) (fs : FileSystem) : List String :=
  (Discovery.searchPaths c.settings.skills (FileSystem.placePath fs.workingDir)
    (Location.dataDir c.env c.given)).map SearchPath.path

/-- The skills that the settings let be found: those of the directories in order, and those of
the catalog last. -/
def loadRegistry (c : Context) (fs : FileSystem) : Except Error Registry :=
  if !c.settings.skills.enabled then .ok .new
  else
    match Discovery.scanAll fs .new (c.searchPaths fs) with
    | (.error e, _) => .error e
    | (.ok _, r) =>
      if !c.settings.catalog.enabled then .ok r
      else
        match c.catalog.load fs r with
        | (.error e, _) => .error e
        | (.ok _, r) => .ok r

/-- The skill of a name among those that are found. -/
def findSkill (c : Context) (fs : FileSystem) (name : String) : Except Error Skill :=
  match c.loadRegistry fs with
  | .error e => .error e
  | .ok r => r.find name

end Context

/-- The key and the value of an argument, separated by the first equals sign. -/
def cutPair (pair : String) : Except CommandError (String × Json.Value) :=
  match cutAt? ['='] pair.toList with
  | some (key, value) => .ok (String.ofList key, .string (String.ofList value))
  | none => .error (.malformedPair pair)

/-- The keys and values of arguments, up to the first that is malformed. -/
def cutPairs : List String → Except CommandError (List (String × Json.Value))
  | [] => .ok []
  | pair :: rest =>
    match cutPair pair with
    | .error e => .error e
    | .ok p =>
      match cutPairs rest with
      | .error e => .error e
      | .ok ps => .ok (p :: ps)

/-- The arguments of a call: pairs, of which the last with a key counts, or raw words. -/
def toolArguments (pairs raw : List String) : Except CommandError ToolArguments :=
  if !pairs.isEmpty then
    if !raw.isEmpty then .error .pairsAndRaw
    else
      match cutPairs pairs with
      | .error e => .error e
      | .ok ps => .ok (.named (Json.settle ps))
  else if raw.isEmpty then .ok .none
  else .ok (.raw (joinWith " " raw))

/-- A report of what was printed. -/
def reported (fs : FileSystem) (output : String) : Report := ⟨output, none, fs⟩

/-- A report of a failure before anything was printed. -/
def failed (fs : FileSystem) (e : CommandError) : Report := ⟨"", some e, fs⟩

/-- A report of a result. -/
def report {α : Type} (fs : FileSystem) (result : Except Error α) (output : α → String) : Report :=
  match result with
  | .ok a => reported fs (output a)
  | .error e => failed fs (.error e)

/-- The line of a skill in a list. -/
def listLine (s : Skill) : String :=
  "  " ++ s.name ++ " (" ++ s.manifest.version ++ ") - " ++ s.manifest.description ++ "\n"

/-- A list of skills. -/
def listText (verbose json : Bool) (skills : List Skill) : String :=
  if json then (Json.Value.array (skills.map fun s => s.manifest.toJson)).pretty ++ "\n"
  else if verbose then Summary.ofSkills skills
  else if skills.isEmpty then "No skills found.\n"
  else String.join (skills.map listLine)

/-- What is printed for a manifest that is fit for use. -/
def validText (path : String) (s : Skill) : String :=
  path ++ " is valid: skill '" ++ s.name ++ "' with " ++ toString s.manifest.tools.length ++
    " tool(s)\n"

/-- The definitions of the tools of a skill. -/
def toolsText (s : Skill) : String :=
  (Json.Value.array (s.manifest.tools.map fun t => t.definition.toJson)).pretty ++ "\n"

/-- An output with a line end behind it, unless it is empty or has one. -/
def endedLine (output : String) : String :=
  if output.isEmpty || output.toList.getLast? = some '\n' then output else output ++ "\n"

/-- What is printed for a local copy that was to be brought in step. -/
def syncText (dir : String) (outcome : SyncOutcome) : String :=
  let words := match outcome with
    | .skipped => "up to date"
    | .cloned => "cloned"
    | .pulled => "updated"
  "Catalog " ++ words ++ ": " ++ dir ++ "\n"

/-- Calls a tool. -/
def execTool (c : Context) (fs : FileSystem) (skill tool : String) (pairs raw : List String) :
    Report :=
  match toolArguments pairs raw with
  | .error e => failed fs e
  | .ok args =>
    match c.findSkill fs skill with
    | .error e => failed fs (.error e)
    | .ok s =>
      match callTool (SystemShell.executor c.env (.ofSettings c.settings.exec)) s tool args fs with
      | (.error e, fs) => failed fs (.error e)
      | (.ok result, fs) =>
        ⟨endedLine result.output,
          if result.success then none else some (.toolFailed tool result.exitCode), fs⟩

/-- Carries out a command. -/
def perform (c : Context) (fs : FileSystem) : Action → Report
  | .list verbose json =>
    report fs (c.loadRegistry fs >>= Registry.list) (listText verbose json)
  | .info name => report fs (c.findSkill fs name) Summary.ofSkill
  | .validate path =>
    report fs
      (do
        let s ← Skill.load fs path
        s.validate
        return s)
      (validText path)
  | .prompt none => report fs (c.loadRegistry fs >>= Registry.list) Prompt.system
  | .prompt (some name) => report fs (c.findSkill fs name) fun s => s.manifest.prompt
  | .tools name => report fs (c.findSkill fs name) toolsText
  | .json name => report fs (c.findSkill fs name) fun s => s.manifest.toJsonText ++ "\n"
  | .exec skill tool pairs raw => execTool c fs skill tool pairs raw
  | .sync force =>
    let run := c.catalog.sync force fs
    report run.files run.outcome (syncText c.catalog.dir)

/-- What is printed when help is asked for. -/
def helpText : String :=
  "Usage: skillhost [OPTIONS] skills <COMMAND>\n\nCommands: " ++
    joinWith ", " Level.actionNames ++ "\n"

/-- Runs the program with its arguments. -/
def run (env : Environment) (remote : CatalogSource → RemoteAnswer) (fs : FileSystem)
    (args : List String) : Outcome :=
  let env := VariableFile.load fs env
  match Request.ofArguments env args with
  | .error .help => ⟨0, helpText, "", fs⟩
  | .error .misuse => ⟨2, "", helpText, fs⟩
  | .ok request =>
    let given : GivenDirectories := ⟨request.configDir, request.dataDir⟩
    let context : Context := ⟨env, given, Settings.discover fs env given, remote⟩
    let r := perform context fs request.action
    match r.failure with
    | none => ⟨0, r.output, "", r.files⟩
    | some e => ⟨1, r.output, e.complaint, r.files⟩

end Repertoire.CommandLine
