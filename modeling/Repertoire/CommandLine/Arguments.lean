import Repertoire.Environment
import Repertoire.Text.Cut

/-!
# Arguments of the command line

The command line has three levels: the program, the group of commands for skills, and one of
those commands. Options that concern the whole program may stand on any level, and the deepest
one counts. On one level an option may be given once, unless it is meant to be repeated. Two
dashes by themselves end the options. A directory that is not given is taken from the
environment; an empty one is refused wherever it comes from.
-/

namespace Repertoire.CommandLine

open Repertoire.Text

/-- A command for skills. -/
inductive Action where
  | list (verbose json : Bool)
  | info (name : String)
  | validate (path : String)
  | prompt (name : Option String)
  | tools (name : String)
  | json (name : String)
  | exec (skill tool : String) (pairs raw : List String)
  | sync (force : Bool)
deriving DecidableEq, Repr

/-- What the command line asks for. -/
structure Request where
  action : Action
  configDir : Option String
  dataDir : Option String
deriving DecidableEq, Repr

/-- Why the command line asks for nothing: it is not understood, or it wants help. -/
inductive Refusal where
  | misuse
  | help
deriving DecidableEq, Repr

/-- What may stand on a level. A level with commands has no positional arguments. -/
structure Level where
  flags : List String
  options : List String
  repeatable : List String
  commands : List String
  positionals : Nat
  takesRest : Bool
deriving DecidableEq, Repr

/-- What stands on a level. -/
structure Given where
  flags : List String
  options : List (String × String)
  positionals : List String
  rest : List String
  command : Option (String × List String)
deriving DecidableEq, Repr

namespace Given

/-- Nothing stands on the level. -/
def empty : Given := ⟨[], [], [], [], none⟩

/-- The flag is given. -/
def has (g : Given) (flag : String) : Bool := g.flags.contains flag

/-- The value of an option. -/
def get? (g : Given) (option : String) : Option String :=
  (g.options.find? fun (name, _) => name = option).map Prod.snd

/-- The values of an option that may be repeated. -/
def getAll (g : Given) (option : String) : List String :=
  (g.options.filter fun (name, _) => name = option).map Prod.snd

end Given

namespace Level

/-- The option that names the directory for configuration. -/
def configDir : String := "config-dir"

/-- The option that names the directory for data. -/
def dataDir : String := "data-dir"

/-- A level on which the options of the whole program may stand. -/
def base : Level := ⟨["json-logs"], ["log-level", configDir, dataDir], [], [], 0, false⟩

/-- The text looks like an option, or ends the options. -/
def isOptionLike (arg : String) : Bool :=
  match arg.toList with
  | '-' :: _ :: _ => true
  | _ => false

/-- The name and the value in what follows two dashes. -/
def cutValue (text : List Char) : String × Option String :=
  match cutAt? ['='] text with
  | some (name, value) => (String.ofList name, some (String.ofList value))
  | none => (String.ofList text, none)

/-- Adds the value of an option, which may be given once unless it is repeatable. -/
def addOption (l : Level) (g : Given) (name value : String) : Except Refusal Given :=
  if (g.get? name).isSome && !l.repeatable.contains name then .error .misuse
  else .ok { g with options := g.options ++ [(name, value)] }

/-- Adds a flag, which may be given once. -/
def addFlag (g : Given) (name : String) : Except Refusal Given :=
  if g.has name then .error .misuse else .ok { g with flags := g.flags ++ [name] }

/-- Adds positional arguments; what is too much goes to the rest where the level takes one. -/
def addPositionals (l : Level) (g : Given) : List String → Except Refusal Given
  | [] => .ok g
  | a :: rest =>
    if g.positionals.length < l.positionals then
      addPositionals l { g with positionals := g.positionals ++ [a] } rest
    else if l.takesRest then .ok { g with rest := a :: rest }
    else .error .misuse

/-- Reads the arguments of a level, up to the name of a command of the next one. -/
def read (l : Level) (g : Given) : List String → Except Refusal Given
  | [] => .ok g
  | a :: rest =>
    if l.commands.contains a then .ok { g with command := some (a, rest) }
    else
      match a.toList with
      | ['-', '-'] => addPositionals l g rest
      | '-' :: '-' :: text =>
        match cutValue text with
        | ("help", none) => .error .help
        | (name, some value) =>
          if l.options.contains name then
            match addOption l g name value with
            | .ok g => read l g rest
            | .error e => .error e
          else .error .misuse
        | (name, none) =>
          if l.flags.contains name then
            match addFlag g name with
            | .ok g => read l g rest
            | .error e => .error e
          else if l.options.contains name then
            match rest with
            | value :: rest =>
              if isOptionLike value then .error .misuse
              else
                match addOption l g name value with
                | .ok g => read l g rest
                | .error e => .error e
            | [] => .error .misuse
          else .error .misuse
      | '-' :: 'h' :: _ => .error .help
      | '-' :: _ :: _ => .error .misuse
      | _ =>
        if g.positionals.length < l.positionals then
          read l { g with positionals := g.positionals ++ [a] } rest
        else if l.takesRest then .ok { g with rest := a :: rest }
        else .error .misuse

/-- The level of the program. -/
def program : Level := { base with commands := ["skills", "help"] }

/-- The names of the commands for skills. -/
def actionNames : List String :=
  ["list", "info", "validate", "prompt", "tools", "json", "exec", "sync"]

/-- The level of the commands for skills. -/
def skills : Level := { base with commands := actionNames ++ ["help"] }

/-- The level of a command for skills. -/
def ofAction (name : String) : Level :=
  match name with
  | "list" => { base with flags := base.flags ++ ["verbose", "json"] }
  | "exec" =>
    { base with
      options := base.options ++ ["arg"], repeatable := ["arg"], positionals := 2,
      takesRest := true }
  | "sync" => { base with flags := base.flags ++ ["force"] }
  | _ => { base with positionals := 1 }

end Level

/-- The command of a name with what is given for it. -/
def Action.ofGiven (name : String) (g : Given) : Except Refusal Action :=
  match name, g.positionals with
  | "list", [] =>
    if g.has "verbose" && g.has "json" then .error .misuse
    else .ok (.list (g.has "verbose") (g.has "json"))
  | "info", [name] => .ok (.info name)
  | "validate", [path] => if path.isEmpty then .error .misuse else .ok (.validate path)
  | "prompt", [] => .ok (.prompt none)
  | "prompt", [name] => .ok (.prompt (some name))
  | "tools", [name] => .ok (.tools name)
  | "json", [name] => .ok (.json name)
  | "exec", [skill, tool] => .ok (.exec skill tool (g.getAll "arg") g.rest)
  | "sync", [] => .ok (.sync (g.has "force"))
  | _, _ => .error .misuse

/-- A directory given on some levels, the deepest last, or else by a variable. -/
def directory (env : Environment) (variableName : String) (given : List (Option String)) :
    Except Refusal (Option String) :=
  let everywhere := given.all Option.isSome
  let fromVariable := if everywhere then none else env.get? variableName
  let texts := given.filterMap id
  if texts.contains "" || fromVariable = some "" then .error .misuse
  else .ok (texts.getLast?.or fromVariable)

/-- The variable that names the directory for configuration. -/
def configVariable : String := "SKILLHOST_CONFIG_DIR"

/-- The variable that names the directory for data. -/
def dataVariable : String := "SKILLHOST_DATA_DIR"

/-- The command for help is about a command that exists; the names of commands lead to it. -/
def refusalOfHelp (commands : List (List String)) (about : List String) : Refusal :=
  if about.isEmpty || commands.contains about then .help else .misuse

/-- The commands below the group of commands for skills. -/
def actionPaths : List (List String) := (Level.actionNames ++ ["help"]).map fun name => [name]

/-- The commands below the program. -/
def commandPaths : List (List String) :=
  [["skills"], ["help"]] ++ actionPaths.map fun path => "skills" :: path

/-- What the arguments of the program ask for. -/
def Request.ofArguments (env : Environment) (args : List String) : Except Refusal Request := do
  let top ← Level.program.read .empty args
  match top.command with
  | none => throw .misuse
  | some ("help", about) => throw (refusalOfHelp commandPaths about)
  | some (_, args) =>
    let group ← Level.skills.read .empty args
    match group.command with
    | none => throw .misuse
    | some ("help", about) => throw (refusalOfHelp actionPaths about)
    | some (name, args) =>
      let leaf ← (Level.ofAction name).read .empty args
      let action ← Action.ofGiven name leaf
      let levels := [top, group, leaf]
      let configDir ← directory env configVariable (levels.map fun g => g.get? Level.configDir)
      let dataDir ← directory env dataVariable (levels.map fun g => g.get? Level.dataDir)
      return ⟨action, configDir, dataDir⟩

end Repertoire.CommandLine
