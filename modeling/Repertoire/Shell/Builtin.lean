import Repertoire.Shell.FileProgram
import Repertoire.Shell.Session
import Repertoire.Shell.Token

/-!
# Simple commands by name

Commands that change the session itself, and the way to utilities and programs. A few commands
end the script when they are called wrongly.
-/

namespace Repertoire.Shell

open Repertoire.Text

namespace Session

/-! ### Commands that change the session -/

/-- Goes to a directory. -/
def changeDirectory (s : Session) (channels : Channels) (path : String) : Session :=
  match s.files.lookUp? path with
  | .ok (place, .directory) => { s.withStatus 0 with files := { s.files with workingDir := place } }
  | _ => s.complain channels 2 ("cd: can't cd to " ++ path)

/-- The session after a utility that the shell does not speak for. -/
def afterProgram (s : Session) (channels : Channels) (p : Printed) : Flow × Session :=
  let s := p.complaints.foldl (fun s words => s.writeLine channels.complaints words) s
  (s.withStatus p.status).writeStream channels.output p.output

/-- The session after a utility of the shell. -/
def afterUtility (s : Session) (channels : Channels) (p : Printed) : Flow × Session :=
  let s := p.complaints.foldl (fun s words => s.complainAt channels s.line words) s
  (s.withStatus p.status).writeStream channels.output p.output

/-- The number that an argument of a command writes, which blanks may surround. -/
def argumentNumber? (text : String) : Option Nat :=
  let cs := ((text.toList.dropWhile (· = ' ')).reverse.dropWhile (· = ' ')).reverse
  (number? 10 cs).filter fun n => n < Nat.pow 2 31

/-- Ends the script with the status that an argument gives, or that of the last command. -/
def exit (s : Session) (channels : Channels) (name : String) : List String → Flow × Session
  | [] => (.ends s.status, s)
  | arg :: _ =>
    match argumentNumber? arg with
    | some n => (.ends (n % 256), s.withStatus (n % 256))
    | none => s.fail channels (name ++ ": Illegal number: " ++ arg)

/-- Leaves loops, or starts the next round of one. -/
def leaveLoops (s : Session) (channels : Channels) (name : String) (again : Bool)
    (args : List String) : Flow × Session :=
  let count? := match args with
    | [] => some 1
    | arg :: _ => (argumentNumber? arg).filter (0 < ·)
  match count? with
  | none => s.fail channels (name ++ ": Illegal number: " ++ args.headD "")
  | some count =>
    if s.loops = 0 then (.goes, s.withStatus 0)
    else (.leaves again (min count s.loops), s.withStatus 0)

/-- Leaves out arguments of the script. -/
def shift (s : Session) (channels : Channels) (args : List String) : Flow × Session :=
  match argumentNumber? (args.headD "1") with
  | none => s.fail channels ("shift: Illegal number: " ++ args.headD "")
  | some n =>
    if s.arguments.length < n then s.fail channels "shift: can't shift that many"
    else (.goes, { s.withStatus 0 with arguments := s.arguments.drop n })

/-- Exports variables, which may be set at the same time. -/
def exportAll (s : Session) (channels : Channels) : List String → Flow × Session
  | [] => (.goes, s.withStatus 0)
  | arg :: rest =>
    let (name, value) := match cutAt? ['='] arg.toList with
      | some (name, value) => (name, some (String.ofList value))
      | none => (arg.toList, none)
    if Token.isName name then
      let name := String.ofList name
      let s := (value.map (s.setVariable name)).getD s
      { s with exported := name :: s.exported }.exportAll channels rest
    else s.fail channels ("export: " ++ String.ofList name ++ ": bad variable name")

/-- Takes variables away. -/
def unset (s : Session) (channels : Channels) (args : List String) : Flow × Session :=
  match args.find? fun a => !Token.isName a.toList with
  | some a => s.fail channels ("unset: " ++ a ++ ": bad variable name")
  | none => (.goes, { s.withStatus 0 with bindings := args.foldl .erase s.bindings })

/-- Waits for all commands in the background; there is no way to name one of them. -/
def waitFor (s : Session) (channels : Channels) : List String → Flow × Session
  | [] => (.goes, s.await.withStatus 0)
  | arg :: _ =>
    if (argumentNumber? arg).isSome then (.goes, s.withStatus 127)
    else s.fail channels ("wait: Illegal number: " ++ arg)

/-- The signal that an option names. -/
def signal? (option : String) : Option Nat :=
  match option with
  | "-0" => some 0
  | "-1" | "-HUP" => some 1
  | "-2" | "-INT" => some 2
  | "-9" | "-KILL" => some 9
  | "-15" | "-TERM" => some 15
  | _ => none

/-- Sends a signal, which ends the script if it is sent to its process. -/
def kill (s : Session) (channels : Channels) (args : List String) : Flow × Session :=
  let (signal, targets) := match args with
    | "-s" :: name :: rest => ((signal? ("-" ++ name)).getD 15, rest)
    | option :: rest =>
      match signal? option with
      | some n => (n, rest)
      | none => (15, option :: rest)
    | [] => (15, [])
  match targets.head? with
  | none =>
    (.goes, s.complain channels 2 ("kill: Usage: kill [-s sigspec | -signum | -sigspec] " ++
      "[pid | job]... or\nkill -l [exitstatus]"))
  | some target =>
    if (argumentNumber? target).isNone then
      (.goes, s.complain channels 2 ("kill: Illegal number: " ++ target))
    else if target ≠ processNumber then (.goes, s.complain channels 1 "kill: No such process\n")
    else if signal = 0 then (.goes, s.withStatus 0)
    else (.killed signal, s)

/-- Runs a command that changes the session itself, if the name is one of those. -/
def builtin? (s : Session) (channels : Channels) (name : String) (args : List String) :
    Option (Flow × Session) :=
  match name with
  | "exit" => some (s.exit channels name args)
  | "return" => some (s.exit channels name args)
  | "break" => some (s.leaveLoops channels name false args)
  | "continue" => some (s.leaveLoops channels name true args)
  | "cd" => some (.goes, s.changeDirectory channels ((args.head?).getD (s.parameter "HOME")))
  | "kill" => some (s.kill channels args)
  | "wait" => some (s.waitFor channels args)
  | "unset" => some (s.unset channels args)
  | "export" => some (s.exportAll channels args)
  | "shift" => some (s.shift channels args)
  | "set" =>
    some (.goes, match args with
      | "--" :: rest => { s.withStatus 0 with arguments := rest }
      | _ => s.withStatus 0)
  | _ => none

/-! ### Programs -/

/-- The directories in which programs are. -/
def programPlaces : List String := ["/bin/", "/usr/bin/"]

/-- The name of a program without the directory in which programs are. -/
def programName? (path : String) : Option String :=
  programPlaces.findSome? fun place => (after? place.toList path.toList).map String.ofList

/-- The number of nanoseconds that a text of seconds stands for. -/
def nanoseconds? (text : String) : Option Nat :=
  let cs := text.toList
  let whole := cs.takeWhile isDigit
  let (fraction, unit) := match cs.drop whole.length with
    | '.' :: rest => (rest.takeWhile isDigit, rest.dropWhile isDigit)
    | rest => ([], rest)
  let scale := match unit with
    | [] => some 1
    | ['s'] => some 1
    | ['m'] => some 60
    | ['h'] => some 3600
    | ['d'] => some 86400
    | _ => none
  if whole.isEmpty && fraction.isEmpty then none
  else
    scale.map fun scale =>
      scale * numberOf 10 (whole ++ fraction) * 1000000000 / Nat.pow 10 fraction.length

/-- Spends time. -/
def sleep (s : Session) (channels : Channels) (args : List String) : Flow × Session :=
  match args.find? fun a => (nanoseconds? a).isNone with
  | some a => s.afterProgram channels (.misused "sleep" ("invalid time interval '" ++ a ++ "'"))
  | none =>
    if args.isEmpty then s.afterProgram channels (.misused "sleep" "missing operand")
    else
      (.goes, { s.withStatus 0 with elapsed := (args.filterMap nanoseconds?).foldl (· + ·) s.elapsed })

/-- Runs a program, if there is one of the name. -/
def program? (s : Session) (channels : Channels) (name : String) (args : List String) :
    Option (Flow × Session) :=
  match name, Utility.program? s.files channels.input name args with
  | "sleep", _ => some (s.sleep channels args)
  | _, some p => some (s.afterProgram channels p)
  | _, none =>
    (FileProgram.run? name args s.files).map fun (p, files) =>
      { s with files := files }.afterProgram channels p

/-- The status of a command that is not there. -/
def notFoundStatus : Nat := 127

/-- The status of a command that is no program. -/
def notProgramStatus : Nat := 126

/-- The status and the words for a command that cannot be run. -/
def noCommand (s : Session) (name : String) : Nat × String :=
  if name.isEmpty then (notFoundStatus, ": Permission denied")
  else if name.toList.contains '/' && s.files.holds name then
    (notProgramStatus, name ++ ": Permission denied")
  else (notFoundStatus, name ++ ": not found")

/-- Runs a command by its name, if there is one. -/
def command? (s : Session) (channels : Channels) (name : String) (args : List String) :
    Option (Flow × Session) :=
  match s.builtin? channels name args with
  | some result => some result
  | none =>
    match Utility.builtIn? s.files name args with
    | some p => some (s.afterUtility channels p)
    | none =>
      match programName? name with
      | some own =>
        match Utility.builtIn? s.files own args with
        | some p => some (s.afterProgram channels p)
        | none => s.program? channels own args
      | none => s.program? channels name args

/-- How a command is found: a command of the shell by its name, a program by its path. -/
def whereIs? (s : Session) (channels : Channels) (name : String) : Option String :=
  let own := (programName? name).getD name
  let isOfShell := ["eval", "command", "exec"].contains name ||
    (s.builtin? channels name []).isSome || (Utility.builtIn? s.files name []).isSome
  if isOfShell then some name
  else if own = shellName || (s.program? channels own []).isSome then
    some (if own = name then "/usr/bin/" ++ name else name)
  else none

end Session

end Repertoire.Shell
