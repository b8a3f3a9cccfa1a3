import Repertoire.Settings.Basic
import Repertoire.Shell.Run
import Repertoire.Tools.Dispatch

/-!
# Running shell tools

A shell tool is run as a script in a directory, with empty input. Its output is what it printed
followed by its complaints, cut to a number of bytes without splitting a character. A script that
takes longer than it may is given up.
-/

namespace Repertoire

open Repertoire.Text

/-- The limits under which scripts run. Time is in milliseconds. -/
structure ShellLimits where
  timeout : Option Nat
  maxOutputBytes : Nat
  workingDir : Option String
deriving DecidableEq, Repr

namespace ShellLimits

/-- The limits that settings give. -/
def ofSettings (settings : ExecSettings) : ShellLimits :=
  ⟨settings.timeoutSecs.map (· * 1000), settings.maxOutputBytes, settings.workingDir⟩

end ShellLimits

namespace SystemShell

/-- What stands behind an output that was cut. -/
def notice : String := "\n... [output truncated]"

/-- A text cut to a number of bytes, at the last boundary that is not behind it; a notice tells that
it was cut. It fails where no boundary is found. -/
def truncate? (limit : Nat) (text : String) : Option String :=
  if text.utf8ByteSize ≤ limit then some text
  else do
    let last ← boundaryUpTo? text limit
    let kept ← keepBytes? text last
    return kept ++ notice

/-- A text cut to a number of bytes, which never fails. -/
def truncate (limit : Nat) (text : String) : String :=
  (truncate? limit text).getD text

/-- Milliseconds as seconds, without zeros at the end of the fraction. -/
def secondsText (milliseconds : Nat) : String :=
  let fraction := dropTail (· = '0') (padded 3 (milliseconds % 1000)).toList
  toString (milliseconds / 1000) ++
    if fraction.isEmpty then "" else "." ++ String.ofList fraction

/-- The outcome of a script that was given up. -/
def timedOut (limit : Nat) : ShellOutput :=
  ⟨"command timed out after " ++ secondsText limit ++ "s", ToolResult.noExitCode⟩

/-- A time in nanoseconds is beyond the limit. No script is quick enough for a limit of zero. -/
def isBeyond (limit : Nat) (elapsed : Nat) : Bool := limit * 1000000 ≤ elapsed

/-- The number of steps that a script may take. -/
def stepLimit : Nat := 20000

/-- The session in which a script starts. -/
def start (env : Environment) (fs : FileSystem) : Shell.Session :=
  .start fs env.bindings

/-- The channels of a script: its output goes to the first sink, its complaints to the second. -/
def channels : Shell.Channels := ⟨.empty, 0, 1⟩

/-- The code that a script ends with: that of its last command, unless it ended without one. -/
def exitCode (flow : Shell.Flow) (s : Shell.Session) : Int :=
  match flow with
  | .ends status => status
  | .killed _ => ToolResult.noExitCode
  | _ => s.status

/-- What a session printed. -/
def outputOf (s : Shell.Session) : String :=
  lenient (s.written 0).toList ++ lenient (s.written 1).toList

/-- The script never ends. -/
def isEndless : Shell.Flow → Bool
  | .writes .. => true
  | .runs => true
  | _ => false

/-- The outcome of a script, given how it left its session. -/
def judge (limits : ShellLimits) (flow : Shell.Flow) (s : Shell.Session) :
    Except Error ShellOutput :=
  match limits.timeout with
  | some limit =>
    if isEndless flow || isBeyond limit s.await.elapsed then .ok (timedOut limit)
    else .ok ⟨truncate limits.maxOutputBytes (outputOf s), exitCode flow s⟩
  | none =>
    if isEndless flow then .error (.message "the command does not end")
    else .ok ⟨truncate limits.maxOutputBytes (outputOf s), exitCode flow s⟩

/-- The place where scripts run. -/
def startPlace (limits : ShellLimits) (fs : FileSystem) : Except FileFault Place :=
  match limits.workingDir with
  | none => .ok fs.workingDir
  | some dir =>
    match fs.lookUp? dir with
    | .ok (place, .directory) => .ok place
    | .ok _ => .error .notDirectory
    | .error fault => .error fault

/-- The executor that runs scripts under limits. -/
def executor (env : Environment) (limits : ShellLimits) : Executor FileSystem := fun command fs =>
  match startPlace limits fs with
  | .error fault => (.error (.io fault), fs)
  | .ok place =>
    if command.toList.contains '\x00' then (.error (.io .badName), fs)
    else
      let (flow, s) := Shell.runCommand stepLimit channels command
        (start env { fs with workingDir := place })
      (judge limits flow s, { s.files with workingDir := fs.workingDir })

end SystemShell

end Repertoire
