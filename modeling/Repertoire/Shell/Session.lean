import Repertoire.Environment
import Repertoire.FileSystem.Write
import Repertoire.Shell.Field
import Repertoire.Shell.Stream
import Repertoire.Shell.Variables
import Repertoire.Text.Utf8

/-!
# Sessions

A session holds what commands can change: files, variables, the status of the last command, and
the time spent so far. What commands write goes into numbered sinks: one for the output of the
script, one for its complaints, and one for every pipe, redirection or command whose output is
wanted.
-/

namespace Repertoire.Shell

open Repertoire.Text

/-- What commands can change. The name and the arguments are those of the script; what a script is
about stands in front of the shell's complaints about it. The line is that of the current command,
the loops are those around it. Times are in nanoseconds; commands in the background are busy until
a time of their own. -/
structure Session where
  files : FileSystem
  bindings : Variables
  exported : List String
  name : String
  arguments : List String
  about : String
  status : Nat
  line : Nat
  loops : Nat
  sinks : List ByteArray
  elapsed : Nat
  busyUntil : Nat

/-- Where a command reads and writes. -/
structure Channels where
  input : Stream
  output : Nat
  complaints : Nat

/-- How a command leaves the script: going on, leaving loops or starting the next round of one,
ended with a status, killed by a signal, writing to a sink without end, or running without end. -/
inductive Flow where
  | goes
  | leaves (again : Bool) (loops : Nat)
  | ends (status : Nat)
  | killed (signal : Nat)
  | writes (sink : Nat) (cycle : List UInt8)
  | runs
deriving DecidableEq, Repr

namespace Flow

/-- How a loop is left when a round of it has left with a flow; nothing when the next round
comes. -/
def afterRound : Flow → Option Flow
  | .goes => none
  | .leaves again loops =>
    if 1 < loops then some (.leaves again (loops - 1)) else if again then none else some .goes
  | flow => some flow

end Flow

/-- The process number of a session. -/
def processNumber : String := "1"

/-- The name of the shell. -/
def shellName : String := "sh"

namespace Session

/-- A session in which a script starts. -/
def start (files : FileSystem) (bindings : Variables) : Session :=
  ⟨files, bindings, bindings.map Prod.fst, shellName, [], "", 0, 1, 0,
    [ByteArray.empty, ByteArray.empty], 0, 0⟩

/-- The session with the status of a command. -/
def withStatus (s : Session) (status : Nat) : Session := { s with status := status }

/-- The session with a variable set. -/
def setVariable (s : Session) (name value : String) : Session :=
  { s with bindings := s.bindings.insert name value }

/-- The session with a new sink, and its number. -/
def newSink (s : Session) : Nat × Session :=
  (s.sinks.length, { s with sinks := s.sinks ++ [ByteArray.empty] })

/-- What was written to a sink. -/
def written (s : Session) (sink : Nat) : ByteArray := (s.sinks[sink]?).getD ByteArray.empty

/-- Writes bytes to a sink. -/
def write (s : Session) (sink : Nat) (bytes : List UInt8) : Session :=
  { s with sinks := s.sinks.modify sink fun old => old ++ ⟨bytes.toArray⟩ }

/-- Writes a line of text to a sink. -/
def writeLine (s : Session) (sink : Nat) (text : String) : Session :=
  s.write sink (text ++ "\n").toUTF8.toList

/-- Writes a stream to a sink; one without an end holds the command there. -/
def writeStream (s : Session) (sink : Nat) (stream : Stream) : Flow × Session :=
  (if stream.isEndless then .writes sink stream.cycle else .goes, s.write sink stream.bytes)

/-- The session after a complaint of the shell about a line. -/
def complainAt (s : Session) (channels : Channels) (line : Nat) (words : String) : Session :=
  s.writeLine channels.complaints (s.name ++ ": " ++ toString line ++ ": " ++ words)

/-- The session after a complaint about the current line. -/
def complain (s : Session) (channels : Channels) (status : Nat) (words : String) : Session :=
  (s.complainAt channels s.line words).withStatus status

/-- The session after a complaint of the shell about the script. -/
def complainAbout (s : Session) (channels : Channels) (status : Nat) (words : String) : Session :=
  s.complain channels status (s.about ++ words)

/-- The session after a complaint of a command, which ends the script. -/
def fail (s : Session) (channels : Channels) (words : String) : Flow × Session :=
  (.ends 2, s.complain channels 2 words)

/-- The session after a complaint about the script, which ends it. -/
def failAbout (s : Session) (channels : Channels) (words : String) : Flow × Session :=
  s.fail channels (s.about ++ words)

/-- The value of a parameter, if it has one. -/
def parameter? (s : Session) (name : String) : Option String :=
  match name with
  | "?" => some (toString s.status)
  | "$" => some processNumber
  | "#" => some (toString s.arguments.length)
  | "-" => some ""
  | "@" => if s.arguments.isEmpty then none else some (joinWith " " s.arguments)
  | "*" => if s.arguments.isEmpty then none else some (joinWith " " s.arguments)
  | _ =>
    match name.toNat? with
    | some n => (s.name :: s.arguments)[n]?
    | none => s.bindings.get? name

/-- The value of a parameter, empty if it has none. -/
def parameter (s : Session) (name : String) : String := (s.parameter? name).getD ""

/-- The session after a part that keeps its variables and its directory to itself. -/
def returnTo (before after : Session) : Session :=
  { before with
    files := { after.files with workingDir := before.files.workingDir }
    status := after.status
    sinks := after.sinks
    elapsed := after.elapsed
    busyUntil := after.busyUntil }

/-- How the script goes on after a part that keeps its variables to itself. -/
def leaveSubshell (before : Session) (flow : Flow) (after : Session) : Flow × Session :=
  let s := returnTo before after
  match flow with
  | .ends status => (.goes, s.withStatus status)
  | .leaves .. => (.goes, s)
  | flow => (flow, s)

/-- The session in which a script of its own starts: it knows the variables that are exported. -/
def child (s : Session) (name : String) (arguments : List String) : Session :=
  { s with
    bindings := s.bindings.filter fun (n, _) => s.exported.contains n
    name := name
    arguments := arguments
    about := ""
    status := 0
    line := 1
    loops := 0 }

/-- How a shell calls the end by a signal. -/
def signalWords (signal : Nat) : String :=
  match signal with
  | 9 => "Killed"
  | 15 => "Terminated"
  | _ => "Signal " ++ toString signal

/-- How the script goes on after a script of its own. -/
def leaveChild (before : Session) (channels : Channels) (flow : Flow) (after : Session) :
    Flow × Session :=
  match flow with
  | .killed signal =>
    (.goes, ((returnTo before after).writeLine channels.complaints (signalWords signal)).withStatus
      (128 + signal))
  | flow => leaveSubshell before flow after

/-- The session after commands in the background are done. -/
def await (s : Session) : Session := { s with elapsed := max s.elapsed s.busyUntil }

/-! ### Files for redirections -/

/-- A file that gets what was written to a sink. -/
structure Destination where
  path : String
  sink : Nat
  appends : Bool

/-- Opens a file for a redirection. -/
def openFile (s : Session) (path : String) (appends : Bool) :
    Except FileFault (Destination × Session) :=
  let (sink, s) := s.newSink
  if path = "/dev/null" then .ok (⟨path, sink, appends⟩, s)
  else
    let content := if appends then
        match s.files.readBytes path with
        | .ok bytes => bytes
        | .error _ => ByteArray.empty
      else ByteArray.empty
    match FileSystem.writeFile path content s.files with
    | (.ok (), fs) => .ok (⟨path, sink, appends⟩, { s with files := fs })
    | (.error fault, _) => .error fault

/-- Puts what was written to a sink into its file. -/
def finish (s : Session) (d : Destination) : Session :=
  if d.path = "/dev/null" then s
  else
    match s.files.readBytes d.path with
    | .ok bytes =>
      { s with files := (FileSystem.writeFile d.path (bytes ++ s.written d.sink) s.files).2 }
    | .error _ => s

end Session

namespace Channels

/-- The channels with a descriptor that writes to a sink. -/
def redirect (channels : Channels) (descriptor sink : Nat) : Channels :=
  match descriptor with
  | 1 => { channels with output := sink }
  | 2 => { channels with complaints := sink }
  | _ => channels

/-- The sink that a descriptor writes to. -/
def sink? (channels : Channels) (descriptor : String) : Option Nat :=
  match descriptor with
  | "1" => some channels.output
  | "2" => some channels.complaints
  | _ => none

end Channels

end Repertoire.Shell
