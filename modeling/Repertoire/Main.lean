import Repertoire.CommandLine.Run
import Repertoire.CommandLine.Snapshot

/-!
# The program

Reads a snapshot of a machine from one line of standard input, runs the command line on it with
no remote within reach, and prints what the command prints.
-/

open Repertoire.CommandLine

/-- Runs the program on the snapshot in standard input. -/
def main (args : List String) : IO UInt32 := do
  let input ← IO.getStdin
  match Snapshot.ofString? (← input.getLine) with
  | none =>
    IO.eprintln "the snapshot is malformed"
    return 2
  | some snapshot =>
    let outcome := run snapshot.env (fun _ => .unreachable) snapshot.files args
    IO.print outcome.output
    IO.eprint outcome.complaint
    return outcome.code.toUInt32
