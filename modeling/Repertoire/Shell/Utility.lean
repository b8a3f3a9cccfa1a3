import Repertoire.FileSystem.Read
import Repertoire.Shell.Printf
import Repertoire.Shell.Stream
import Repertoire.Shell.Test

/-!
# Utilities

Commands that read their input and arguments and print something, without changing the shell that
runs them or its files. Some of them belong to the shell, which complains in its own name; the
others are programs of their own.
-/

namespace Repertoire.Shell

open Repertoire.Text

/-- What a utility printed, the lines of its complaints, and its status. -/
structure Printed where
  output : Stream
  complaints : List String
  status : Nat

namespace Printed

/-- A utility that succeeded. -/
def ofStream (output : Stream) : Printed := ⟨output, [], 0⟩

/-- A utility that only has a status. -/
def silent (status : Nat) : Printed := ⟨.empty, [], status⟩

/-- A utility that complained. -/
def complaint (status : Nat) (line : String) : Printed := ⟨.empty, [line], status⟩

/-- A program that complained about how it was called. -/
def misused (program words : String) : Printed :=
  ⟨.empty, [program ++ ": " ++ words, "Try '" ++ program ++ " --help' for more information."], 1⟩

end Printed

namespace Utility

/-- A text with a line end. -/
def line (text : String) : Stream := .ofText (text ++ "\n")

/-- What a path leads to as a stream; the two devices have no place in the file system. -/
def open? (fs : FileSystem) (path : String) : Except String Stream :=
  if path = "/dev/zero" then .ok (.forever [0])
  else if path = "/dev/null" then .ok .empty
  else
    match fs.readBytes path with
    | .ok bytes => .ok (.ofBytes bytes.toList)
    | .error .isDirectory => .error "Is a directory"
    | .error .notDirectory => .error "Not a directory"
    | .error _ => .error "No such file or directory"

/-- Prints its arguments with escapes. -/
def echo (args : List String) : Printed :=
  let (words, ending) : List String × List UInt8 := match args with
    | "-n" :: rest => (rest, [])
    | rest => (rest, [10])
  let (bytes, cut) := Escape.text (joinWith " " words)
  .ofStream (.ofBytes (if cut then bytes else bytes ++ ending))

/-- Prints by a format with arguments. -/
def formatted : List String → Printed
  | [] => .complaint 2 "printf: usage: printf format [arg ...]"
  | format :: args =>
    let g := Printf.print format args
    ⟨.ofBytes g.bytes, g.complaints.map ("printf: " ++ ·),
      if g.hasFailed then 2 else if g.complaints.isEmpty then 0 else 1⟩

/-- Prints its arguments by a format, which starts with a dash only behind a mark. -/
def printf (args : List String) : Printed :=
  match args with
  | "--" :: rest => formatted rest
  | format :: _ =>
    match format.toList with
    | '-' :: c :: _ => .complaint 2 ("printf: Illegal option -" ++ c.toString)
    | _ => formatted args
  | [] => formatted []

/-- Files one behind the other; the input when there are none, or for a dash. -/
def cat (fs : FileSystem) (input : Stream) (paths : List String) : Printed :=
  (if paths.isEmpty then ["-"] else paths).foldl (fun done path =>
    match if path = "-" then .ok input else open? fs path with
    | .ok s => { done with output := done.output.append s }
    | .error cause =>
      ⟨done.output, done.complaints ++ ["cat: " ++ path ++ ": " ++ cause], 1⟩)
    (.silent 0)

/-- The first lines of bytes. -/
def firstLines : Nat → List UInt8 → List UInt8
  | 0, _ => []
  | _, [] => []
  | n + 1, b :: bs => b :: (if b = 10 then firstLines n bs else firstLines (n + 1) bs)

/-- The last lines of bytes. -/
def lastLines (n : Nat) (bytes : List UInt8) : List UInt8 :=
  let ended := bytes.getLast? = some 10
  let lines := bytes.count 10 + if ended || bytes.isEmpty then 0 else 1
  bytes.drop (firstLines (lines - n) bytes).length

/-- How much of a file is asked for. -/
inductive Amount where
  | lines (count : Nat)
  | bytes (count : Nat)

/-- A count in its text. -/
def count? (text : String) : Option Nat := number? 10 text.toList

/-- The amount that arguments ask for, ten lines by default, and the arguments behind it. -/
def amount (program : String) (args : List String) : Except Printed (Amount × List String) :=
  let lines (n : String) (rest : List String) : Except Printed (Amount × List String) :=
    match count? n with
    | some n => .ok (.lines n, rest)
    | none => .error (.complaint 1 (program ++ ": invalid number of lines: '" ++ n ++ "'"))
  let bytes (n : String) (rest : List String) : Except Printed (Amount × List String) :=
    match count? n with
    | some n => .ok (.bytes n, rest)
    | none => .error (.complaint 1 (program ++ ": invalid number of bytes: '" ++ n ++ "'"))
  match args with
  | "-c" :: n :: rest => bytes n rest
  | "-n" :: n :: rest => lines n rest
  | ["-c"] => .error (.misused program "option requires an argument -- 'c'")
  | ["-n"] => .error (.misused program "option requires an argument -- 'n'")
  | arg :: rest =>
    match arg.toList with
    | '-' :: 'c' :: n => bytes (String.ofList n) rest
    | '-' :: 'n' :: n => lines (String.ofList n) rest
    | '-' :: d :: n => lines (String.ofList (d :: n)) rest
    | _ => .ok (.lines 10, arg :: rest)
  | [] => .ok (.lines 10, [])

/-- The bytes of a stream, enough for a number of lines if it has no end. -/
def finite (count : Nat) (s : Stream) : List UInt8 :=
  if s.isEndless then s.take (s.bytes.length + s.cycle.length * (count + 1)) else s.bytes

/-- A part of a file or of the input that arguments ask for. -/
def portion (program : String) (cut : Amount → Stream → List UInt8) (fs : FileSystem)
    (input : Stream) (args : List String) : Printed :=
  match amount program args with
  | .error p => p
  | .ok (amount, paths) =>
    let source : Except String Stream := match paths with
      | [] => .ok input
      | path :: _ => open? fs path
    match source with
    | .ok s => .ofStream (.ofBytes (cut amount s))
    | .error cause =>
      .complaint 1
        (program ++ ": cannot open '" ++ paths.headD "" ++ "' for reading: " ++ cause)

/-- The front part of a stream. -/
def front (amount : Amount) (s : Stream) : List UInt8 :=
  match amount with
  | .bytes n => s.take n
  | .lines n => firstLines n (finite n s)

/-- The last part of a stream. -/
def back (amount : Amount) (s : Stream) : List UInt8 :=
  match amount with
  | .bytes n => s.bytes.drop (s.bytes.length - n)
  | .lines n => lastLines n s.bytes

/-- The bytes of a set, in which a dash between two bytes stands for those between them. -/
def setBytes : List UInt8 → List UInt8
  | a :: 45 :: b :: rest =>
    (List.range (b.toNat + 1 - a.toNat)).map (fun i => (a.toNat + i).toUInt8) ++ setBytes rest
  | b :: rest => b :: setBytes rest
  | [] => []

/-- The bytes of a set with escapes; the first argument bounds the number of steps. -/
def unescape : Nat → List Char → List UInt8
  | 0, _ => []
  | _ + 1, [] => []
  | n + 1, '\\' :: cs =>
    let (bytes, cs) := Escape.escape false cs
    bytes ++ unescape n cs
  | n + 1, c :: cs => Escape.bytesOf c ++ unescape n cs

/-- The bytes that an argument lists; some sets have names. -/
def byteSet (arg : String) : List UInt8 :=
  let listed := match arg with
    | "[:lower:]" => "a-z"
    | "[:upper:]" => "A-Z"
    | "[:digit:]" => "0-9"
    | "[:space:]" => "\\t-\\r "
    | _ => arg
  setBytes (unescape (listed.length + 1) listed.toList)

/-- The byte that stands for a byte when one set replaces another. -/
def replaceByte (old new : List UInt8) (b : UInt8) : UInt8 :=
  match old.findIdx? (· = b) with
  | none => b
  | some i => (new[i]?).getD (new.getLast?.getD b)

/-- The input with the bytes of a set replaced or left out. -/
def tr (input : Stream) : List String → Printed
  | ["-d", old] =>
    let old := byteSet old
    .ofStream (input.flatMap fun b => if old.contains b then [] else [b])
  | [old, new] =>
    let old := byteSet old
    let new := byteSet new
    .ofStream (input.flatMap fun b => [replaceByte old new b])
  | _ => .misused "tr" "missing operand"

/-- The number of words of bytes; the first argument tells whether a word goes on. -/
def countWords : Bool → List UInt8 → Nat
  | _, [] => 0
  | inWord, b :: bs =>
    let isBlank := b = 32 || (9 ≤ b && b ≤ 13)
    (if isBlank || inWord then 0 else 1) + countWords (!isBlank) bs

/-- The number of bytes, lines or words of a file or of the input. -/
def wc (fs : FileSystem) (input : Stream) : List String → Printed
  | flag :: paths =>
    let measure? : Option (List UInt8 → Nat) := match flag with
      | "-c" => some List.length
      | "-l" => some (List.count 10)
      | "-w" => some (countWords false)
      | _ => none
    match measure?, paths with
    | some measure, [] => .ofStream (line (toString (measure input.bytes)))
    | some measure, path :: _ =>
      match open? fs path with
      | .ok s => .ofStream (line (toString (measure s.bytes) ++ " " ++ path))
      | .error cause => .complaint 1 ("wc: " ++ path ++ ": " ++ cause)
    | none, _ => .misused "wc" "unknown measure"
  | [] => .misused "wc" "no measure"

/-- Numbers from one on in steps, each on a line. -/
def seqLines (first step : Int) (count : Nat) : String :=
  String.join ((List.range count).map fun (i : Nat) => toString (first + step * i) ++ "\n")

/-- Prints the numbers from one to another. -/
def seq (args : List String) : Printed :=
  let number (text : String) : Except Printed Int :=
    match text.toInt? with
    | some n => .ok n
    | none => .error (.misused "seq" ("invalid floating point argument: '" ++ text ++ "'"))
  let between (first step last : Int) : Printed :=
    let count := if step = 0 then 0 else ((last - first) / step + 1).toNat
    .ofStream (.ofText (seqLines first step count))
  match args.mapM number with
  | .error p => p
  | .ok [last] => between 1 1 last
  | .ok [first, last] => between first 1 last
  | .ok [first, step, last] => between first step last
  | .ok _ => .misused "seq" "missing operand"

/-- Prints a line without end. -/
def yes (args : List String) : Printed :=
  .ofStream (.forever (line (if args.isEmpty then "y" else joinWith " " args)).bytes)

/-- Answers a question; mistakes in it are complained about under a name. -/
def test (fs : FileSystem) (name : String) (args : List String) : Printed :=
  match Test.ask fs args with
  | .ok answer => .silent (if answer then 0 else 1)
  | .error mistake => .complaint 2 (name ++ ": " ++ mistake.message)

/-- Runs a utility of the shell, if there is one of the name. -/
def builtIn? (fs : FileSystem) (name : String) (args : List String) : Option Printed :=
  match name with
  | "echo" => some (echo args)
  | "printf" => some (printf args)
  | "true" => some (.silent 0)
  | ":" => some (.silent 0)
  | "false" => some (.silent 1)
  | "pwd" => some (.ofStream (line (FileSystem.placePath fs.workingDir)))
  | "test" => some (test fs name args)
  | "[" =>
    if (args.getLastD "").startsWith "]" then some (test fs name args.dropLast)
    else some (.complaint 2 "[: missing ]")
  | _ => none

/-- Runs a program, if there is one of the name. -/
def program? (fs : FileSystem) (input : Stream) (name : String) (args : List String) :
    Option Printed :=
  match name with
  | "cat" => some (cat fs input args)
  | "head" => some (portion name front fs input args)
  | "tail" => some (portion name back fs input args)
  | "tr" => some (tr input args)
  | "wc" => some (wc fs input args)
  | "seq" => some (seq args)
  | "yes" => some (yes args)
  | _ => none

end Utility

end Repertoire.Shell
