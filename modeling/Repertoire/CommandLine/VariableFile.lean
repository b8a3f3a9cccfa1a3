import Repertoire.Environment
import Repertoire.FileSystem.Read
import Repertoire.Text.Blank
import Repertoire.Text.Cut

/-!
# Files of variables

A file with a name and a value on each line, from which variables are taken that the environment
does not have yet. Values may be quoted, also over several lines, and may refer to variables. The
file is looked for in the working directory and in those above it. Reading stops at the first
line that is malformed; what stood before it counts.
-/

namespace Repertoire.VariableFile

open Repertoire.Text

/-- The name of the file. -/
def fileName : String := ".env"

/-- How a line stands after some of its characters. -/
inductive LineState where
  | complete
  | blank
  | escape
  | strong
  | strongEscape
  | weak
  | weakEscape
  | comment
deriving DecidableEq, Repr

/-- The state after a character outside quotes. -/
def openState (c : Char) : LineState :=
  if c = '\\' then .escape
  else if c = '\x22' then .weak
  else if c = '\x27' then .strong
  else .complete

/-- The state after one more character. -/
def LineState.next (state : LineState) (c : Char) : LineState :=
  match state with
  | .blank => if c = '#' then .comment else openState c
  | .complete => if isBlank c && c ≠ '\n' && c ≠ '\r' then .blank else openState c
  | .escape => .complete
  | .weak => if c = '\\' then .weakEscape else if c = '\x22' then .complete else .weak
  | .weakEscape => .weak
  | .strong => if c = '\\' then .strongEscape else if c = '\x27' then .complete else .strong
  | .strongEscape => .strong
  | .comment => .comment

/-- The state after a line, and the part of the line before a comment. -/
def LineState.over : LineState → List Char → LineState × List Char
  | state, [] => (state, [])
  | state, c :: cs =>
    match state.next c with
    | .comment => (.comment, [])
    | state =>
      let (last, kept) := state.over cs
      (last, c :: kept)

/-- The lines of a text with their line ends. -/
def rawLines : List Char → List (List Char)
  | [] => []
  | c :: cs =>
    if c = '\n' then [c] :: rawLines cs
    else
      match rawLines cs with
      | [] => [[c]]
      | l :: ls => (c :: l) :: ls

/-- A line without its line end. -/
def withoutEnd (line : List Char) : List Char :=
  match before? ['\n'] line with
  | some line => dropReturn line
  | none => line

/-- The entries of a file: lines, of which those with an open quote go on in the next one. The
file is cut short when it ends in one of them. -/
def entries : LineState → List Char → List (List Char) → List (Option (List Char))
  | state, _, [] => if state = .complete then [] else [none]
  | state, begun, line :: rest =>
    if (trimFront (begun ++ line)).head? = some '#' then some [] :: entries .complete [] rest
    else
      match state.over line with
      | (.complete, _) => some (withoutEnd (begun ++ line)) :: entries .complete [] rest
      | (.comment, kept) => some (begun ++ kept) :: entries .complete [] rest
      | (state, _) => entries state (begun ++ line) rest

/-- The character can be part of a name. -/
def isNameChar (c : Char) : Bool := c.isAlphanum || c = '_' || c = '.'

/-- A name at the front, and the rest. -/
def scanName (cs : List Char) : Option (List Char × List Char) :=
  match cs with
  | c :: _ =>
    if c.isAlpha || c = '_' then some (cs.takeWhile isNameChar, cs.dropWhile isNameChar) else none
  | [] => none

/-- What stands behind an equals sign at the front. -/
def afterEquals? : List Char → Option (List Char)
  | '=' :: cs => some cs
  | _ => none

/-- How far the reading of a reference to a variable is. -/
inductive Reference where
  | absent
  | bare (name : List Char)
  | braced (name : List Char)
deriving DecidableEq, Repr

/-- How far the reading of a value is. -/
structure ValueState where
  output : List Char
  inStrong : Bool
  inWeak : Bool
  escaped : Bool
  ending : Bool
  reference : Reference
deriving DecidableEq, Repr

namespace ValueState

/-- Before the first character. -/
def start : ValueState := ⟨[], false, false, false, false, .absent⟩

/-- With a character behind the value. -/
def push (s : ValueState) (c : Char) : ValueState := { s with output := s.output ++ [c] }

/-- With the value of a variable behind the value. -/
def put (s : ValueState) (lookup : String → String) (name : List Char) : ValueState :=
  { s with output := s.output ++ (lookup (String.ofList name)).toList, reference := .absent }

/-- After one more character; a malformed value has no further state. A comment ends the value,
which the second part of the result tells. -/
def next (lookup : String → String) (s : ValueState) (c : Char) : Option (ValueState × Bool) :=
  if s.ending then
    if c = ' ' ∨ c = '\t' then some (s, false) else if c = '#' then some (s, true) else none
  else if s.escaped then
    if ['\\', '\x27', '\x22', '$', ' '].contains c then
      some ({ s.push c with escaped := false }, false)
    else if c = 'n' then some ({ s.push '\n' with escaped := false }, false)
    else none
  else if s.inStrong then
    some (if c = '\x27' then { s with inStrong := false } else s.push c, false)
  else
    match s.reference with
    | .bare name =>
      if c.isAlphanum then some ({ s with reference := .bare (name ++ [c]) }, false)
      else if c = '\x7b' ∧ name.isEmpty then some ({ s with reference := .braced [] }, false)
      else if c = '$' then some ({ s.put lookup name with reference := .bare [] }, false)
      else some ((s.put lookup name).push c, false)
    | .braced name =>
      if c = '\x7d' then some (s.put lookup name, false)
      else some ({ s with reference := .braced (name ++ [c]) }, false)
    | .absent =>
      if c = '$' then some ({ s with reference := .bare [] }, false)
      else if s.inWeak then
        some (if c = '\x22' then { s with inWeak := false }
          else if c = '\\' then { s with escaped := true } else s.push c, false)
      else if c = '\x27' then some ({ s with inStrong := true }, false)
      else if c = '\x22' then some ({ s with inWeak := true }, false)
      else if c = '\\' then some ({ s with escaped := true }, false)
      else if c = ' ' ∨ c = '\t' then some ({ s with ending := true }, false)
      else some (s.push c, false)

/-- The value after the last character, unless something is left open. -/
def finish (lookup : String → String) (s : ValueState) : Option String :=
  if s.inStrong || s.inWeak then none
  else
    match s.reference with
    | .absent => some (String.ofList s.output)
    | .bare name => some (String.ofList (s.put lookup name).output)
    | .braced _ => none

end ValueState

/-- The value that characters write. -/
def valueOf (lookup : String → String) : ValueState → List Char → Option String
  | s, [] => s.finish lookup
  | s, c :: cs =>
    match s.next lookup c with
    | none => none
    | some (s, true) => s.finish lookup
    | some (s, false) => valueOf lookup s cs

/-- A name at the front with what stands behind its equals sign. -/
def scanAssigned (cs : List Char) : Option (List Char × List Char) :=
  match scanName cs with
  | none => none
  | some (name, rest) => (afterEquals? (trimFront rest)).map fun rest => (name, rest)

/-- The word that may stand in front of a name, and may be a name itself. -/
def exportWord : List Char := "export".toList

/-- The name of an entry with what stands behind its equals sign. -/
def scanKey (cs : List Char) : Option (List Char × List Char) :=
  match scanName cs with
  | none => none
  | some (name, rest) =>
    match afterEquals? (trimFront rest) with
    | some rest => some (name, rest)
    | none => if name = exportWord then scanAssigned (trimFront rest) else none

/-- The name and the value of an entry. The outer level fails when it is malformed; a blank entry
has neither. -/
def pair? (lookup : String → String) (entry : List Char) : Option (Option (String × String)) :=
  match trimFront entry with
  | [] => some none
  | '#' :: _ => some none
  | cs =>
    match scanKey cs with
    | none => none
    | some (name, rest) =>
      match trimFront rest with
      | [] => some (some (String.ofList name, ""))
      | '#' :: _ => some (some (String.ofList name, ""))
      | value =>
        (valueOf lookup .start value).map fun value => some (String.ofList name, value)

/-- The value of a variable, or of an earlier entry; nothing where there is none. -/
def lookUp (env : Environment) (done : List (String × String)) (name : String) : String :=
  ((env.get? name).or ((done.reverse.find? fun (n, _) => n = name).map Prod.snd)).getD ""

/-- The environment with the variables of entries that it does not have yet. The second argument
holds the entries read so far. -/
def applyEntries (env : Environment) (done : List (String × String)) :
    List (Option (List Char)) → Environment
  | [] => env
  | none :: _ => env
  | some entry :: rest =>
    match pair? (lookUp env done) entry with
    | none => env
    | some none => applyEntries env done rest
    | some (some (name, value)) =>
      applyEntries (env.withMissing [(name, value)]) (done ++ [(name, value)]) rest

/-- The text of a file without a byte order mark. -/
def withoutMark (cs : List Char) : List Char := (after? ['\uFEFF'] cs).getD cs

/-- The environment with the variables of a file that it does not have yet. -/
def apply (env : Environment) (text : String) : Environment :=
  applyEntries env [] (entries .complete [] (rawLines (withoutMark text.toList)))

/-- The text of the lines in front of the first one that is no text. The first argument is the
text so far, the second the line that is being read, newest byte first. -/
def textLines (done : List Char) (line : List UInt8) : List UInt8 → List Char
  | [] =>
    match strict? ⟨line.reverse.toArray⟩ with
    | some text => done ++ text.toList
    | none => done
  | b :: bs =>
    if b = 10 then
      match strict? ⟨(b :: line).reverse.toArray⟩ with
      | some text => textLines (done ++ text.toList) [] bs
      | none => done
    else textLines done (b :: line) bs

/-- The path of the file in a directory or in the nearest one above it. The first argument bounds
the number of directories. -/
def find? (fs : FileSystem) : Nat → Place → Option String
  | 0, _ => none
  | n + 1, dir =>
    let path := FileSystem.placePath (dir ++ [fileName])
    if fs.isFile path then some path
    else if dir.isEmpty then none
    else find? fs n dir.dropLast

/-- The environment with the variables of the nearest file that it does not have yet. -/
def load (fs : FileSystem) (env : Environment) : Environment :=
  match find? fs (fs.workingDir.length + 1) fs.workingDir with
  | none => env
  | some path =>
    match fs.readBytes path with
    | .ok bytes => apply env (String.ofList (textLines [] [] bytes.toList))
    | .error _ => env

end Repertoire.VariableFile
