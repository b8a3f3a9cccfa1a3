import Repertoire.Shell.Builtin
import Repertoire.Shell.Grammar

/-!
# Running scripts

A script is read and run one complete command at a time. Words become fields when their command
is run. Running is bounded by a number of steps; a script that does not end within it counts as
one that runs without end.
-/

namespace Repertoire.Shell

open Repertoire.Text

/-- The bytes of a command's output as a value: without line ends at the end. -/
def outputValue (bytes : ByteArray) : String :=
  String.ofList (dropTail (· = '\n') (lenientChars bytes.toList))

/-- The value of a parameter counts as there. -/
def Substitute.isThere (sub : Substitute) (value : Option String) : Bool :=
  match value with
  | none => false
  | some value => !(sub.emptyIsNone && value.isEmpty)

/-- The words about a parameter that has to have a value. -/
def Substitute.demand (sub : Substitute) (words : String) : String :=
  if sub.text.isEmpty then
    if sub.emptyIsNone then "parameter not set or null" else "parameter not set"
  else words

/-- The length of the value of a parameter in bytes. -/
def Session.lengthOf (s : Session) (name : String) : Nat :=
  match name with
  | "@" => s.arguments.length
  | "*" => s.arguments.length
  | _ => (s.parameter name).utf8ByteSize

/-- The words for a file that cannot be created. -/
def cannotCreate (path : String) (fault : FileFault) : String :=
  "cannot create " ++ path ++ ": " ++
    match fault with
    | .missing => "Directory nonexistent"
    | .notDirectory => "Directory nonexistent"
    | fault => FileProgram.faultWords fault

/-- Something is wrong with a script as a whole. -/
def firstMisreading : Nat → List Token → Option Misreading
  | 0, _ => none
  | n + 1, ts =>
    match Grammar.next? ts with
    | .error m => some m
    | .ok none => none
    | .ok (some (_, rest)) => firstMisreading n rest

/-- The session after a script that cannot be read. -/
def Session.misread (s : Session) (channels : Channels) (m : Misreading) : Flow × Session :=
  (.ends 2,
    (s.complainAt channels m.line (s.about ++ "Syntax error: " ++ m.mishap.message)).withStatus 2)

/-- The letters that a shell takes as options. -/
def optionLetters : List Char :=
  ['e', 'f', 'n', 'm', 's', 'x', 'v', 'I', 'i', 'a', 'b', 'u', 'E', 'V', 'C', 'c', 'l', 'p', 'o']

/-- What a shell has to say about a script that looks like an option. -/
def optionComplaint? (script : String) : Option String :=
  let missing := "-c requires an argument"
  match script.toList with
  | ['-', '-'] => some missing
  | mark :: letters =>
    if mark = '-' ∨ mark = '+' then
      match letters.find? fun c => !optionLetters.contains c with
      | some c =>
        some ("Illegal option -" ++ if c.toNat < 0x80 then c.toString else "\uFFFD")
      | none => some missing
    else none
  | [] => none

/-- The session after a shell that was called wrongly. -/
def Session.misuse (s : Session) (channels : Channels) (words : String) : Session :=
  (s.writeLine channels.complaints (shellName ++ ": 0: " ++ words)).withStatus 2

mutual

/-- The fields of a word. The first argument bounds the depth of running, here and below. -/
def fieldsOf (n : Nat) (channels : Channels) (w : Word) (s : Session) (fs : Fields) :
    Flow × Fields × Session :=
  match n with
  | 0 => (.runs, fs, s)
  | n + 1 =>
    match w with
    | [] => (.goes, fs, s)
    | [.text [] true, .parameter "@" none true] => (.goes, fs.addApart s.arguments, s)
    | .text chars quoted :: rest =>
      fieldsOf n channels rest s (fs.addValue quoted (String.ofList chars))
    | .parameter "@" none true :: rest => fieldsOf n channels rest s (fs.addApart s.arguments)
    | .parameter name none quoted :: rest =>
      fieldsOf n channels rest s (fs.addValue quoted (s.parameter name))
    | .parameter name (some sub) quoted :: rest =>
      let value := s.parameter? name
      match sub.kind, sub.isThere value with
      | .present, false => fieldsOf n channels rest s (fs.addValue quoted "")
      | .missing, true | .assigned, true | .demanded, true =>
        fieldsOf n channels rest s (fs.addValue quoted (value.getD ""))
      | kind, _ =>
        match Token.inner quoted sub.text with
        | .error mishap => let (flow, s) := s.misread channels ⟨s.line, mishap⟩; (flow, fs, s)
        | .ok w =>
          match kind with
          | .assigned =>
            match valueOf n channels w s with
            | (.goes, value, s) =>
              fieldsOf n channels rest (s.setVariable name value) (fs.addValue quoted value)
            | (flow, _, s) => (flow, fs, s)
          | .demanded =>
            match valueOf n channels w s with
            | (.goes, words, s) =>
              let (flow, s) := s.failAbout channels (name ++ ": " ++ sub.demand words)
              (flow, fs, s)
            | (flow, _, s) => (flow, fs, s)
          | _ => fieldsOf n channels (w ++ rest) s fs
    | .length name quoted :: rest =>
      fieldsOf n channels rest s (fs.addValue quoted (toString (s.lengthOf name)))
    | .output line script quoted :: rest =>
      match firstMisreading script.length (Token.ofChars line script) with
      | some m => let (flow, s) := s.misread channels m; (flow, fs, s)
      | none =>
        let (sink, inner) := s.newSink
        let (flow, after) := runScript n { channels with output := sink } line script inner
        match Session.leaveSubshell s flow after with
        | (.goes, after) =>
          fieldsOf n channels rest after (fs.addValue quoted (outputValue (after.written sink)))
        | (flow, after) => (flow, fs, after)
    | .arithmetic expression quoted :: rest =>
      match Token.inner true expression with
      | .error mishap => let (flow, s) := s.misread channels ⟨s.line, mishap⟩; (flow, fs, s)
      | .ok w =>
        match valueOf n channels w s with
        | (.goes, text, s) =>
          match Arithmetic.value s.bindings text with
          | .ok (value, bindings) =>
            fieldsOf n channels rest { s with bindings := bindings }
              (fs.addValue quoted (toString value))
          | .error mistake =>
            let (flow, s) := s.failAbout channels (mistake.message text)
            (flow, fs, s)
        | (flow, _, s) => (flow, fs, s)
    | .unreadable :: _ => let (flow, s) := s.failAbout channels "Bad substitution"; (flow, fs, s)

/-- The fields of words. -/
def fieldsOfAll (n : Nat) (channels : Channels) (ws : List Word) (s : Session) :
    Flow × List String × Session :=
  match n with
  | 0 => (.runs, [], s)
  | n + 1 =>
    match ws with
    | [] => (.goes, [], s)
    | w :: rest =>
      match fieldsOf n channels (w.withHome (s.parameter "HOME")) s .empty with
      | (.goes, fs, s) =>
        match fieldsOfAll n channels rest s with
        | (flow, more, s) => (flow, fs.toList ++ more, s)
      | (flow, _, s) => (flow, [], s)

/-- The value of a word that is not split. -/
def valueOf (n : Nat) (channels : Channels) (w : Word) (s : Session) : Flow × String × Session :=
  match n with
  | 0 => (.runs, "", s)
  | n + 1 =>
    match fieldsOf n channels ((w.withHome (s.parameter "HOME")).map .quote) s .empty with
    | (flow, fs, s) => (flow, joinWith " " fs.toList, s)

/-- The values of assignments, which are made one after the other. -/
def assign (n : Nat) (channels : Channels) (assignments : List (String × Word)) (s : Session) :
    Flow × Session :=
  match n with
  | 0 => (.runs, s)
  | n + 1 =>
    match assignments with
    | [] => (.goes, s)
    | (name, w) :: rest =>
      match valueOf n channels w s with
      | (.goes, value, s) => assign n channels rest (s.setVariable name value)
      | (flow, _, s) => (flow, s)

/-- The channels after redirections, and the files to be filled. There are no channels when a file
cannot be opened. -/
def redirect (n : Nat) (channels : Channels) (rs : List Redirect) (s : Session) :
    Flow × Option (Channels × List Session.Destination) × Session :=
  match n with
  | 0 => (.runs, none, s)
  | n + 1 =>
    match rs with
    | [] => (.goes, some (channels, []), s)
    | r :: rest =>
      match valueOf n channels r.target s with
      | (.goes, target, s) =>
        match r.kind with
        | .read =>
          match Utility.open? s.files target with
          | .ok input => redirect n { channels with input := input } rest s
          | .error _ =>
            (.goes, none, s.complainAbout channels 2 ("cannot open " ++ target ++ ": No such file"))
        | .duplicate =>
          match channels.sink? target with
          | some sink => redirect n (channels.redirect r.descriptor sink) rest s
          | none =>
            if target = "-" then
              let (sink, s) := s.newSink
              redirect n (channels.redirect r.descriptor sink) rest s
            else if target = "0" then redirect n channels rest s
            else if (number? 10 target.toList).isSome then
              (.goes, none, s.complainAbout channels 2 (target ++ ": Bad file descriptor"))
            else
              let (flow, s) := s.failAbout channels "Syntax error: Bad fd number"
              (flow, none, s)
        | kind =>
          match s.openFile target (kind = .append) with
          | .error fault =>
            (.goes, none, s.complainAbout channels 2 (cannotCreate target fault))
          | .ok (d, s) =>
            match redirect n (channels.redirect r.descriptor d.sink) rest s with
            | (flow, some (channels, ds), s) => (flow, some (channels, d :: ds), s)
            | (flow, none, s) => (flow, none, s)
      | (flow, _, s) => (flow, none, s)

/-- Runs a command with redirections. -/
def runRedirected (n : Nat) (channels : Channels) (rs : List Redirect) (c : Command) (s : Session) :
    Flow × Session :=
  match n with
  | 0 => (.runs, s)
  | n + 1 =>
    match redirect n channels rs s with
    | (.goes, some (inner, ds), s) =>
      let (flow, s) := run n inner c s
      (flow, ds.foldl Session.finish s)
    | (flow, _, s) => (flow, s)

/-- Runs a command by its name. -/
def runNamed (n : Nat) (channels : Channels) (name : String) (args : List String) (s : Session) :
    Flow × Session :=
  match n with
  | 0 => (.runs, s)
  | n + 1 =>
    match (Session.programName? name).getD name, args with
    | "eval", _ =>
      let (flow, after) :=
        runScript n channels 1 (joinWith " " args).toList { s.withStatus 0 with about := "eval: " }
      (flow, { after with line := s.line, about := s.about })
    | "command", [] => (.goes, s.withStatus 0)
    | "command", "-v" :: name :: _ =>
      match s.whereIs? channels name with
      | some place => (.goes, (s.writeLine channels.output place).withStatus 0)
      | none => (.goes, s.withStatus Session.notFoundStatus)
    | "command", name :: args => runNamed n channels name args s
    | "exec", [] => (.goes, s.withStatus 0)
    | "exec", name :: args =>
      if (s.whereIs? channels name).isSome then
        match runNamed n channels name args s with
        | (.goes, s) => (.ends s.status, s)
        | other => other
      else
        let (status, words) := s.noCommand name
        (.ends status, s.complainAbout channels status ("exec: " ++ words))
    | "sh", "-c" :: script :: rest =>
      match optionComplaint? script with
      | some words => (.goes, s.misuse channels words)
      | none =>
        let child := s.child (rest.headD shellName) (rest.drop 1)
        let (flow, after) := runScript n channels 1 script.toList child
        Session.leaveChild s channels flow after
    | "sh", ["-c"] => (.goes, s.misuse channels "-c requires an argument")
    | "sh", args =>
      let source : Except String Stream := match args with
        | [] => .ok channels.input
        | path :: _ => Utility.open? s.files path
      match source with
      | .error _ => (.goes, s.misuse channels ("cannot open " ++ args.headD "" ++ ": No such file"))
      | .ok script =>
        let child := s.child (args.headD shellName) (args.drop 1)
        let (flow, after) := runScript n channels 1 (lenientChars script.bytes) child
        Session.leaveChild s channels flow after
    | _, _ =>
      match s.command? channels name args with
      | some result => result
      | none =>
        let (status, words) := s.noCommand name
        (.goes, s.complainAbout channels status words)

/-- Runs a body once for each value. -/
def runEach (n : Nat) (channels : Channels) (name : String) (values : List String) (body : Command)
    (s : Session) : Flow × Session :=
  match n with
  | 0 => (.runs, s)
  | n + 1 =>
    match values with
    | [] => (.goes, s)
    | value :: rest =>
      match run n channels body (s.setVariable name value) with
      | (flow, s) =>
        match flow.afterRound with
        | none => runEach n channels name rest body s
        | some flow => (flow, s)

/-- Runs a body as long as a test succeeds, or fails. The status is that of the last round. -/
def runWhile (n : Nat) (channels : Channels) (whileTrue : Bool) (test body : Command) (status : Nat)
    (s : Session) : Flow × Session :=
  match n with
  | 0 => (.runs, s)
  | n + 1 =>
    match run n channels test s with
    | (.goes, s) =>
      if (s.status = 0) = whileTrue then
        match run n channels body s with
        | (flow, s) =>
          match flow.afterRound with
          | none => runWhile n channels whileTrue test body s.status s
          | some flow => (flow, s)
      else (.goes, s.withStatus status)
    | (flow, s) =>
      match flow.afterRound with
      | none => runWhile n channels whileTrue test body status s
      | some flow => (flow, s)

/-- Runs a command. -/
def run (n : Nat) (channels : Channels) (c : Command) (s : Session) : Flow × Session :=
  match n with
  | 0 => (.runs, s)
  | n + 1 =>
    match c with
    | .nothing => (.goes, s)
    | .simple parts =>
      let s := { s with line := parts.line }
      match parts.redirects with
      | r :: rs => runRedirected n channels (r :: rs) (.simple { parts with redirects := [] }) s
      | [] =>
        match fieldsOfAll n channels parts.words s with
        | (.goes, name :: args, s) =>
          match assign n channels parts.assignments s with
          | (.goes, inner) =>
            let names := parts.assignments.map Prod.fst
            let inner := { inner with exported := names ++ inner.exported }
            let (flow, after) := runNamed n channels name args inner
            if names.isEmpty then (flow, after)
            else (flow, { after with bindings := s.bindings, exported := s.exported })
          | other => other
        | (.goes, [], s) => assign n channels parts.assignments (s.withStatus 0)
        | (flow, _, s) => (flow, s)
    | .redirected c rs => runRedirected n channels rs c s
    | .pipe first second =>
      let (sink, inner) := s.newSink
      let (flow, after) := run n { channels with output := sink } first inner
      let input : Option Stream := match flow with
        | .writes into cycle =>
          if into = sink then some ⟨(after.written sink).toList, cycle⟩ else none
        | .runs => none
        | _ => some (.ofBytes (after.written sink).toList)
      let between := Session.returnTo s after
      match flow, input with
      | .killed signal, _ => (.killed signal, between)
      | _, none => (flow, between)
      | _, some input =>
        let (flow, last) :=
          run n { channels with input := input } second
            { between with elapsed := s.elapsed, status := s.status }
        Session.leaveSubshell s flow { last with elapsed := max between.elapsed last.elapsed }
    | .negated c =>
      match run n channels c s with
      | (.goes, s) => (.goes, s.withStatus (if s.status = 0 then 1 else 0))
      | other => other
    | .background c =>
      let (flow, after) := run n { channels with input := .empty } c s
      match Session.leaveSubshell s flow after with
      | (.goes, after) =>
        (.goes,
          { after with
            status := 0
            elapsed := s.elapsed
            busyUntil := max after.busyUntil after.elapsed })
      | other => other
    | .inOrder first second =>
      match run n channels first s with
      | (.goes, s) => run n channels second s
      | other => other
    | .andThen first second =>
      match run n channels first s with
      | (.goes, s) => if s.status = 0 then run n channels second s else (.goes, s)
      | other => other
    | .orElse first second =>
      match run n channels first s with
      | (.goes, s) => if s.status = 0 then (.goes, s) else run n channels second s
      | other => other
    | .choice test yes no =>
      match run n channels test s with
      | (.goes, s) =>
        run n channels (if s.status = 0 then yes else no) (s.withStatus 0)
      | other => other
    | .loop whileTrue test body =>
      let (flow, after) :=
        runWhile n channels whileTrue test body 0 { s with loops := s.loops + 1 }
      (flow, { after with loops := s.loops })
    | .each name words body =>
      match fieldsOfAll n channels words s with
      | (.goes, values, s) =>
        let (flow, after) :=
          runEach n channels name values body { s.withStatus 0 with loops := s.loops + 1 }
        (flow, { after with loops := s.loops })
      | (flow, _, s) => (flow, s)
    | .inSubshell body =>
      let (flow, after) := run n channels body s
      Session.leaveSubshell s flow after

/-- Runs commands one after the other, each of them read when the one before is done. -/
def runTokens (n : Nat) (channels : Channels) (ts : List Token) (s : Session) : Flow × Session :=
  match n with
  | 0 => (.runs, s)
  | n + 1 =>
    match Grammar.next? ts with
    | .error m => s.misread channels m
    | .ok none => (.goes, s)
    | .ok (some (c, rest)) =>
      match run n channels c s with
      | (.goes, s) => runTokens n channels rest s
      | other => other

/-- Runs a script that starts at a line. One that cannot be read ends the session. -/
def runScript (n : Nat) (channels : Channels) (line : Nat) (script : List Char)
    (s : Session) : Flow × Session :=
  match n with
  | 0 => (.runs, s)
  | n + 1 => runTokens n channels (Token.ofChars line script) s

end

/-- Runs the script that a shell is called with. The first argument bounds the number of steps. -/
def runCommand (n : Nat) (channels : Channels) (script : String) (s : Session) : Flow × Session :=
  match optionComplaint? script with
  | some words => (.ends 2, s.misuse channels words)
  | none => runScript n channels 1 script.toList s

end Repertoire.Shell
