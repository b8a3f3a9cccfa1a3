import Repertoire.Shell.Token

/-!
# Commands of a script

Commands are read from tokens. A list holds commands separated by semicolons, line ends and marks
for the background; each of them is a chain of pipelines with the marks for success and failure
between them. Certain words mean something only where a command can start. A script is read one
complete command at a time, so what stands before a mistake is still read.
-/

namespace Repertoire.Shell.Grammar

/-- What was read at the front, and the tokens behind it. -/
abbrev Front (α : Type) := α × List Token

/-- The words that end a list. -/
def closers : List String := ["then", "else", "elif", "fi", "do", "done", "esac", "\x7d"]

/-- The words that mean something where a command can start. -/
def reserved : List String :=
  closers ++ ["!", "case", "for", "if", "in", "until", "while", "\x7b"]

/-- The reserved word that a token is. -/
def reserved? (t : Token) : Option String :=
  t.plain?.bind fun word => if reserved.contains word then some word else none

/-- How a mishap names a token. -/
def describe (t : Token) : String :=
  match t.lexeme with
  | .word _ => ((reserved? t).map fun word => "\x22" ++ word ++ "\x22").getD "word"
  | .operator "\n" => "newline"
  | .operator text => "\x22" ++ text ++ "\x22"
  | .redirect .. => "redirection"
  | .broken _ | .ending => "end of file"

/-- The mishap of a token that must not stand where it does. -/
def mishapAt (expected : Option String) (t : Token) : Misreading :=
  match t.lexeme with
  | .broken mishap => ⟨t.line, mishap⟩
  | _ => ⟨t.line, .unexpected (describe t) expected⟩

/-- Reading fails at the front. -/
def unexpected {α : Type} (expected : Option String) (ts : List Token) : Except Misreading α :=
  .error (mishapAt expected (ts.headD ⟨1, .ending⟩))

/-- The script ends here. -/
def isEnding (ts : List Token) : Bool :=
  match ts.head?.map Token.lexeme with
  | none => true
  | some .ending => true
  | some _ => false

/-- A list ends before these tokens. -/
def endsList : List Token → Bool
  | [] => true
  | t :: _ =>
    match t.lexeme with
    | .ending => true
    | .operator ")" => true
    | .operator ";;" => true
    | _ => (t.plain?.map closers.contains).getD false

/-- The tokens behind an operator, if it stands in front. -/
def afterOperator? (text : String) : List Token → Option (List Token)
  | ⟨_, .operator found⟩ :: ts => if found = text then some ts else none
  | _ => none

/-- The tokens without line ends in front. -/
def skipLines : List Token → List Token
  | ⟨_, .operator "\n"⟩ :: ts => skipLines ts
  | ts => ts

/-- The tokens behind a word that must stand in front. -/
def expectWord (word : String) (ts : List Token) : Except Misreading (List Token) :=
  match ts with
  | t :: rest => if t.plain? = some word then .ok rest else unexpected (some word) ts
  | [] => unexpected (some word) []

/-- The tokens behind a separator of commands, if one stands in front; tells whether the command
before it is left in the background. -/
def afterSeparator? (ts : List Token) : Option (Bool × List Token) :=
  (((afterOperator? ";" ts).or (afterOperator? "\n" ts)).map fun ts => (false, ts)).or
    ((afterOperator? "&" ts).map fun ts => (true, ts))

/-- A command, left in the background or not. -/
def settle (inBackground : Bool) (c : Command) : Command :=
  if inBackground then .background c else c

/-- The name and the value of an assignment. -/
def assignment? (w : Word) : Option (String × Word) :=
  match w with
  | .text chars false :: rest =>
    match Text.cutAt? ['='] chars with
    | some (name, value) =>
      if Token.isName name then
        some (String.ofList name, if value.isEmpty then rest else .text value false :: rest)
      else none
    | none => none
  | _ => none

/-- The redirections in front. -/
def redirects : List Token → Except Misreading (Front (List Redirect))
  | ⟨_, .redirect descriptor kind⟩ :: ⟨_, .word w⟩ :: ts => do
    let (more, ts) ← redirects ts
    .ok (⟨descriptor, kind, w⟩ :: more, ts)
  | ⟨_, .redirect ..⟩ :: ts => unexpected none ts
  | ts => .ok ([], ts)

/-- The rest of a simple command: the assignments in front, the words, and redirections
anywhere. -/
def simpleParts (c : SimpleCommand) :
    List Token → Except Misreading (Front Command)
  | ⟨_, .redirect descriptor kind⟩ :: ⟨_, .word w⟩ :: ts =>
    simpleParts { c with redirects := c.redirects ++ [⟨descriptor, kind, w⟩] } ts
  | ⟨_, .redirect ..⟩ :: ts => unexpected none ts
  | ⟨_, .word w⟩ :: ts =>
    match c.words, assignment? w with
    | [], some a => simpleParts { c with assignments := c.assignments ++ [a] } ts
    | _, _ => simpleParts { c with words := c.words ++ [w] } ts
  | ts =>
    match afterOperator? "(" ts, c.assignments, c.words, c.redirects with
    | some rest, [], [_], [] =>
      if (afterOperator? ")" rest).isSome then unexpected none ts else unexpected (some ")") rest
    | _, _, _, _ => .ok (.simple c, ts)

/-- A simple command, which has at least one part. -/
def simple : List Token → Except Misreading (Front Command)
  | ⟨line, .word w⟩ :: ts => simpleParts ⟨line, [], [], []⟩ (⟨line, .word w⟩ :: ts)
  | ⟨line, .redirect descriptor kind⟩ :: ts =>
    simpleParts ⟨line, [], [], []⟩ (⟨line, .redirect descriptor kind⟩ :: ts)
  | ts => unexpected none ts

/-- The words of a loop over words. -/
def loopWords : List Token → List Word × List Token
  | ⟨_, .word w⟩ :: ts =>
    let (words, ts) := loopWords ts
    (w :: words, ts)
  | ts => ([], ts)

/-- The words that a loop runs over, and the tokens behind their separator. Without words, it
runs over the arguments of the script. -/
def loopRange (ts : List Token) : Except Misreading (Front (List Word)) :=
  match expectWord "in" (skipLines ts) with
  | .ok ts =>
    let (words, ts) := loopWords ts
    match (afterOperator? ";" ts).or (afterOperator? "\n" ts) with
    | some ts => .ok (words, ts)
    | none => unexpected none ts
  | .error _ => .ok ([[.parameter "@" none true]], (afterOperator? ";" ts).getD ts)

/-- A command with the redirections behind it. -/
def withRedirects (c : Command) (ts : List Token) : Except Misreading (Front Command) := do
  let (rs, ts) ← redirects ts
  .ok (if rs.isEmpty then c else .redirected c rs, ts)

mutual

/-- A list of commands, which may be missing only at the end of the script. The first argument
bounds the depth of reading, here and below. -/
def list : Nat → List Token → Except Misreading (Front Command)
  | 0, ts => unexpected none ts
  | n + 1, ts => do
    let ts := skipLines ts
    if isEnding ts then .ok (.nothing, ts)
    else
      let (first, ts) ← chain n ts
      listRest n first ts

/-- What follows the first command of a list. -/
def listRest : Nat → Command → List Token → Except Misreading (Front Command)
  | 0, _, ts => unexpected none ts
  | n + 1, first, ts =>
    match afterSeparator? ts with
    | none => .ok (first, ts)
    | some (inBackground, ts) =>
      let first := settle inBackground first
      let ts := skipLines ts
      if endsList ts then .ok (first, ts)
      else do
        let (second, ts) ← chain n ts
        listRest n (.inOrder first second) ts

/-- Pipelines with marks for success and failure between them. -/
def chain : Nat → List Token → Except Misreading (Front Command)
  | 0, ts => unexpected none ts
  | n + 1, ts => do
    let (first, ts) ← pipeline n ts
    chainRest n first ts

/-- What follows the first part of a chain. -/
def chainRest : Nat → Command → List Token → Except Misreading (Front Command)
  | 0, _, ts => unexpected none ts
  | n + 1, first, ts =>
    match afterOperator? "&&" ts with
    | some ts => do
      let (second, ts) ← pipeline n (skipLines ts)
      chainRest n (.andThen first second) ts
    | none =>
      match afterOperator? "||" ts with
      | some ts => do
        let (second, ts) ← pipeline n (skipLines ts)
        chainRest n (.orElse first second) ts
      | none => .ok (first, ts)

/-- Commands whose outputs feed the next one. -/
def pipeline : Nat → List Token → Except Misreading (Front Command)
  | 0, ts => unexpected none ts
  | n + 1, ts =>
    match expectWord "!" ts with
    | .ok ts => do
      let (c, ts) ← piped n ts
      .ok (.negated c, ts)
    | .error _ => piped n ts

/-- Commands whose outputs feed the next one, without a mark in front. -/
def piped : Nat → List Token → Except Misreading (Front Command)
  | 0, ts => unexpected none ts
  | n + 1, ts => do
    let (first, ts) ← single n ts
    match afterOperator? "|" ts with
    | some ts =>
      let (second, ts) ← piped n (skipLines ts)
      .ok (.pipe first second, ts)
    | none => .ok (first, ts)

/-- One command. -/
def single : Nat → List Token → Except Misreading (Front Command)
  | 0, ts => unexpected none ts
  | n + 1, ts =>
    match afterOperator? "(" ts with
    | some ts => do
      let (body, ts) ← list n ts
      match afterOperator? ")" ts with
      | some ts => withRedirects (.inSubshell body) ts
      | none => unexpected (some ")") ts
    | none =>
      let rest := ts.drop 1
      match ts.head?.bind reserved? with
      | none => simple ts
      | some "if" => choice n rest
      | some "while" => loop n true rest
      | some "until" => loop n false rest
      | some "for" => each n rest
      | some "\x7b" => do
        let (body, ts) ← list n rest
        withRedirects body (← expectWord "\x7d" ts)
      | some _ => unexpected none ts

/-- A choice behind its first word. -/
def choice : Nat → List Token → Except Misreading (Front Command)
  | 0, ts => unexpected none ts
  | n + 1, ts => do
    let (test, ts) ← list n ts
    let (yes, ts) ← list n (← expectWord "then" ts)
    match ts.head?.bind Token.plain? with
    | some "elif" =>
      let (no, ts) ← choice n (ts.drop 1)
      .ok (.choice test yes no, ts)
    | some "else" =>
      let (no, ts) ← list n (ts.drop 1)
      withRedirects (.choice test yes no) (← expectWord "fi" ts)
    | _ => withRedirects (.choice test yes .nothing) (← expectWord "fi" ts)

/-- The body of a loop with its words. -/
def body : Nat → List Token → Except Misreading (Front Command)
  | 0, ts => unexpected none ts
  | n + 1, ts => do
    let (b, ts) ← list n (← expectWord "do" ts)
    .ok (b, ← expectWord "done" ts)

/-- A loop with a test behind its first word. -/
def loop : Nat → Bool → List Token → Except Misreading (Front Command)
  | 0, _, ts => unexpected none ts
  | n + 1, whileTrue, ts => do
    let (test, ts) ← list n ts
    let (b, ts) ← body n ts
    withRedirects (.loop whileTrue test b) ts

/-- A loop over words behind its first word. -/
def each : Nat → List Token → Except Misreading (Front Command)
  | 0, ts => unexpected none ts
  | n + 1, ts =>
    match ts.head?.bind Token.plain? with
    | some name =>
      if Token.isName name.toList then do
        let (words, rest) ← loopRange (ts.drop 1)
        let (b, rest) ← body n (skipLines rest)
        withRedirects (.each name words b) rest
      else .error ⟨(ts.headD ⟨1, .ending⟩).line, .badLoopVariable⟩
    | none => .error ⟨(ts.headD ⟨1, .ending⟩).line, .badLoopVariable⟩

end

/-- The tokens behind the end of a line, if that stands in front. -/
def lineEnd? (ts : List Token) : Option (List Token) :=
  if isEnding ts then some [] else afterOperator? "\n" ts

/-- What follows a command at the outermost level, up to the end of its line. -/
def lineRest : Nat → Command → List Token → Except Misreading (Front Command)
  | 0, _, ts => unexpected none ts
  | n + 1, first, ts =>
    match lineEnd? ts, afterSeparator? ts with
    | some rest, _ => .ok (first, rest)
    | none, none => unexpected none ts
    | none, some (inBackground, ts) =>
      let first := settle inBackground first
      match lineEnd? ts with
      | some rest => .ok (first, rest)
      | none => do
        let (second, ts) ← chain n ts
        lineRest n (.inOrder first second) ts

/-- The next complete command, if there is one. -/
def next? (ts : List Token) : Except Misreading (Option (Command × List Token)) :=
  let ts := skipLines ts
  if isEnding ts then .ok none
  else do
    let depth := 9 * ts.length + 9
    let (first, rest) ← chain depth ts
    some <$> lineRest depth first rest

end Repertoire.Shell.Grammar
