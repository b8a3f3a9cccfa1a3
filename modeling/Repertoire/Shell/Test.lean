import Repertoire.FileSystem.Read
import Repertoire.Text.Digits

/-!
# Tests

Questions about texts, numbers and files. Terms are combined with marks for both, either and not,
and with parentheses. A reader leaves the word at which it stopped in front; a second word behind
that one is a mistake.
-/

namespace Repertoire.Shell.Test

open Repertoire.Text

/-- A reason why words ask no question. -/
inductive Mistake where
  | unexpected (word : String)
  | needsOperand (operator : String)
  | openParenthesis
  | illegalNumber (text : String)
deriving DecidableEq, Repr

/-- The wording of a mistake. -/
def Mistake.message : Mistake → String
  | .unexpected word => word ++ ": unexpected operator"
  | .needsOperand operator => operator ++ ": argument expected"
  | .openParenthesis => "closing paren expected"
  | .illegalNumber text => "Illegal number: " ++ text

/-- What a word is in a test. -/
inductive Role where
  | ending
  | operand
  | unary
  | binary
  | both
  | either
  | negation
  | opening
  | closing
deriving DecidableEq, Repr

/-- The operators with one operand. -/
def unaryOperators : List String :=
  ["-r", "-w", "-x", "-e", "-f", "-d", "-s", "-t", "-z", "-n", "-h", "-L"]

/-- The operators with two operands. -/
def binaryOperators : List String :=
  ["=", "!=", "<", ">", "-eq", "-ne", "-ge", "-gt", "-le", "-lt", "-nt", "-ot"]

/-- What a word is as far as it can be told by itself. -/
def plainRole (word : String) : Role :=
  if unaryOperators.contains word then .unary
  else if binaryOperators.contains word then .binary
  else
    match word with
    | "-a" => .both
    | "-o" => .either
    | "!" => .negation
    | "(" => .opening
    | ")" => .closing
    | _ => .operand

/-- What the word in front is. An operator that stands where an operand must be is one. -/
def role : List String → Role
  | [] => .ending
  | word :: rest =>
    match plainRole word, rest with
    | .unary, [] => .operand
    | .unary, _ :: [] => .unary
    | .unary, next :: _ => if plainRole next = .binary then .operand else .unary
    | .opening, [] => .operand
    | r, _ => r

/-- The number that a text writes. -/
def number (text : String) : Except Mistake Int :=
  let cs := (text.toList.dropWhile (· = ' ')).reverse.dropWhile (· = ' ') |>.reverse
  let (sign, digits) : Int × List Char := match cs with
    | '-' :: cs => (-1, cs)
    | '+' :: cs => (1, cs)
    | cs => (1, cs)
  match number? 10 digits with
  | some n => if n < Nat.pow 2 63 then .ok (sign * n) else .error (.illegalNumber text)
  | none => .error (.illegalNumber text)

/-- The answer of an operator with one operand. -/
def askUnary (fs : FileSystem) (operator a : String) : Except Mistake Bool :=
  match operator with
  | "-z" => .ok a.isEmpty
  | "-n" => .ok !a.isEmpty
  | "-f" => .ok (fs.isFile a)
  | "-d" => .ok (fs.isDirectory a)
  | "-x" => .ok (fs.isDirectory a)
  | "-s" =>
    .ok (fs.isDirectory a || match fs.readBytes a with
      | .ok bytes => bytes.size != 0
      | .error _ => false)
  | "-h" | "-L" =>
    .ok (match fs.resolve false a with
      | .ok place => match fs.entry? place with
        | some (.link _) => true
        | _ => false
      | .error _ => false)
  | "-t" => do
    let _ ← number a
    .ok false
  | _ => .ok (fs.holds a)

/-- The first file was written after the second one. -/
def isNewer (fs : FileSystem) (a b : String) : Bool :=
  match fs.modified? a, fs.modified? b with
  | some a, some b => b < a
  | _, _ => false

/-- The answer of an operator with two operands. -/
def askBinary (fs : FileSystem) (operator a b : String) : Except Mistake Bool :=
  match operator with
  | "=" => .ok (a = b)
  | "!=" => .ok (a ≠ b)
  | "<" => .ok (a < b)
  | ">" => .ok (b < a)
  | "-nt" => .ok (isNewer fs a b)
  | "-ot" => .ok (isNewer fs b a)
  | _ => do
    let x ← number a
    let y ← number b
    .ok (match operator with
      | "-eq" => x = y
      | "-ne" => x ≠ y
      | "-lt" => x < y
      | "-le" => x ≤ y
      | "-gt" => x > y
      | _ => x ≥ y)

mutual

/-- Terms of which one has to hold; the words start at the first one, and the answer leaves the
last word of the last one in front. The first argument bounds the depth, here and below. -/
def either (fs : FileSystem) : Nat → Role → List String → Except Mistake (Bool × List String)
  | 0, _, ws => .ok (false, ws)
  | n + 1, r, ws => do
    let (a, ws) ← both fs n r ws
    if role (ws.drop 1) = .either then
      let (b, ws) ← either fs n (role (ws.drop 2)) (ws.drop 2)
      .ok (a || b, ws)
    else .ok (a, ws)

/-- Terms that all have to hold. -/
def both (fs : FileSystem) : Nat → Role → List String → Except Mistake (Bool × List String)
  | 0, _, ws => .ok (false, ws)
  | n + 1, r, ws => do
    let (a, ws) ← term fs n r ws
    if role (ws.drop 1) = .both then
      let (b, ws) ← both fs n (role (ws.drop 2)) (ws.drop 2)
      .ok (a && b, ws)
    else .ok (a, ws)

/-- A term, which may be negated. -/
def term (fs : FileSystem) : Nat → Role → List String → Except Mistake (Bool × List String)
  | 0, _, ws => .ok (false, ws)
  | n + 1, .negation, ws => do
    let (a, ws) ← term fs n (role (ws.drop 1)) (if ws.length ≤ 1 then ws else ws.drop 1)
    .ok (!a, ws)
  | _ + 1, .ending, ws => .ok (false, ws)
  | n + 1, .opening, ws =>
    if role (ws.drop 1) = .closing then .ok (false, ws.drop 1)
    else do
      let (a, ws) ← either fs n (role (ws.drop 1)) (ws.drop 1)
      if role (ws.drop 1) = .closing then .ok (a, ws.drop 1) else .error .openParenthesis
  | _ + 1, .unary, ws =>
    match ws with
    | operator :: a :: rest => do .ok (← askUnary fs operator a, a :: rest)
    | operator :: [] => .error (.needsOperand operator)
    | [] => .ok (false, [])
  | _ + 1, _, ws =>
    match ws with
    | a :: operator :: rest =>
      if role (operator :: rest) = .binary then
        match rest with
        | b :: rest => do .ok (← askBinary fs operator a b, b :: rest)
        | [] => .error (.needsOperand operator)
      else .ok (!a.isEmpty, ws)
    | [a] => .ok (!a.isEmpty, ws)
    | [] => .ok (false, [])

end

/-- Three or four words without parentheses around them, and what the first one is. -/
def withoutParentheses (ws : List String) : Role × List String :=
  if ws.head? = some "(" ∧ ws.getLast? = some ")" then
    let inside := (ws.drop 1).dropLast
    (role inside, inside)
  else if ws.head? = some "!" then (.negation, ws)
  else (role ws, ws)

/-- The words of a question, and what the first one is. Three words with an operator in the
middle always compare. -/
def start (ws : List String) : Role × List String :=
  match ws with
  | [_, operator, _] =>
    if plainRole operator = .binary then (.operand, ws) else withoutParentheses ws
  | [_, _, _, _] => withoutParentheses ws
  | _ => (role ws, ws)

/-- The answer to the question that words ask. -/
def ask (fs : FileSystem) (ws : List String) : Except Mistake Bool :=
  let (r, ws) := start ws
  if ws.isEmpty then .ok false
  else
    match either fs (4 * ws.length + 4) r ws with
    | .error mistake => .error mistake
    | .ok (_, word :: _ :: _) => .error (.unexpected word)
    | .ok (answer, _) => .ok answer

end Repertoire.Shell.Test
