import Repertoire.Shell.Token
import Repertoire.Shell.Variables

/-!
# Arithmetic

Numbers that a script computes. An expression is a tree of operators over numbers and variables;
its value is kept within sixty-four bits. Operators of the same rank are applied from left to
right, and the second side of a logical operator is left alone when the first one decides.
-/

namespace Repertoire.Shell.Arithmetic

open Repertoire.Text

/-- A reason why an expression has no value. -/
inductive Mistake where
  | expecting (what : String)
  | divisionByZero
  | illegalNumber (text : String)
deriving DecidableEq, Repr

/-- The wording of a mistake in an expression. -/
def Mistake.message (expression : String) : Mistake → String
  | .expecting what =>
    "arithmetic expression: expecting " ++ what ++ ": \x22" ++ expression ++ "\x22"
  | .divisionByZero => "arithmetic expression: division by zero: \x22" ++ expression ++ "\x22"
  | .illegalNumber text => "Illegal number: " ++ text

/-- An expression. -/
inductive Expr where
  | number (value : Int)
  | variable (name : String)
  | unary (operator : String) (e : Expr)
  | binary (operator : String) (a b : Expr)
  | both (a b : Expr)
  | either (a b : Expr)
  | choice (test yes no : Expr)
  | assign (name operator : String) (e : Expr)
deriving DecidableEq, Repr

/-- A token of an expression. -/
inductive Atom where
  | number (value : Int)
  | name (text : String)
  | operator (text : String)
  | unknown
deriving DecidableEq, Repr

/-! ### Numbers -/

/-- The greatest number. -/
def greatest : Int := Int.pow 2 63 - 1

/-- A number within sixty-four bits. -/
def wrap (n : Int) : Int := n.bmod (Nat.pow 2 64)

/-- The number at the front in base ten, eight behind a zero, or sixteen behind a mark, and the
rest. A number beyond the greatest one is the greatest one. -/
def cutNumber (cs : List Char) : Int × List Char :=
  let inBase (base : Nat) (cs : List Char) : Int × List Char :=
    let digits := cs.takeWhile (isDigitOf base)
    (min (numberOf base digits) greatest, cs.drop digits.length)
  match cs with
  | '0' :: x :: d :: rest =>
    if (x = 'x' ∨ x = 'X') ∧ isHexDigit d then inBase 16 (d :: rest) else inBase 8 cs
  | '0' :: _ => inBase 8 cs
  | _ => inBase 10 cs

/-- The character is a blank. -/
def isBlank (c : Char) : Bool := [' ', '\t', '\n', '\r', '\x0b', '\x0c'].contains c

/-- The number that a text writes, with a sign and blanks around it. -/
def numberOf? (text : String) : Option Int :=
  let cs := text.toList.dropWhile isBlank
  let (sign, cs) : Int × List Char := match cs with
    | '-' :: cs => (-1, cs)
    | '+' :: cs => (1, cs)
    | cs => (1, cs)
  if (cs.head?.map isDigit).getD false then
    let (n, rest) := cutNumber cs
    if rest.all isBlank then some (sign * n) else none
  else none

/-! ### Reading -/

/-- The operators, longer ones first. -/
def operators : List String :=
  ["<<=", ">>=", "<<", ">>", "<=", ">=", "==", "!=", "&&", "||", "+=", "-=", "*=", "/=", "%=",
    "&=", "|=", "^=", "<", ">", "+", "-", "*", "/", "%", "&", "|", "^", "!", "~", "?", ":", "=",
    "(", ")"]

/-- The operator at the front, and the rest. -/
def cutOperator? (cs : List Char) : Option (String × List Char) :=
  operators.findSome? fun text => (after? text.toList cs).map fun rest => (text, rest)

/-- The tokens of an expression; the first argument bounds their number. -/
def atoms : Nat → List Char → List Atom
  | 0, _ => []
  | _ + 1, [] => []
  | n + 1, c :: cs =>
    if isBlank c then atoms n cs
    else if isDigit c then
      let (value, rest) := cutNumber (c :: cs)
      .number value :: atoms n rest
    else if Token.startsName c then
      .name (String.ofList ((c :: cs).takeWhile Token.isNameChar)) ::
        atoms n ((c :: cs).dropWhile Token.isNameChar)
    else
      match cutOperator? (c :: cs) with
      | some (text, rest) => .operator text :: atoms n rest
      | none => [.unknown]

/-- The operators that have two sides, by rank, the loosest ones first. -/
def ranks : List (List String) :=
  [["||"], ["&&"], ["|"], ["^"], ["&"], ["==", "!="], ["<", "<=", ">", ">="], ["<<", ">>"],
    ["+", "-"], ["*", "/", "%"]]

/-- An operator with its two sides. -/
def join (operator : String) (a b : Expr) : Expr :=
  match operator with
  | "&&" => .both a b
  | "||" => .either a b
  | _ => .binary operator a b

/-- The operator that an assignment applies first, empty for a plain one. -/
def assignment? : Atom → Option String
  | .operator "=" => some ""
  | .operator text =>
    (before? ['='] text.toList).bind fun cs =>
      if ["<=", ">=", "==", "!="].contains text then none else some (String.ofList cs)
  | _ => none

mutual

/-- An expression and the tokens behind it. The first argument bounds the depth of reading, here
and below. -/
def expression : Nat → List Atom → Except Mistake (Expr × List Atom)
  | 0, _ => .error (.expecting "primary")
  | n + 1, .name name :: mark :: ts =>
    match assignment? mark with
    | some operator => do
      let (e, ts) ← expression n ts
      .ok (.assign name operator e, ts)
    | none => choice n (.name name :: mark :: ts)
  | n + 1, ts => choice n ts

/-- A choice between two expressions, or the operators of any rank. -/
def choice : Nat → List Atom → Except Mistake (Expr × List Atom)
  | 0, _ => .error (.expecting "primary")
  | n + 1, ts => do
    let (test, ts) ← ranked n ranks ts
    match ts with
    | .operator "?" :: ts =>
      let (yes, ts) ← expression n ts
      match ts with
      | .operator ":" :: ts =>
        let (no, ts) ← choice n ts
        .ok (.choice test yes no, ts)
      | _ => .error (.expecting "':'")
    | ts => .ok (test, ts)

/-- Operators of some rank or a tighter one. -/
def ranked : Nat → List (List String) → List Atom → Except Mistake (Expr × List Atom)
  | 0, _, _ => .error (.expecting "primary")
  | n + 1, [], ts => primary n ts
  | n + 1, rank :: tighter, ts => do
    let (a, ts) ← ranked n tighter ts
    rankedRest n rank tighter a ts

/-- What follows the first side of operators of one rank. -/
def rankedRest :
    Nat → List String → List (List String) → Expr → List Atom → Except Mistake (Expr × List Atom)
  | 0, _, _, _, _ => .error (.expecting "primary")
  | n + 1, rank, tighter, a, .operator text :: ts =>
    if rank.contains text then do
      let (b, ts) ← ranked n tighter ts
      rankedRest n rank tighter (join text a b) ts
    else .ok (a, .operator text :: ts)
  | _ + 1, _, _, a, ts => .ok (a, ts)

/-- A number, a variable, an expression in parentheses, or an operator with one side. -/
def primary : Nat → List Atom → Except Mistake (Expr × List Atom)
  | 0, _ => .error (.expecting "primary")
  | _ + 1, .number value :: ts => .ok (.number value, ts)
  | _ + 1, .name text :: ts => .ok (.variable text, ts)
  | n + 1, .operator "(" :: ts => do
    let (e, ts) ← expression n ts
    match ts with
    | .operator ")" :: ts => .ok (e, ts)
    | _ => .error (.expecting "')'")
  | n + 1, .operator text :: ts =>
    if ["+", "-", "!", "~"].contains text then do
      let (e, ts) ← primary n ts
      .ok (.unary text e, ts)
    else .error (.expecting "primary")
  | _ + 1, _ => .error (.expecting "primary")

end

/-- The expression that a text writes. -/
def read (text : String) : Except Mistake Expr := do
  let ts := atoms (text.length + 1) text.toList
  let (e, rest) ← expression (16 * ts.length + 16) ts
  if rest.isEmpty then .ok e else .error (.expecting "EOF")

/-! ### Values -/

/-- The number for an answer. -/
def ofBool (b : Bool) : Int := if b then 1 else 0

/-- The bits of a number as those of a natural one. -/
def bits (n : Int) : Nat := (n % Int.pow 2 64).toNat

/-- The value of an operator with one side. -/
def applyUnary (operator : String) (a : Int) : Int :=
  match operator with
  | "-" => -a
  | "!" => ofBool (a = 0)
  | "~" => -a - 1
  | _ => a

/-- The value of an operator with two sides. -/
def applyBinary (operator : String) (a b : Int) : Except Mistake Int :=
  match operator with
  | "*" => .ok (a * b)
  | "/" => if b = 0 then .error .divisionByZero else .ok (a.tdiv b)
  | "%" => if b = 0 then .error .divisionByZero else .ok (a.tmod b)
  | "+" => .ok (a + b)
  | "-" => .ok (a - b)
  | "<<" => .ok (a * Int.pow 2 (bits b % 64))
  | ">>" => .ok (a / Int.pow 2 (bits b % 64))
  | "<" => .ok (ofBool (a < b))
  | "<=" => .ok (ofBool (a ≤ b))
  | ">" => .ok (ofBool (a > b))
  | ">=" => .ok (ofBool (a ≥ b))
  | "==" => .ok (ofBool (a = b))
  | "!=" => .ok (ofBool (a ≠ b))
  | "&" => .ok (bits a &&& bits b : Nat)
  | "^" => .ok (bits a ^^^ bits b : Nat)
  | "|" => .ok (bits a ||| bits b : Nat)
  | _ => .ok b

/-- The number that a variable holds. One without a value counts as zero. -/
def variableValue (vs : Variables) (name : String) : Except Mistake Int :=
  match vs.get? name with
  | none => .ok 0
  | some "" => .ok 0
  | some text => ((numberOf? text).map .ok).getD (.error (.illegalNumber text))

/-- The value of an expression, and the variables after its assignments. -/
def Expr.value (vs : Variables) : Expr → Except Mistake (Int × Variables)
  | .number value => .ok (value, vs)
  | .variable name => do .ok (← variableValue vs name, vs)
  | .unary operator e => do
    let (a, vs) ← e.value vs
    .ok (wrap (applyUnary operator a), vs)
  | .binary operator a b => do
    let (a, vs) ← a.value vs
    let (b, vs) ← b.value vs
    .ok (wrap (← applyBinary operator a b), vs)
  | .both a b => do
    let (a, vs) ← a.value vs
    if a = 0 then .ok (0, vs)
    else
      let (b, vs) ← b.value vs
      .ok (ofBool (b ≠ 0), vs)
  | .either a b => do
    let (a, vs) ← a.value vs
    if a ≠ 0 then .ok (1, vs)
    else
      let (b, vs) ← b.value vs
      .ok (ofBool (b ≠ 0), vs)
  | .choice test yes no => do
    let (t, vs) ← test.value vs
    if t ≠ 0 then yes.value vs else no.value vs
  | .assign name operator e => do
    let (b, vs) ← e.value vs
    let a ← if operator.isEmpty then .ok 0 else variableValue vs name
    let n := wrap (← applyBinary operator a b)
    .ok (n, vs.insert name (toString n))

/-- The value of the expression that a text writes, and the variables afterwards. -/
def value (vs : Variables) (text : String) : Except Mistake (Int × Variables) := do
  (← read text).value vs

end Repertoire.Shell.Arithmetic
