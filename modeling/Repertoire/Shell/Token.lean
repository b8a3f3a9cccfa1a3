import Repertoire.Shell.Mishap
import Repertoire.Shell.Script
import Repertoire.Text.Cut
import Repertoire.Text.Digits

/-!
# Tokens of the command language

A script is cut into words and operators. Blanks separate words, quotes and backslashes take
their special meaning from characters, and a dollar sign starts a parameter, the output of a
command, or a number to be computed. What cannot be cut to its end becomes a last token that
holds the mishap, since the tokens before it may be run first.
-/

namespace Repertoire.Shell

open Repertoire.Text

/-- A word, an operator, a redirection still without its target, a mishap, or the end. -/
inductive Lexeme where
  | word (value : Word)
  | operator (text : String)
  | redirect (descriptor : Nat) (kind : RedirectKind)
  | broken (mishap : Mishap)
  | ending
deriving DecidableEq, Repr

/-- A lexeme and the line at which it ends. -/
structure Token where
  line : Nat
  lexeme : Lexeme
deriving DecidableEq, Repr

namespace Token

/-- The character can be at the front of the name of a variable. -/
def startsName (c : Char) : Bool := c.isAlpha || c = '_'

/-- The character can be part of the name of a variable. -/
def isNameChar (c : Char) : Bool := c.isAlphanum || c = '_'

/-- The characters are the name of a variable. -/
def isName : List Char → Bool
  | c :: cs => startsName c && cs.all isNameChar
  | [] => false

/-- The character is a parameter by itself. -/
def isParameter (c : Char) : Bool := ['?', '$', '#', '@', '*', '!', '-'].contains c || c.isDigit

/-- The characters that end a word. -/
def isMeta (c : Char) : Bool :=
  [' ', '\t', '\n', ';', '&', '|', '<', '>', '(', ')'].contains c

/-- The characters that keep their special meaning between double quotes. -/
def isSpecialInQuotes (c : Char) : Bool := ['$', '\x60', '\x22', '\\'].contains c

/-- The text up to the mark that closes it, and the rest. Quotes and backslashes hide marks. The
fourth argument is the number of marks that are open inside. -/
def cutAtClose (opens closes : Char) :
    List Char → Nat → Option Char → List Char → Option (List Char × List Char)
  | _, _, _, [] => none
  | seen, depth, some quote, c :: cs =>
    cutAtClose opens closes (c :: seen) depth (if c = quote then none else some quote) cs
  | seen, depth, none, '\\' :: c :: cs => cutAtClose opens closes (c :: '\\' :: seen) depth none cs
  | seen, depth, none, c :: cs =>
    if c = closes then
      match depth with
      | 0 => some (seen.reverse, cs)
      | depth + 1 => cutAtClose opens closes (c :: seen) depth none cs
    else if c = opens then cutAtClose opens closes (c :: seen) (depth + 1) none cs
    else
      let quote := if c = '\x27' ∨ c = '\x22' then some c else none
      cutAtClose opens closes (c :: seen) depth quote cs

/-- The kind of substitute that a character asks for. -/
def substituteKind? : Char → Option SubstituteKind
  | '-' => some .missing
  | '+' => some .present
  | '=' => some .assigned
  | '?' => some .demanded
  | _ => none

/-- The name of a parameter at the front, and the rest. -/
def cutName? : List Char → Option (String × List Char)
  | c :: cs =>
    if startsName c then
      some (String.ofList ((c :: cs).takeWhile isNameChar), (c :: cs).dropWhile isNameChar)
    else if c.isDigit then
      some (String.ofList ((c :: cs).takeWhile Char.isDigit), (c :: cs).dropWhile Char.isDigit)
    else if isParameter c then some (c.toString, cs)
    else none
  | [] => none

/-- The part of a word that braces behind a dollar sign hold. -/
def braced (quoted : Bool) (cs : List Char) : WordPart :=
  let plain (cs : List Char) : WordPart := match cutName? cs with
    | some (name, []) => .parameter name none quoted
    | some (name, ':' :: mark :: text) =>
      match substituteKind? mark with
      | some kind => .parameter name (some ⟨kind, true, text⟩) quoted
      | none => .unreadable
    | some (name, mark :: text) =>
      match substituteKind? mark with
      | some kind => .parameter name (some ⟨kind, false, text⟩) quoted
      | none => .unreadable
    | none => .unreadable
  match cs with
  | '#' :: c :: cs =>
    match cutName? (c :: cs) with
    | some (name, []) => .length name quoted
    | _ => plain ('#' :: c :: cs)
  | cs => plain cs

/-- What a dollar sign starts, and the rest. A dollar sign that starts nothing is a text. -/
def scanDollar (line : Nat) (quoted : Bool) :
    List Char → Except Mishap (WordPart × List Char)
  | '(' :: '(' :: cs =>
    match cutAtClose '(' ')' [] 0 none cs with
    | some (expression, ')' :: rest) => .ok (.arithmetic expression quoted, rest)
    | _ => .error .openArithmetic
  | '(' :: cs =>
    match cutAtClose '(' ')' [] 0 none cs with
    | some (script, rest) => .ok (.output line script quoted, rest)
    | none => .error (.unexpected "end of file" (some ")"))
  | '\x7b' :: cs =>
    match cutAtClose '\x7b' '\x7d' [] 0 none cs with
    | some (inner, rest) => .ok (braced quoted inner, rest)
    | none => .error .openBrace
  | c :: cs =>
    if startsName c then
      .ok (.parameter (String.ofList ((c :: cs).takeWhile isNameChar)) none quoted,
        (c :: cs).dropWhile isNameChar)
    else if isParameter c then .ok (.parameter c.toString none quoted, cs)
    else .ok (.text ['$'] quoted, c :: cs)
  | [] => .ok (.text ['$'] quoted, [])

/-- The command between backquotes, and the rest. -/
def scanBackquoted (line : Nat) (quoted : Bool) (cs : List Char) :
    Except Mishap (WordPart × List Char) :=
  match cutAt? ['\x60'] cs with
  | some (script, cs) => .ok (.output line script quoted, cs)
  | none => .error .openBackquote

/-- The rest of a text between double quotes, up to the closing one; without one, the text has to
be open to its end. -/
def scanQuoted (line : Nat) (isOpen : Bool) :
    Nat → Word → List Char → Except Mishap (Word × List Char)
  | 0, _, _ => .error .openQuote
  | _ + 1, w, [] => if isOpen then .ok (w, []) else .error .openQuote
  | n + 1, w, c :: cs =>
    if c = '\x22' ∧ !isOpen then .ok (w, cs)
    else if c = '\\' then
      match cs with
      | '\n' :: cs => scanQuoted line isOpen n w cs
      | d :: cs =>
        if isSpecialInQuotes d then scanQuoted line isOpen n (w.addChar true d) cs
        else scanQuoted line isOpen n ((w.addChar true '\\').addChar true d) cs
      | [] => if isOpen then .ok (w.addChar true '\\', []) else .error .openQuote
    else if c = '$' then do
      let (part, cs) ← scanDollar line true cs
      scanQuoted line isOpen n (w ++ [part]) cs
    else if c = '\x60' then do
      let (part, cs) ← scanBackquoted line true cs
      scanQuoted line isOpen n (w ++ [part]) cs
    else scanQuoted line isOpen n (w.addChar true c) cs

/-- The rest of a word, up to a character that ends it. -/
def scanWord (line : Nat) (ends : Char → Bool) :
    Nat → Word → List Char → Except Mishap (Word × List Char)
  | 0, _, _ => .error .openQuote
  | _ + 1, w, [] => .ok (w, [])
  | n + 1, w, c :: cs =>
    if ends c then .ok (w, c :: cs)
    else if c = '\x27' then
      match cutAt? ['\x27'] cs with
      | some (text, cs) => scanWord line ends n (w ++ [.text text true]) cs
      | none => .error .openQuote
    else if c = '\x22' then do
      let (w, cs) ← scanQuoted line false n (w ++ [.text [] true]) cs
      scanWord line ends n w cs
    else if c = '\\' then
      match cs with
      | '\n' :: cs => scanWord line ends n w cs
      | d :: cs => scanWord line ends n (w.addChar true d) cs
      | [] => .ok (w.addChar true '\\', [])
    else if c = '$' then do
      let (part, cs) ← scanDollar line false cs
      scanWord line ends n (w ++ [part]) cs
    else if c = '\x60' then do
      let (part, cs) ← scanBackquoted line false cs
      scanWord line ends n (w ++ [part]) cs
    else scanWord line ends n (w.addChar false c) cs

/-- A text inside a part of a word as a word of its own. -/
def inner (quoted : Bool) (cs : List Char) : Except Mishap Word :=
  (if quoted then scanQuoted 1 true (cs.length + 1) [] cs
    else scanWord 1 (fun _ => false) (cs.length + 1) [] cs).map Prod.fst

/-- A redirection at the front, after the number of its descriptor if that is written. -/
def scanRedirect (descriptor : Option Nat) : List Char → Option (Lexeme × List Char)
  | '>' :: '>' :: cs => some (.redirect (descriptor.getD 1) .append, cs)
  | '>' :: '&' :: cs => some (.redirect (descriptor.getD 1) .duplicate, cs)
  | '>' :: '|' :: cs => some (.redirect (descriptor.getD 1) .write, cs)
  | '>' :: cs => some (.redirect (descriptor.getD 1) .write, cs)
  | '<' :: '&' :: cs => some (.redirect (descriptor.getD 0) .duplicate, cs)
  | '<' :: cs => some (.redirect (descriptor.getD 0) .read, cs)
  | _ => none

/-- An operator at the front. -/
def scanOperator : List Char → Option (Lexeme × List Char)
  | '&' :: '&' :: cs => some (.operator "&&", cs)
  | '|' :: '|' :: cs => some (.operator "||", cs)
  | ';' :: ';' :: cs => some (.operator ";;", cs)
  | c :: cs =>
    if ['|', '&', ';', '(', ')', '\n'].contains c then some (.operator c.toString, cs) else none
  | [] => none

/-- A redirection or an operator at the front. -/
def scanMark (cs : List Char) : Option (Lexeme × List Char) :=
  match cs with
  | c :: rest =>
    if c.isDigit then scanRedirect (some (numberOf 10 [c])) rest
    else (scanRedirect none cs).or (scanOperator cs)
  | [] => none

/-- The number of line ends. -/
def lineEnds (cs : List Char) : Nat := cs.count '\n'

/-- The tokens of a text that starts at a line; the first argument bounds their number. -/
def scan : Nat → Nat → List Char → List Token
  | 0, line, _ => [⟨line, .ending⟩]
  | _ + 1, line, [] => [⟨line, .ending⟩]
  | n + 1, line, c :: cs =>
    if c = ' ' ∨ c = '\t' then scan n line cs
    else if c = '#' then scan n line (cs.dropWhile (· ≠ '\n'))
    else if c = '\\' ∧ cs.head? = some '\n' then scan n (line + 1) (cs.drop 1)
    else
      match scanMark (c :: cs) with
      | some (lexeme, rest) =>
        let line := if c = '\n' then line + 1 else line
        ⟨line, lexeme⟩ :: scan n line rest
      | none =>
        match scanWord line isMeta (n + 1) [] (c :: cs) with
        | .ok (w, rest) =>
          let line := line + lineEnds ((c :: cs).take (cs.length + 1 - rest.length))
          ⟨line, .word w⟩ :: scan n line rest
        | .error mishap => [⟨line + lineEnds cs, .broken mishap⟩]

/-- The tokens of a script that starts at a line. -/
def ofChars (line : Nat) (cs : List Char) : List Token := scan (cs.length + 1) line cs

/-- The text of a token that is one unquoted text. -/
def plain? (t : Token) : Option String :=
  match t.lexeme with
  | .word w => w.plain?
  | _ => none

end Token

end Repertoire.Shell
