/-!
# Scripts of the command language

The form of what a shell runs: words with their parts, redirections, and commands. A word keeps
which parts were quoted, since only the values of unquoted parts are split at blanks. Texts inside
a part, such as the script of a command whose output becomes part of a word, are kept as they
were written, and read when they are needed.
-/

namespace Repertoire.Shell

/-- What takes the place of a parameter: a text if it has no value, a text if it has one, a text
that becomes its value if it has none, or a complaint if it has none. -/
inductive SubstituteKind where
  | missing
  | present
  | assigned
  | demanded
deriving DecidableEq, Repr

/-- A substitute for a parameter. An empty value may count as none. -/
structure Substitute where
  kind : SubstituteKind
  emptyIsNone : Bool
  text : List Char
deriving DecidableEq, Repr

/-- A part of a word. -/
inductive WordPart where
  | text (chars : List Char) (quoted : Bool)
  | parameter (name : String) (substitute : Option Substitute) (quoted : Bool)
  | length (name : String) (quoted : Bool)
  | output (line : Nat) (script : List Char) (quoted : Bool)
  | arithmetic (expression : List Char) (quoted : Bool)
  | unreadable
deriving DecidableEq, Repr

/-- A word before anything is put in for its parts. -/
abbrev Word := List WordPart

/-- What a redirection does with a descriptor. -/
inductive RedirectKind where
  | read
  | write
  | append
  | duplicate
deriving DecidableEq, Repr

/-- A redirection of a descriptor. -/
structure Redirect where
  descriptor : Nat
  kind : RedirectKind
  target : Word
deriving DecidableEq, Repr

/-- A simple command: the line at which it starts, its assignments, words and redirections. -/
structure SimpleCommand where
  line : Nat
  assignments : List (String × Word)
  words : List Word
  redirects : List Redirect
deriving DecidableEq, Repr

/-- A command. -/
inductive Command where
  | nothing
  | simple (parts : SimpleCommand)
  | redirected (command : Command) (redirects : List Redirect)
  | pipe (first second : Command)
  | negated (command : Command)
  | background (command : Command)
  | inOrder (first second : Command)
  | andThen (first second : Command)
  | orElse (first second : Command)
  | choice (test yes no : Command)
  | loop (whileTrue : Bool) (test body : Command)
  | each (name : String) (words : List Word) (body : Command)
  | inSubshell (body : Command)

namespace WordPart

/-- The part as one between double quotes. -/
def quote : WordPart → WordPart
  | .text chars _ => .text chars true
  | .parameter name substitute _ => .parameter name substitute true
  | .length name _ => .length name true
  | .output line script _ => .output line script true
  | .arithmetic expression _ => .arithmetic expression true
  | .unreadable => .unreadable

end WordPart

namespace Word

/-- The text of a word that is one unquoted text. -/
def plain? : Word → Option String
  | [.text chars false] => some (String.ofList chars)
  | _ => none

/-- A word with a character behind it. -/
def addChar (quoted : Bool) (c : Char) (w : Word) : Word :=
  match w.getLast? with
  | some (.text chars q) =>
    if q = quoted then w.dropLast ++ [.text (chars ++ [c]) quoted] else w ++ [.text [c] quoted]
  | _ => w ++ [.text [c] quoted]

/-- A word whose leading tilde stands for a directory. -/
def withHome (home : String) : Word → Word
  | .text ('~' :: cs) false :: rest =>
    if cs.head? = some '/' || (cs.isEmpty && rest.isEmpty) then
      .text home.toList true :: .text cs false :: rest
    else .text ('~' :: cs) false :: rest
  | w => w

end Word

end Repertoire.Shell
