/-!
# A place in a YAML stream

The rest of a text with the line and the column it starts in. Line ends are line feeds, carriage
returns, the two together, and the Unicode characters for next line, line separator and
paragraph separator; all but the last two are read as line feeds.
-/

namespace Repertoire.Yaml

/-- The rest of a text and its place: characters read, line and column, all from zero. -/
structure Cursor where
  rest : List Char
  index : Nat
  line : Nat
  column : Nat

/-- A line end character. -/
def isBreak (c : Char) : Bool :=
  c = '\x0a' || c = '\x0d' || c = '\u0085' || c = '\u2028' || c = '\u2029'

/-- A blank within a line. -/
def isSpace (c : Char) : Bool := c = ' ' || c = '\x09'

/-- The front of a text is a line end or the end of the text. -/
def endsLine : List Char → Bool
  | [] => true
  | c :: _ => isBreak c

/-- The front of a text is a blank, a line end or the end of the text. -/
def endsWord : List Char → Bool
  | [] => true
  | c :: _ => isSpace c || isBreak c

/-- A character of a name: a letter, a digit, a dash or an underscore. -/
def isNameChar (c : Char) : Bool :=
  ('a' ≤ c && c ≤ 'z') || ('A' ≤ c && c ≤ 'Z') || ('0' ≤ c && c ≤ '9') || c = '-' || c = '_'

/-- A character that a stream may hold. -/
def isAllowed (c : Char) : Bool :=
  let n := c.toNat
  n = 0x09 || n = 0x0A || n = 0x0D || (0x20 ≤ n && n ≤ 0x7E) || n = 0x85 ||
    (0xA0 ≤ n && n ≤ 0xD7FF) || (0xE000 ≤ n && n ≤ 0xFFFD) || 0x10000 ≤ n

namespace Cursor

/-- The next character. -/
def head? (c : Cursor) : Option Char := c.rest.head?

/-- The next character is the given one. -/
def isAt (c : Cursor) (x : Char) : Bool := c.rest.head? == some x

/-- Past one character of a line. -/
def advance (c : Cursor) : Cursor :=
  { c with rest := c.rest.tail, index := c.index + 1, column := c.column + 1 }

/-- Past some characters of a line. -/
def skip (c : Cursor) (n : Nat) : Cursor :=
  { c with rest := c.rest.drop n, index := c.index + n, column := c.column + n }

/-- Past the characters at the front that satisfy a test, all within a line. -/
def skipWhile (p : Char → Bool) (c : Cursor) : Cursor :=
  c.skip (c.rest.takeWhile p).length

/-- The characters at the front that satisfy a test, and the place past them. -/
def takeWhile (p : Char → Bool) (c : Cursor) : List Char × Cursor :=
  let taken := c.rest.takeWhile p
  (taken, c.skip taken.length)

/-- Past one line end, with the text it is read as; at any other place nothing happens. -/
def readBreak (c : Cursor) : List Char × Cursor :=
  match c.rest with
  | '\x0d' :: '\x0a' :: rest => (['\x0a'], ⟨rest, c.index + 2, c.line + 1, 0⟩)
  | x :: rest =>
    if x = '\u2028' ∨ x = '\u2029' then ([x], ⟨rest, c.index + 1, c.line + 1, 0⟩)
    else if isBreak x then (['\x0a'], ⟨rest, c.index + 1, c.line + 1, 0⟩)
    else ([], c)
  | [] => ([], c)

/-- A document marker stands at the front of a line. -/
def atMarker (mark : Char) (c : Cursor) : Bool :=
  c.column == 0 && (c.rest.take 3 == [mark, mark, mark]) && endsWord (c.rest.drop 3)

/-- A marker of either kind stands at the front of a line. -/
def atDocumentMarker (c : Cursor) : Bool := c.atMarker '-' || c.atMarker '.'

end Cursor

end Repertoire.Yaml
