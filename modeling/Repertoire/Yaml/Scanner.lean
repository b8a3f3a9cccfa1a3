import Repertoire.Text.Utf8
import Repertoire.Yaml.Scalar
import Repertoire.Yaml.Token

/-!
# From YAML text to tokens

The scanner reads one token after another and keeps what it must know to make the structure
explicit: the columns of the open block collections, and for each level of flow collections the
place where a key may have started. Only when a colon follows does such a place turn out to be a
key, and the tokens for it are then put in front of what was read since.
-/

namespace Repertoire.Yaml

/-- A place where a key may have started. A required one must turn out to be a key. -/
structure Candidate where
  position : Nat
  required : Bool
  index : Nat
  line : Nat
  column : Nat

/-- The state of the scanner. `columns` are those of the open block collections, innermost
first; `candidates` has one place for each level of flow collections and one for the block
level, innermost first. -/
structure Scanner where
  cursor : Cursor
  tokens : Array Token
  columns : List Nat
  candidates : List (Option Candidate)
  keyAllowed : Bool

namespace Scanner

/-- The state in front of a text. -/
def start (cs : List Char) : Scanner :=
  { cursor := ⟨cs, 0, 0, 0⟩, tokens := #[], columns := [], candidates := [none],
    keyAllowed := true }

/-- The number of open flow collections. -/
def flowLevel (s : Scanner) : Nat := s.candidates.length - 1

/-- The place is inside a flow collection. -/
def inFlow (s : Scanner) : Bool := s.flowLevel != 0

/-- The column of the innermost block collection, negative outside of any. -/
def indent (s : Scanner) : Int :=
  match s.columns with
  | [] => -1
  | c :: _ => c

/-- One token more. -/
def push (s : Scanner) (t : Token) : Scanner := { s with tokens := s.tokens.push t }

/-- One token more, in front of the one at a position. -/
def insert (s : Scanner) (position : Nat) (t : Token) : Scanner :=
  { s with tokens := s.tokens.insertIdxIfInBounds position t }

/-- Past a number of characters. -/
def skip (s : Scanner) (n : Nat) : Scanner := { s with cursor := s.cursor.skip n }

/-- Forgets the candidate of the present level, unless it was required to be a key. -/
def dropCandidate (s : Scanner) : Option Scanner :=
  match s.candidates with
  | some c :: rest => if c.required then none else some { s with candidates := none :: rest }
  | _ => some s

/-- Remembers the present place as the possible start of a key. -/
def saveCandidate (s : Scanner) : Option Scanner :=
  if s.keyAllowed then
    match s.dropCandidate with
    | none => none
    | some s =>
      let c : Candidate :=
        { position := s.tokens.size
          required := !s.inFlow && s.indent == (s.cursor.column : Int)
          index := s.cursor.index
          line := s.cursor.line
          column := s.cursor.column }
      some { s with candidates := some c :: s.candidates.tail }
  else some s

/-- The number of characters that a key without a mark may have. -/
def keyLength : Nat := 1024

/-- The candidate of the present level, if a colon here would make it a key: it is on the same
line and not too far away. A required candidate that is neither is an error. -/
def liveCandidate (s : Scanner) : Option (Option Candidate) :=
  match s.candidates with
  | some c :: _ =>
    if c.line < s.cursor.line ∨ c.index + keyLength < s.cursor.index then
      if c.required then none else some none
    else some (some c)
  | _ => some none

/-- Opens a block collection at a column right of the present one. -/
def openBlock (s : Scanner) (column : Nat) (position : Option Nat) (t : Token) : Scanner :=
  if s.inFlow then s
  else if s.indent < column then
    let s := { s with columns := column :: s.columns }
    match position with
    | some p => s.insert p t
    | none => s.push t
  else s

/-- Closes the block collections right of a column. -/
def closeBlocks (s : Scanner) (column : Int) : Scanner :=
  if s.inFlow then s
  else
    let closed := s.columns.takeWhile (fun (c : Nat) => column < (c : Int))
    { s with
      columns := s.columns.drop closed.length
      tokens := s.tokens ++ (closed.map fun _ => Token.blockEnd).toArray }

/-- A place behind the byte order mark that may stand at the front of a line. -/
def behindMark (c : Cursor) : Cursor :=
  if c.column = 0 && c.isAt '\uFEFF' then c.advance else c

/-- Past blanks, comments and line ends to the next token. A tab counts as a blank only where no
key can start. -/
def toNextToken : Nat → Scanner → Scanner
  | 0, s => s
  | n + 1, s =>
    let tabs := s.inFlow || !s.keyAllowed
    let c := (behindMark s.cursor).skipWhile fun x => x = ' ' || (tabs && x = '\x09')
    let c := if c.isAt '#' then c.skipWhile (fun x => !isBreak x) else c
    match c.rest with
    | x :: _ =>
      if isBreak x then
        let c := c.readBreak.2
        toNextToken n { s with cursor := c, keyAllowed := s.keyAllowed || !s.inFlow }
      else { s with cursor := c }
    | [] => { s with cursor := c }

/-- The end of the stream. -/
def fetchStreamEnd (s : Scanner) : Option Scanner :=
  ((s.closeBlocks (-1)).dropCandidate).map fun s => { s.push .streamEnd with keyAllowed := false }

/-- A number of at most nine digits in a directive. -/
def directiveNumber (c : Cursor) : Option (Nat × Cursor) :=
  let (digits, c) := c.takeWhile Text.isDigit
  if digits.isEmpty || 9 < digits.length then none else some (Text.numberOf 10 digits, c)

/-- The two numbers of a version directive. -/
def versionDirective (c : Cursor) : Option (Token × Cursor) := do
  let (major, c) ← directiveNumber (c.skipWhile isSpace)
  if c.isAt '.' then
    let (minor, c) ← directiveNumber c.advance
    return (.versionDirective major minor, c)
  else none

/-- A character of a tag, besides those of a name. -/
def isTagChar (c : Char) : Bool :=
  isNameChar c || c = ';' || c = '/' || c = '?' || c = ':' || c = '@' || c = '&' || c = '=' ||
    c = '+' || c = '$' || c = '.' || c = '!' || c = '~' || c = '*' || c = '\x27' || c = '(' ||
    c = ')' || c = '%'

/-- The bytes behind percent signs at the front, and what follows them. -/
def percentBytes : List Char → Option (List UInt8 × List Char)
  | '%' :: a :: b :: rest =>
    match Text.number? 16 [a, b] with
    | some n => (percentBytes rest).map fun (bytes, rest) => (n.toUInt8 :: bytes, rest)
    | none => none
  | '%' :: _ => none
  | cs => some ([], cs)

/-- The characters of a tag, where percent signs stand for bytes of UTF-8. The first argument
bounds the number of steps. -/
def tagText (extra : Char → Bool) : Nat → Cursor → Option (List Char × Cursor)
  | 0, c => some ([], c)
  | n + 1, c =>
    match c.rest with
    | '%' :: _ =>
      match percentBytes c.rest with
      | none => none
      | some (bytes, rest) =>
        match Text.strict? (ByteArray.mk bytes.toArray) with
        | none => none
        | some s =>
          (tagText extra n (c.skip (c.rest.length - rest.length))).map fun (text, c) =>
            (s.toList ++ text, c)
    | x :: _ =>
      if isTagChar x || extra x then
        (tagText extra n c.advance).map fun (text, c) => (x :: text, c)
      else some ([], c)
    | [] => some ([], c)

/-- A tag handle: an exclamation mark, a name, and perhaps a second mark. -/
def tagHandle (c : Cursor) : Option (List Char × Cursor) :=
  if c.isAt '!' then
    let (name, c) := c.advance.takeWhile isNameChar
    if c.isAt '!' then some ('!' :: name ++ ['!'], c.advance) else some ('!' :: name, c)
  else none

/-- The handle and the expansion of a tag directive. -/
def tagDirective (c : Cursor) : Option (Token × Cursor) := do
  let (handle, c) ← tagHandle (c.skipWhile isSpace)
  if handle ≠ ['!'] ∧ handle.getLast? ≠ some '!' then none
  else
    match c.rest with
    | x :: _ =>
      if isSpace x then
        let c := c.skipWhile isSpace
        let (text, c) ← tagText (fun x => x = ',' || x = '[' || x = ']') (c.rest.length + 1) c
        if text.isEmpty || !endsWord c.rest then none
        else return (.tagDirective (String.ofList handle) (String.ofList text), c)
      else none
    | [] => none

/-- A directive with the rest of its line. -/
def fetchDirective (s : Scanner) : Option Scanner := do
  let s ← (s.closeBlocks (-1)).dropCandidate
  let (name, c) := s.cursor.advance.takeWhile isNameChar
  if !endsWord c.rest then none
  else
    let (t, c) ←
      if name = ['Y', 'A', 'M', 'L'] then versionDirective c
      else if name = ['T', 'A', 'G'] then tagDirective c
      else none
    let c := c.skipWhile isSpace
    let c := if c.isAt '#' then c.skipWhile (fun x => !isBreak x) else c
    if endsLine c.rest then
      return { s.push t with cursor := c.readBreak.2, keyAllowed := false }
    else none

/-- A document marker. -/
def fetchMarker (s : Scanner) (t : Token) : Option Scanner :=
  ((s.closeBlocks (-1)).dropCandidate).map fun s =>
    { (s.push t).skip 3 with keyAllowed := false }

/-- The start of a flow collection. -/
def fetchFlowStart (s : Scanner) (t : Token) : Option Scanner :=
  s.saveCandidate.map fun s =>
    { (s.push t).skip 1 with candidates := none :: s.candidates, keyAllowed := true }

/-- The end of a flow collection. -/
def fetchFlowEnd (s : Scanner) (t : Token) : Option Scanner :=
  s.dropCandidate.map fun s =>
    { (s.push t).skip 1 with
      candidates := if s.inFlow then s.candidates.tail else s.candidates
      keyAllowed := false }

/-- A comma in a flow collection. -/
def fetchFlowEntry (s : Scanner) : Option Scanner :=
  s.dropCandidate.map fun s => { (s.push .flowEntry).skip 1 with keyAllowed := true }

/-- A dash in front of an item. -/
def fetchBlockEntry (s : Scanner) : Option Scanner :=
  if !s.inFlow && !s.keyAllowed then none
  else
    (s.openBlock s.cursor.column none .blockSequenceStart).dropCandidate.map fun s =>
      { (s.push .blockEntry).skip 1 with keyAllowed := true }

/-- A question mark in front of a key. -/
def fetchKey (s : Scanner) : Option Scanner :=
  if !s.inFlow && !s.keyAllowed then none
  else
    (s.openBlock s.cursor.column none .blockMappingStart).dropCandidate.map fun s =>
      { (s.push .key).skip 1 with keyAllowed := !s.inFlow }

/-- A colon in front of a value. -/
def fetchValue (s : Scanner) : Option Scanner :=
  match s.liveCandidate with
  | none => none
  | some (some c) =>
    let s := s.insert c.position .key
    let s := s.openBlock c.column (some c.position) .blockMappingStart
    some { (s.push .value).skip 1 with
      candidates := none :: s.candidates.tail
      keyAllowed := false }
  | some none =>
    if !s.inFlow && !s.keyAllowed then none
    else
      let s := s.openBlock s.cursor.column none .blockMappingStart
      some { (s.push .value).skip 1 with
        candidates := none :: s.candidates.tail
        keyAllowed := !s.inFlow }

/-- The name of an anchor or an alias. -/
def fetchName (s : Scanner) (token : String → Token) : Option Scanner := do
  let s ← s.saveCandidate
  let (name, c) := s.cursor.advance.takeWhile isNameChar
  let ended := endsWord c.rest || (c.head?.map fun x =>
    x = '?' || x = ':' || x = ',' || x = ']' || x = '}' || x = '%' || x = '@' || x = '\x60').getD
      false
  if name.isEmpty || !ended then none
  else return { s.push (token (String.ofList name)) with cursor := c, keyAllowed := false }

/-- A tag between angle brackets, from the exclamation mark on. -/
def verbatimTag (c : Cursor) : Option (Token × Cursor) := do
  let c := c.skip 2
  let (text, c) ← tagText (fun x => x = ',' || x = '[' || x = ']') (c.rest.length + 1) c
  if text.isEmpty || !c.isAt '>' then none
  else return (.tag "" (String.ofList text), c.advance)

/-- A tag with a handle, or with the handle of one mark. A mark alone is a tag of its own. -/
def shorthandTag (c : Cursor) : Option (Token × Cursor) := do
  let (handle, c) ← tagHandle c
  let (text, c) ← tagText (fun _ => false) (c.rest.length + 1) c
  if handle.length ≥ 2 ∧ handle.getLast? = some '!' then
    if text.isEmpty then none
    else return (.tag (String.ofList handle) (String.ofList text), c)
  else
    let suffix := handle.tail ++ text
    if suffix.isEmpty then return (.tag "" "!", c)
    else return (.tag "!" (String.ofList suffix), c)

/-- A tag. -/
def fetchTag (s : Scanner) : Option Scanner := do
  let s ← s.saveCandidate
  let (t, c) ←
    match s.cursor.rest with
    | _ :: '<' :: _ => verbatimTag s.cursor
    | _ => shorthandTag s.cursor
  if endsWord c.rest || (s.inFlow && c.isAt ',') then
    return { s.push t with cursor := c, keyAllowed := false }
  else none

/-- A block scalar. -/
def fetchBlockScalar (s : Scanner) (style : Style) : Option Scanner := do
  let s ← s.dropCandidate
  let (text, c) ← Scalar.scanBlock (style = .folded) s.indent s.cursor.advance
  return { s.push (.scalar (String.ofList text) style) with cursor := c, keyAllowed := true }

/-- A quoted scalar. -/
def fetchQuoted (s : Scanner) (style : Style) : Option Scanner := do
  let s ← s.saveCandidate
  let (text, c) ←
    if style = .singleQuoted then Scalar.scanSingle s.cursor.advance
    else Scalar.scanDouble s.cursor.advance
  return { s.push (.scalar (String.ofList text) style) with cursor := c, keyAllowed := false }

/-- A plain scalar. -/
def fetchPlain (s : Scanner) : Option Scanner := do
  let s ← s.saveCandidate
  let (text, c, broken) ← Scalar.scanPlain s.inFlow (s.indent + 1).toNat s.cursor
  return { s.push (.scalar (String.ofList text) .plain) with cursor := c, keyAllowed := broken }

/-- A character that starts no plain scalar, whatever follows. -/
def isIndicator (c : Char) : Bool :=
  c = '-' || c = '?' || c = ':' || c = ',' || c = '[' || c = ']' || c = '{' || c = '}' ||
    c = '#' || c = '&' || c = '*' || c = '!' || c = '|' || c = '>' || c = '\x27' || c = '\x22' ||
    c = '%' || c = '@' || c = '\x60'

/-- A plain scalar starts with the character, given what follows it: never with a blank. -/
def startsPlain (inFlow : Bool) (x : Char) (rest : List Char) : Bool :=
  let beforeSpace := match rest with
    | y :: _ => isSpace y
    | [] => false
  !(isIndicator x || endsWord [x]) || (x = '-' && !beforeSpace) ||
    (!inFlow && (x = '?' || x = ':') && !endsWord rest)

/-- One token, and those that its place closes or opens. -/
def fetch (s : Scanner) : Option Scanner :=
  let s := toNextToken (s.cursor.rest.length + 1) s
  let s := s.closeBlocks s.cursor.column
  match s.cursor.rest with
  | [] => s.fetchStreamEnd
  | x :: rest =>
    if s.cursor.column = 0 ∧ x = '%' then s.fetchDirective
    else if s.cursor.atMarker '-' then s.fetchMarker .documentStart
    else if s.cursor.atMarker '.' then s.fetchMarker .documentEnd
    else if x = '[' then s.fetchFlowStart .flowSequenceStart
    else if x = '{' then s.fetchFlowStart .flowMappingStart
    else if x = ']' then s.fetchFlowEnd .flowSequenceEnd
    else if x = '}' then s.fetchFlowEnd .flowMappingEnd
    else if x = ',' then s.fetchFlowEntry
    else if x = '-' && endsWord rest then s.fetchBlockEntry
    else if x = '?' && (s.inFlow || endsWord rest) then s.fetchKey
    else if x = ':' && (s.inFlow || endsWord rest) then s.fetchValue
    else if x = '*' then s.fetchName .alias
    else if x = '&' then s.fetchName .anchor
    else if x = '!' then s.fetchTag
    else if x = '|' && !s.inFlow then s.fetchBlockScalar .literal
    else if x = '>' && !s.inFlow then s.fetchBlockScalar .folded
    else if x = '\x27' then s.fetchQuoted .singleQuoted
    else if x = '\x22' then s.fetchQuoted .doubleQuoted
    else if startsPlain s.inFlow x rest then s.fetchPlain
    else none

/-- The tokens from a state on; the first argument bounds the number of fetches. -/
def run : Nat → Scanner → Option (List Token)
  | 0, _ => none
  | n + 1, s =>
    match s.fetch with
    | none => none
    | some s => if s.tokens.back? = some .streamEnd then some s.tokens.toList else run n s

end Scanner

/-- The tokens of a stream, which may start with a byte order mark. -/
def Token.ofChars? (cs : List Char) : Option (List Token) :=
  let cs := match cs with
    | '\uFEFF' :: rest => rest
    | _ => cs
  if cs.all isAllowed then Scanner.run (cs.length + 2) (Scanner.start cs) else none

end Repertoire.Yaml
