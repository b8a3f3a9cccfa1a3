import Repertoire.Text.Digits
import Repertoire.Yaml.Cursor

/-!
# YAML scalars

The five ways of writing a scalar. Where a scalar runs over several lines, the gap between two
words is folded: a single line end becomes a blank, and further ones stay. Each scanner starts
behind the mark that opens the scalar, if there is one, and returns its text and the place
behind it. The number that each loop takes first bounds its steps.
-/

namespace Repertoire.Yaml.Scalar

open Repertoire.Text

/-- What stands between two words: blanks, or a first line end and the following ones. -/
structure Gap where
  blanks : List Char
  first : List Char
  further : List Char
  broken : Bool

namespace Gap

/-- Nothing. -/
def empty : Gap := ⟨[], [], [], false⟩

/-- The text that a gap stands for. -/
def text (g : Gap) : List Char :=
  if g.broken then
    if g.first.head? = some '\x0a' then (if g.further.isEmpty then [' '] else g.further)
    else g.first ++ g.further
  else g.blanks

/-- A gap with one line end more, which removes the blanks before it. -/
def addBreak (g : Gap) (read : List Char) : Gap :=
  if g.broken then { g with further := g.further ++ read }
  else { g with blanks := [], first := read, broken := true }

/-- A gap with one blank more; blanks at the front of a line do not count. -/
def addBlank (g : Gap) (c : Char) : Gap :=
  if g.broken then g else { g with blanks := g.blanks ++ [c] }

end Gap

/-- The blanks and line ends at a place. A tab left of the given column is refused when it
stands at the front of a line. -/
def scanGap (tabLimit : Nat) : Nat → Gap → Cursor → Option (Gap × Cursor)
  | 0, g, c => some (g, c)
  | n + 1, g, c =>
    match c.rest with
    | [] => some (g, c)
    | x :: _ =>
      if isSpace x then
        if x = '\x09' ∧ g.broken ∧ c.column < tabLimit then none
        else scanGap tabLimit n (g.addBlank x) c.advance
      else if isBreak x then
        let (read, c) := c.readBreak
        scanGap tabLimit n (g.addBreak read) c
      else some (g, c)

/-- An indicator of flow collections. -/
def isFlowIndicator (c : Char) : Bool :=
  c = ',' || c = '[' || c = ']' || c = '{' || c = '}'

/-- The rest of a word of a plain scalar; `none` for a colon that stands against an indicator
within a flow collection. -/
def scanWord (inFlow : Bool) : List Char → Option (List Char)
  | [] => some []
  | x :: rest =>
    if isSpace x || isBreak x then some []
    else if x = ':' ∧ endsWord rest then some []
    else if inFlow && x = ':' &&
        (match rest with
          | y :: _ => isFlowIndicator y || y = '?'
          | [] => false) then none
    else if inFlow && isFlowIndicator x then some []
    else (scanWord inFlow rest).map (x :: ·)

/-- The words of a plain scalar from a place on, after the text so far and the gap behind it.
The last component says whether the scalar was followed by a line end. -/
def scanPlainFrom (inFlow : Bool) (indent : Nat) :
    Nat → List Char → Gap → Cursor → Option (List Char × Cursor × Bool)
  | 0, text, g, c => some (text, c, g.broken)
  | n + 1, text, g, c =>
    if c.atDocumentMarker || c.isAt '#' then some (text, c, g.broken)
    else
      match scanWord inFlow c.rest with
      | none => none
      | some [] => some (text, c, g.broken)
      | some word =>
        let text := text ++ g.text ++ word
        let c := c.skip word.length
        if !endsWord c.rest || c.rest.isEmpty then some (text, c, false)
        else
          match scanGap indent c.rest.length Gap.empty c with
          | none => none
          | some (g, c) =>
            if !inFlow && c.column < indent then some (text, c, g.broken)
            else scanPlainFrom inFlow indent n text g c

/-- A plain scalar; lines after the first one start at the given column or right of it. -/
def scanPlain (inFlow : Bool) (indent : Nat) (c : Cursor) :
    Option (List Char × Cursor × Bool) :=
  scanPlainFrom inFlow indent (c.rest.length + 1) [] Gap.empty c

/-- The words of a single-quoted scalar from a place on. -/
def scanSingleFrom : Nat → List Char → Cursor → Option (List Char × Cursor)
  | 0, _, _ => none
  | n + 1, text, c =>
    match c.rest with
    | [] => none
    | '\x27' :: '\x27' :: _ => scanSingleFrom n (text ++ ['\x27']) (c.skip 2)
    | '\x27' :: _ => some (text, c.advance)
    | x :: _ =>
      if isSpace x || isBreak x then
        match scanGap 0 c.rest.length Gap.empty c with
        | none => none
        | some (g, c) =>
          if c.atDocumentMarker then none else scanSingleFrom n (text ++ g.text) c
      else scanSingleFrom n (text ++ [x]) c.advance

/-- A single-quoted scalar. -/
def scanSingle (c : Cursor) : Option (List Char × Cursor) :=
  if c.atDocumentMarker then none else scanSingleFrom (c.rest.length + 1) [] c

/-- The character that a one-letter escape names. -/
def named? (c : Char) : Option Char :=
  if c = '0' then some '\x00'
  else if c = 'a' then some '\x07'
  else if c = 'b' then some '\x08'
  else if c = 't' ∨ c = '\x09' then some '\x09'
  else if c = 'n' then some '\x0a'
  else if c = 'v' then some '\x0b'
  else if c = 'f' then some '\x0c'
  else if c = 'r' then some '\x0d'
  else if c = 'e' then some '\x1b'
  else if c = ' ' then some ' '
  else if c = '\x22' then some '\x22'
  else if c = '/' then some '/'
  else if c = '\\' then some '\\'
  else if c = 'N' then some '\u0085'
  else if c = '_' then some '\u00a0'
  else if c = 'L' then some '\u2028'
  else if c = 'P' then some '\u2029'
  else none

/-- The number of hexadecimal digits behind an escape that names a code point. -/
def codeLength? (c : Char) : Option Nat :=
  if c = 'x' then some 2 else if c = 'u' then some 4 else if c = 'U' then some 8 else none

/-- The character that an escape names and the place behind it, from the letter on. -/
def scanEscape (c : Cursor) : Option (Char × Cursor) :=
  match c.rest with
  | [] => none
  | x :: rest =>
    match codeLength? x with
    | some n =>
      let digits := rest.take n
      if digits.length = n then
        ((number? 16 digits).bind charAt?).map fun named => (named, c.skip (n + 1))
      else none
    | none => (named? x).map fun named => (named, c.advance)

/-- The words of a double-quoted scalar from a place on. -/
def scanDoubleFrom : Nat → List Char → Cursor → Option (List Char × Cursor)
  | 0, _, _ => none
  | n + 1, text, c =>
    match c.rest with
    | [] => none
    | '\x22' :: _ => some (text, c.advance)
    | '\\' :: rest =>
      if !rest.isEmpty && endsLine rest then
        let (_, c) := c.advance.readBreak
        match scanGap 0 c.rest.length { Gap.empty with broken := true } c with
        | none => none
        | some (g, c) =>
          if c.atDocumentMarker then none else scanDoubleFrom n (text ++ g.text) c
      else
        match scanEscape c.advance with
        | none => none
        | some (named, c) => scanDoubleFrom n (text ++ [named]) c
    | x :: _ =>
      if isSpace x || isBreak x then
        match scanGap 0 c.rest.length Gap.empty c with
        | none => none
        | some (g, c) =>
          if c.atDocumentMarker then none else scanDoubleFrom n (text ++ g.text) c
      else scanDoubleFrom n (text ++ [x]) c.advance

/-- A double-quoted scalar. -/
def scanDouble (c : Cursor) : Option (List Char × Cursor) :=
  if c.atDocumentMarker then none else scanDoubleFrom (c.rest.length + 1) [] c

/-- What happens to the line ends behind a block scalar. -/
inductive Chomping where
  | strip
  | clip
  | keep
deriving DecidableEq

/-- A chomping mark at the front. -/
def scanChomping (c : Cursor) : Option (Chomping × Cursor) :=
  match c.rest with
  | '+' :: _ => some (.keep, c.advance)
  | '-' :: _ => some (.strip, c.advance)
  | _ => none

/-- An indentation mark at the front: a digit, of which zero is refused. -/
def scanIncrement (c : Cursor) : Option (Option Nat × Cursor) :=
  match c.rest with
  | x :: _ =>
    if isDigit x then
      if x = '0' then none else some (digitValue? x, c.advance)
    else some (none, c)
  | [] => some (none, c)

/-- The marks of a block scalar in either order, up to the end of their line. -/
def scanHeader (c : Cursor) : Option (Chomping × Option Nat × Cursor) := do
  let (chomping, increment, c) ←
    match scanChomping c with
    | some (chomping, c) => (scanIncrement c).map fun (i, c) => (chomping, i, c)
    | none =>
      match scanIncrement c with
      | none => none
      | some (none, c) => some (.clip, none, c)
      | some (some i, c) =>
        match scanChomping c with
        | some (chomping, c) => some (chomping, some i, c)
        | none => some (.clip, some i, c)
  let c := c.skipWhile isSpace
  let c := if c.isAt '#' then c.skipWhile (fun x => !isBreak x) else c
  if endsLine c.rest then some (chomping, increment, c.readBreak.2) else none

/-- Empty lines in front of a line of a block scalar, with the indentation removed, and the
widest indentation seen. While the indentation of the scalar is not known, all blanks count. -/
def scanEmptyLines (indent : Option Nat) :
    Nat → Nat → List Char → Cursor → Option (Nat × List Char × Cursor)
  | 0, widest, breaks, c => some (widest, breaks, c)
  | n + 1, widest, breaks, c =>
    let spaces := (c.rest.takeWhile (· = ' ')).length
    let c :=
      match indent with
      | none => c.skip spaces
      | some i => c.skip (min spaces (i - c.column))
    let widest := max widest c.column
    let inside := match indent with
      | none => true
      | some i => c.column < i
    if inside && c.isAt '\x09' then none
    else if !c.rest.isEmpty && endsLine c.rest then
      let (read, c) := c.readBreak
      scanEmptyLines indent n widest (breaks ++ read) c
    else some (widest, breaks, c)

/-- The lines of a block scalar at an indentation: the text so far, the line end behind it,
whether its last line started with a blank, and the line ends of the empty lines after it. -/
def scanLines (folded : Bool) (indent : Nat) :
    Nat → List Char → List Char → Bool → List Char → Cursor →
      Option (List Char × List Char × List Char × Cursor)
  | 0, text, first, _, further, c => some (text, first, further, c)
  | n + 1, text, first, wasBlank, further, c =>
    if c.column = indent && !c.rest.isEmpty then
      let startsBlank := match c.rest with
        | x :: _ => isSpace x
        | [] => false
      let joined :=
        if folded && first.head? = some '\x0a' && !wasBlank && !startsBlank then
          (if further.isEmpty then [' '] else []) ++ further
        else first ++ further
      let (line, c) := c.takeWhile (fun x => !isBreak x)
      let (first, c) := c.readBreak
      match scanEmptyLines (some indent) (c.rest.length + 1) 0 [] c with
      | none => none
      | some (_, further, c) =>
        scanLines folded indent n (text ++ joined ++ line) first startsBlank further c
    else some (text, first, further, c)

/-- A block scalar inside a collection that is indented by `parent`, which is negative outside
of any. -/
def scanBlock (folded : Bool) (parent : Int) (c : Cursor) : Option (List Char × Cursor) := do
  let (chomping, increment, c) ← scanHeader c
  let least := (parent + 1).toNat
  let known := increment.map fun i => if 0 ≤ parent then parent.toNat + i else i
  let (widest, breaks, c) ← scanEmptyLines known (c.rest.length + 1) 0 [] c
  let indent := known.getD (max (max widest least) 1)
  let (text, first, further, c) ←
    scanLines folded indent (c.rest.length + 1) [] [] false breaks c
  let text := if chomping = .strip then text else text ++ first
  let text := if chomping = .keep then text ++ further else text
  return (text, c)

end Repertoire.Yaml.Scalar
