import Repertoire.Yaml.Scanner

/-!
# YAML documents

The tree of the one document that a stream may hold. Keys may be any nodes. An anchor gets the
number of different anchor names before it, an alias the number that its name has at that place,
and a number refers to the last node in the document that carries it; an alias without an anchor
before it is refused.
-/

namespace Repertoire.Yaml

/-- A node with its anchor and its tag. -/
inductive Node where
  | scalar (anchor : Option Nat) (tag : Option String) (style : Style) (text : String)
  | sequence (anchor : Option Nat) (tag : Option String) (items : List Node)
  | mapping (anchor : Option Nat) (tag : Option String) (pairs : List (Node × Node))
  | alias (number : Nat)
deriving Repr

/-- What the reader of nodes knows: the tokens ahead, the tag handles with their expansions, and
the numbers of the anchor names. -/
structure NodeState where
  tokens : List Token
  handles : List (String × String)
  anchors : List (String × Nat)

/-- A step that reads nodes, unless the tokens form none. -/
abbrev NodeM := StateT NodeState Option

namespace NodeM

/-- The next token. -/
def peek : NodeM Token := fun s =>
  match s.tokens with
  | t :: _ => some (t, s)
  | [] => some (.streamEnd, s)

/-- Past the next token. -/
def next : NodeM Unit := fun s => some ((), { s with tokens := s.tokens.tail })

/-- No node. -/
def refuse {α : Type} : NodeM α := fun _ => none

/-- Gives a number to an anchor name. -/
def nameAnchor (name : String) : NodeM Nat := fun s =>
  let number := s.anchors.length
  let others := s.anchors.filter fun (n, _) => n ≠ name
  some (number, { s with anchors := (name, number) :: others })

/-- The number of an anchor name. -/
def lookUpAnchor (name : String) : NodeM Nat := fun s =>
  match s.anchors.find? fun (n, _) => n = name with
  | some (_, number) => some (number, s)
  | none => none

/-- A tag with its handle expanded. -/
def expandTag (handle suffix : String) : NodeM String := fun s =>
  if handle.isEmpty then some (suffix, s)
  else
    match s.handles.find? fun (h, _) => h = handle with
    | some (_, expansion) => some (expansion ++ suffix, s)
    | none => none

/-- A tag at the front. -/
def readTag : NodeM (Option String) := do
  match ← peek with
  | .tag handle suffix => do
    next
    return some (← expandTag handle suffix)
  | _ => return none

/-- An anchor at the front; its number is given only when the node is known to start. -/
def readAnchor : NodeM (Option String) := do
  match ← peek with
  | .anchor name => do
    next
    return some name
  | _ => return none

/-- An anchor and a tag at the front, in either order. -/
def readProperties : NodeM (Option String × Option String) := do
  match ← readAnchor with
  | some name => return (some name, ← readTag)
  | none =>
    let tag ← readTag
    if tag.isSome then return (← readAnchor, tag) else return (none, none)

/-- The number of an anchor, if there is one. -/
def number? : Option String → NodeM (Option Nat)
  | some name => do return some (← nameAnchor name)
  | none => return none

/-- The scalar that stands where nothing is written. -/
def emptyScalar : Node := .scalar none none .plain ""

mutual

/-- A node. The first argument bounds the number of nested calls; `block` says whether a block
collection may stand here, `flush` whether a sequence may stand at the column of its parent. -/
def readNode : Nat → Bool → Bool → NodeM Node
  | 0, _, _ => refuse
  | fuel + 1, block, flush => do
    match ← peek with
    | .alias name => do
      next
      return .alias (← lookUpAnchor name)
    | _ => do
      let (anchor, tag) ← readProperties
      match ← peek with
      | .blockEntry =>
        if flush then
          let number ← number? anchor
          return .sequence number tag (← readFlushItems fuel)
        else if anchor.isSome || tag.isSome then
          return .scalar (← number? anchor) tag .plain ""
        else refuse
      | .scalar text style => do
        next
        return .scalar (← number? anchor) (tag.filter (· ≠ "!")) style text
      | .flowSequenceStart => do
        next
        let number ← number? anchor
        return .sequence number tag (← readFlowItems fuel true)
      | .flowMappingStart => do
        next
        let number ← number? anchor
        return .mapping number tag (← readFlowPairs fuel true)
      | .blockSequenceStart =>
        if block then
          next
          let number ← number? anchor
          return .sequence number tag (← readBlockItems fuel)
        else if anchor.isSome || tag.isSome then
          return .scalar (← number? anchor) tag .plain ""
        else refuse
      | .blockMappingStart =>
        if block then
          next
          let number ← number? anchor
          return .mapping number tag (← readBlockPairs fuel)
        else if anchor.isSome || tag.isSome then
          return .scalar (← number? anchor) tag .plain ""
        else refuse
      | _ =>
        if anchor.isSome || tag.isSome then
          return .scalar (← number? anchor) tag .plain ""
        else refuse

/-- The items of a block sequence up to its end. -/
def readBlockItems : Nat → NodeM (List Node)
  | 0 => refuse
  | fuel + 1 => do
    match ← peek with
    | .blockEnd => do
      next
      return []
    | .blockEntry => do
      next
      let item ← match ← peek with
        | .blockEntry => pure emptyScalar
        | .blockEnd => pure emptyScalar
        | _ => readNode fuel true false
      return item :: (← readBlockItems fuel)
    | _ => refuse

/-- The items of a sequence at the column of its parent, which nothing ends. -/
def readFlushItems : Nat → NodeM (List Node)
  | 0 => refuse
  | fuel + 1 => do
    match ← peek with
    | .blockEntry => do
      next
      let item ← match ← peek with
        | .blockEntry => pure emptyScalar
        | .key => pure emptyScalar
        | .value => pure emptyScalar
        | .blockEnd => pure emptyScalar
        | _ => readNode fuel true false
      return item :: (← readFlushItems fuel)
    | _ => return []

/-- A key or a value of a block mapping, behind its mark. -/
def readBlockPart : Nat → NodeM Node
  | 0 => refuse
  | fuel + 1 => do
    match ← peek with
    | .key => return emptyScalar
    | .value => return emptyScalar
    | .blockEnd => return emptyScalar
    | _ => readNode fuel true true

/-- The pairs of a block mapping up to its end. -/
def readBlockPairs : Nat → NodeM (List (Node × Node))
  | 0 => refuse
  | fuel + 1 => do
    match ← peek with
    | .blockEnd => do
      next
      return []
    | .key => do
      next
      let key ← readBlockPart fuel
      let value ← match ← peek with
        | .value => do
          next
          readBlockPart fuel
        | _ => pure emptyScalar
      return (key, value) :: (← readBlockPairs fuel)
    | _ => refuse

/-- The one pair that stands as an item of a flow sequence, behind the mark of its key. -/
def readSinglePair : Nat → NodeM Node
  | 0 => refuse
  | fuel + 1 => do
    let key ← match ← peek with
      | .value => do
        next
        pure emptyScalar
      | .flowEntry => do
        next
        pure emptyScalar
      | .flowSequenceEnd => do
        next
        pure emptyScalar
      | _ => readNode fuel false false
    let value ← match ← peek with
      | .value => do
        next
        match ← peek with
        | .flowEntry => pure emptyScalar
        | .flowSequenceEnd => pure emptyScalar
        | _ => readNode fuel false false
      | _ => pure emptyScalar
    return .mapping none none [(key, value)]

/-- The items of a flow sequence up to its end; a comma may follow the last one. -/
def readFlowItems : Nat → Bool → NodeM (List Node)
  | 0, _ => refuse
  | fuel + 1, first => do
    match ← peek with
    | .flowSequenceEnd => do
      next
      return []
    | t => do
      if !first then
        if t = .flowEntry then next else refuse
      match ← peek with
      | .flowSequenceEnd => do
        next
        return []
      | .key => do
        next
        let item ← readSinglePair fuel
        return item :: (← readFlowItems fuel false)
      | _ => do
        let item ← readNode fuel false false
        return item :: (← readFlowItems fuel false)

/-- The pairs of a flow mapping up to its end; a comma may follow the last one. -/
def readFlowPairs : Nat → Bool → NodeM (List (Node × Node))
  | 0, _ => refuse
  | fuel + 1, first => do
    match ← peek with
    | .flowMappingEnd => do
      next
      return []
    | t => do
      if !first then
        if t = .flowEntry then next else refuse
      match ← peek with
      | .flowMappingEnd => do
        next
        return []
      | .key => do
        next
        let key ← match ← peek with
          | .value => pure emptyScalar
          | .flowEntry => pure emptyScalar
          | .flowMappingEnd => pure emptyScalar
          | _ => readNode fuel false false
        let value ← match ← peek with
          | .value => do
            next
            match ← peek with
            | .flowEntry => pure emptyScalar
            | .flowMappingEnd => pure emptyScalar
            | _ => readNode fuel false false
          | _ => pure emptyScalar
        return (key, value) :: (← readFlowPairs fuel false)
      | _ => do
        let key ← readNode fuel false false
        return (key, emptyScalar) :: (← readFlowPairs fuel false)

end

/-- The expansions that tag handles have without a directive. -/
def defaultHandles : List (String × String) :=
  [("!", "!"), ("!!", "tag:yaml.org,2002:")]

/-- The directives in front of a document. Each handle is directed once, and the version once
and to one that is known. -/
def readDirectives : Nat → Bool → List (String × String) → NodeM (List (String × String))
  | 0, _, _ => refuse
  | n + 1, versioned, handles => do
    match ← peek with
    | .versionDirective major minor =>
      if versioned || major ≠ 1 || (minor ≠ 1 && minor ≠ 2) then refuse
      else
        next
        readDirectives n true handles
    | .tagDirective handle expansion =>
      if handles.any fun (h, _) => h = handle then refuse
      else
        next
        readDirectives n versioned (handles ++ [(handle, expansion)])
    | _ => return handles

/-- The content of a document behind its start marker. -/
def readContent (fuel : Nat) : NodeM Node := do
  match ← peek with
  | .versionDirective .. => return emptyScalar
  | .tagDirective .. => return emptyScalar
  | .documentStart => return emptyScalar
  | .documentEnd => return emptyScalar
  | .streamEnd => return emptyScalar
  | _ => readNode fuel true false

/-- Past the end markers of a document. -/
def skipEnds : Nat → NodeM Unit
  | 0 => return ()
  | n + 1 => do
    match ← peek with
    | .documentEnd => do
      next
      skipEnds n
    | _ => return ()

/-- A document with or without a start marker. -/
def readDocument (fuel : Nat) : NodeM Node := do
  let explicit := match ← peek with
    | .versionDirective .. => true
    | .tagDirective .. => true
    | .documentStart => true
    | _ => false
  if explicit then
    let handles ← readDirectives fuel false []
    modify fun s => { s with handles := handles ++ defaultHandles }
    match ← peek with
    | .documentStart => do
      next
      readContent fuel
    | _ => refuse
  else readNode fuel true false

/-- The document of a stream, if it holds one; more than one is refused. -/
def readStream (fuel : Nat) : NodeM (Option Node) := do
  match ← peek with
  | .streamEnd => return none
  | _ => do
    let node ← readDocument fuel
    skipEnds fuel
    match ← peek with
    | .streamEnd => return some node
    | _ => refuse

end NodeM

mutual

/-- The nodes that carry an anchor, with its number, in document order. -/
def Node.anchored : Node → List (Nat × Node)
  | .scalar anchor tag style text =>
    (anchor.map fun n => (n, Node.scalar anchor tag style text)).toList
  | .sequence anchor tag items =>
    (anchor.map fun n => (n, Node.sequence anchor tag items)).toList ++ Node.anchoredItems items
  | .mapping anchor tag pairs =>
    (anchor.map fun n => (n, Node.mapping anchor tag pairs)).toList ++ Node.anchoredPairs pairs
  | .alias _ => []

/-- The anchored nodes of items. -/
def Node.anchoredItems : List Node → List (Nat × Node)
  | [] => []
  | n :: rest => n.anchored ++ Node.anchoredItems rest

/-- The anchored nodes of pairs. -/
def Node.anchoredPairs : List (Node × Node) → List (Nat × Node)
  | [] => []
  | (k, v) :: rest => k.anchored ++ v.anchored ++ Node.anchoredPairs rest

end

/-- The document of a stream: its root, unless the stream is empty, and the nodes that aliases
refer to, the last one of a number first. -/
structure Document where
  root : Option Node
  anchored : List (Nat × Node)

/-- The document that a stream holds; `none` when it is malformed or holds several. -/
def Document.ofChars? (cs : List Char) : Option Document :=
  match Token.ofChars? cs with
  | none => none
  | some tokens =>
    let fuel := 2 * tokens.length + 2
    match (NodeM.readStream fuel).run ⟨tokens, NodeM.defaultHandles, []⟩ with
    | none => none
    | some (root, _) =>
      some ⟨root, ((root.map Node.anchored).getD []).reverse⟩

/-- The node itself, or the one that an alias refers to. -/
def Document.follow? (d : Document) : Node → Option Node
  | .alias number => (d.anchored.find? fun (n, _) => n = number).map Prod.snd
  | node => some node

end Repertoire.Yaml
