/-!
# YAML tokens

The tokens of a YAML 1.1 stream. Indentation and the keys of block mappings are already made
explicit in them: a block collection has a token at its start and one at its end, and each key
has a token in front of it, also when nothing is written there.
-/

namespace Repertoire.Yaml

/-- The way a scalar is written. -/
inductive Style where
  | plain
  | singleQuoted
  | doubleQuoted
  | literal
  | folded
deriving DecidableEq, Repr

/-- A token of the stream. -/
inductive Token where
  | streamEnd
  | versionDirective (major minor : Nat)
  | tagDirective (handle expansion : String)
  | documentStart
  | documentEnd
  | blockSequenceStart
  | blockMappingStart
  | blockEnd
  | flowSequenceStart
  | flowSequenceEnd
  | flowMappingStart
  | flowMappingEnd
  | blockEntry
  | flowEntry
  | key
  | value
  | alias (name : String)
  | anchor (name : String)
  | tag (handle suffix : String)
  | scalar (text : String) (style : Style)
deriving DecidableEq, Repr

end Repertoire.Yaml
