/-!
# Mishaps in scripts

The reasons why a text is not a script, with their wording. A misreading is a mishap with the
line at which reading stopped.
-/

namespace Repertoire.Shell

/-- A reason why a text is not a script. -/
inductive Mishap where
  | openQuote
  | openBrace
  | openArithmetic
  | openBackquote
  | badLoopVariable
  | unexpected (found : String) (expected : Option String)
deriving DecidableEq, Repr

namespace Mishap

/-- The wording of a mishap. -/
def message : Mishap → String
  | openQuote => "Unterminated quoted string"
  | openBrace => "Missing '\x7d'"
  | openArithmetic => "Missing '))'"
  | openBackquote => "EOF in backquote substitution"
  | badLoopVariable => "Bad for loop variable"
  | unexpected found none => found ++ " unexpected"
  | unexpected found (some expected) => found ++ " unexpected (expecting \"" ++ expected ++ "\")"

end Mishap

/-- A mishap and the line at which reading stopped. -/
structure Misreading where
  line : Nat
  mishap : Mishap
deriving DecidableEq, Repr

end Repertoire.Shell
