/-!
# Streams of bytes

What a command can read. A stream has a beginning and may then repeat some bytes without end.
-/

namespace Repertoire.Shell

/-- Bytes that may go on without end. -/
structure Stream where
  bytes : List UInt8
  cycle : List UInt8
deriving DecidableEq, Repr

namespace Stream

/-- No bytes. -/
def empty : Stream := ⟨[], []⟩

/-- Bytes with an end. -/
def ofBytes (bytes : List UInt8) : Stream := ⟨bytes, []⟩

/-- The bytes of a text. -/
def ofText (text : String) : Stream := ⟨text.toUTF8.toList, []⟩

/-- The same bytes over and over. -/
def forever (cycle : List UInt8) : Stream := ⟨[], cycle⟩

/-- The stream has no end. -/
def isEndless (s : Stream) : Bool := !s.cycle.isEmpty

/-- The first bytes of a cycle that is repeated without end. -/
def takeCycle (n : Nat) (cycle : List UInt8) : List UInt8 :=
  (List.replicate (n / cycle.length) cycle).flatten ++ cycle.take (n % cycle.length)

/-- The first bytes of a stream. -/
def take (n : Nat) (s : Stream) : List UInt8 :=
  let front := s.bytes.take n
  front ++ takeCycle (n - front.length) s.cycle

/-- One stream behind another. -/
def append (a b : Stream) : Stream := if a.isEndless then a else ⟨a.bytes ++ b.bytes, b.cycle⟩

/-- The stream with each byte replaced by others. -/
def flatMap (f : UInt8 → List UInt8) (s : Stream) : Stream :=
  ⟨s.bytes.flatMap f, s.cycle.flatMap f⟩

end Stream

end Repertoire.Shell
