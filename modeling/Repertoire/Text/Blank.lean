/-!
# Blank characters

The characters that count as blank are those with the Unicode property `White_Space`, all
twenty-five of them, and not only the ASCII ones. Trimming removes blank characters at the
ends of a text and nothing else; a text is blank when trimming leaves nothing.
-/

namespace Repertoire.Text

/-- The code point has the Unicode property `White_Space`. -/
def isBlank (c : Char) : Bool :=
  let n := c.toNat
  (0x09 ≤ n && n ≤ 0x0D) || n == 0x20 || n == 0x85 || n == 0xA0 || n == 0x1680 ||
    (0x2000 ≤ n && n ≤ 0x200A) || n == 0x2028 || n == 0x2029 || n == 0x202F || n == 0x205F ||
    n == 0x3000

/-- The list without its longest final run of elements that satisfy `p`. -/
def dropTail {α : Type} (p : α → Bool) (xs : List α) : List α :=
  (xs.reverse.dropWhile p).reverse

/-- Characters without blank ones at the front. -/
def trimFront (cs : List Char) : List Char :=
  cs.dropWhile isBlank

/-- Characters without blank ones at either end. -/
def trimChars (cs : List Char) : List Char :=
  dropTail isBlank (trimFront cs)

/-- A text without blank characters at either end. -/
def trim (s : String) : String :=
  String.ofList (trimChars s.toList)

/-- A text that holds nothing but blank characters. -/
def AllBlank (s : String) : Prop :=
  ∀ c ∈ s.toList, isBlank c = true

instance (s : String) : Decidable (AllBlank s) :=
  List.decidableBAll (fun c => isBlank c = true) s.toList

end Repertoire.Text
