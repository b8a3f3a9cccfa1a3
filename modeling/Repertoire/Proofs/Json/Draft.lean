import Repertoire.Proofs.Json.Literal
import Repertoire.Proofs.Text.Outline

/-!
# JSON documents with a gap

The readers of values, items and members call each other, so they are followed through a draft in one
induction on the fuel. What stands at the front of a text decides which way a reader goes, and the
description of it is exact. So it is enough to show that the same thing stands there with any word in
the gap. The gap may not be in the name of a member: names decide what is read from a document, and
two that differ may become the same.
-/

namespace Repertoire.Json

open Repertoire.Text

namespace Tree

/-- What JSON makes of texts, lists and records. -/
def form : Form Tree (List Char) := ⟨.string, .array, .object⟩

mutual

/-- The names of all members in a tree as they are written. -/
def names : Tree → List (List Char)
  | .array items => itemNames items
  | .object members => memberNames members
  | _ => []

/-- The names of all members in items. -/
def itemNames : List Tree → List (List Char)
  | [] => []
  | t :: ts => names t ++ itemNames ts

/-- The names of members and of all members in them. -/
def memberNames : List (List Char × Tree) → List (List Char)
  | [] => []
  | (name, t) :: ts => name :: names t ++ memberNames ts

end

/-! ## What a value starts with -/

/-- The words of the language with their values. -/
def words : List (List Char × Tree) :=
  [(['n', 'u', 'l', 'l'], .null), (['t', 'r', 'u', 'e'], .bool true),
    (['f', 'a', 'l', 's', 'e'], .bool false)]

/-- A value at the front of a text that starts with no blank, and what follows it; the fuel is for
what the value contains. -/
inductive Front (fuel : ℕ) : List Char → Tree → List Char → Prop
  | word (lead : List Char) (t : Tree) (rest : List Char) (h : (lead, t) ∈ words) :
      Front fuel (lead ++ rest) t rest
  | string (cs literal rest : List Char) (h : Quoted.scan cs = some (literal, rest)) :
      Front fuel ('\x22' :: cs) (.string literal) rest
  | emptyArray (cs rest : List Char) (h : skipSpace cs = ']' :: rest) :
      Front fuel ('[' :: cs) (.array []) rest
  | array (cs rest : List Char) (items : List Tree) (hopen : ∀ z, skipSpace cs ≠ ']' :: z)
      (h : readItems fuel cs = some (items, rest)) : Front fuel ('[' :: cs) (.array items) rest
  | emptyObject (cs rest : List Char) (h : skipSpace cs = '\x7d' :: rest) :
      Front fuel ('\x7b' :: cs) (.object []) rest
  | object (cs rest : List Char) (members : List (List Char × Tree))
      (hopen : ∀ z, skipSpace cs ≠ '\x7d' :: z)
      (h : readMembers fuel cs = some (members, rest)) :
      Front fuel ('\x7b' :: cs) (.object members) rest
  | number (cs rest : List Char) (n : Numeral) (h : Numeral.scan cs = some (n, rest)) :
      Front fuel cs (.number n) rest

/-- What the reader finds behind the blanks is a value. -/
theorem front_of_readValue {fuel : ℕ} {cs rest : List Char} {t : Tree}
    (h : readValue (fuel + 1) cs = some (t, rest)) : Front fuel (skipSpace cs) t rest := by
  rw [readValue] at h
  -- One branch for each word, and one for each other first character.
  split at h
  case h_1 rest₁ hfront =>
    obtain ⟨rfl, rfl⟩ := Prod.mk.inj (Option.some.inj h)
    rw [hfront]
    exact .word ['n', 'u', 'l', 'l'] .null rest₁ (by simp [words])
  case h_2 rest₁ hfront =>
    obtain ⟨rfl, rfl⟩ := Prod.mk.inj (Option.some.inj h)
    rw [hfront]
    exact .word ['t', 'r', 'u', 'e'] (.bool true) rest₁ (by simp [words])
  case h_3 rest₁ hfront =>
    obtain ⟨rfl, rfl⟩ := Prod.mk.inj (Option.some.inj h)
    rw [hfront]
    exact .word ['f', 'a', 'l', 's', 'e'] (.bool false) rest₁ (by simp [words])
  case h_4 rest₁ hfront =>
    obtain ⟨literal, hscan, rfl⟩ := exists_of_map_eq_some h
    rw [hfront]
    exact .string _ _ _ hscan
  case h_5 rest₁ hfront =>
    rw [hfront]
    split at h
    · rename_i hclose
      obtain ⟨rfl, rfl⟩ := Prod.mk.inj (Option.some.inj h)
      exact .emptyArray _ _ hclose
    · rename_i hopen
      obtain ⟨items, hread, rfl⟩ := exists_of_map_eq_some h
      exact .array _ _ _ hopen hread
  case h_6 rest₁ hfront =>
    rw [hfront]
    split at h
    · rename_i hclose
      obtain ⟨rfl, rfl⟩ := Prod.mk.inj (Option.some.inj h)
      exact .emptyObject _ _ hclose
    · rename_i hopen
      obtain ⟨members, hread, rfl⟩ := exists_of_map_eq_some h
      exact .object _ _ _ hopen hread
  case h_7 =>
    obtain ⟨n, hscan, rfl⟩ := exists_of_map_eq_some h
    exact .number _ _ _ hscan

/-- The reader finds every value behind the blanks. -/
theorem Front.readValue_eq {fuel : ℕ} {cs rest : List Char} {t : Tree}
    (h : Front fuel (skipSpace cs) t rest) : readValue (fuel + 1) cs = some (t, rest) := by
  rw [readValue]
  generalize skipSpace cs = front at h
  cases h with
  | word lead t rest hword =>
    simp only [words, List.mem_cons, List.not_mem_nil, or_false, Prod.mk.injEq] at hword
    rcases hword with ⟨rfl, rfl⟩ | ⟨rfl, rfl⟩ | ⟨rfl, rfl⟩ <;> rfl
  | string cs literal rest hscan => simp only [hscan, Option.map_some]
  | emptyArray cs rest hclose => simp only [hclose]
  | array cs rest items hopen hread => simp only [hread, Option.map_some]
  | emptyObject cs rest hclose => simp only [hclose]
  | object cs rest members hopen hread => simp only [hread, Option.map_some]
  | number cs rest n hscan =>
    split
    case h_7 => rw [hscan, Option.map_some]
    all_goals exact absurd rfl (Numeral.ne_of_scan hscan (by decide) (by decide) _)

/-- The reader finds a value exactly where one stands behind the blanks. -/
theorem readValue_eq_some {fuel : ℕ} {cs rest : List Char} {t : Tree} :
    readValue (fuel + 1) cs = some (t, rest) ↔ Front fuel (skipSpace cs) t rest :=
  ⟨front_of_readValue, Front.readValue_eq⟩

/-- A value in a list or a record, with the mark behind it and what follows the mark. -/
def ItemAt (fuel : ℕ) (cs : List Char) (t : Tree) (mark : Char) (rest : List Char) : Prop :=
  ∃ after, readValue fuel cs = some (t, after) ∧ skipSpace after = mark :: rest

/-- A member in a record, with the mark behind it and what follows the mark. -/
def MemberAt (fuel : ℕ) (cs name : List Char) (t : Tree) (mark : Char) (rest : List Char) :
    Prop :=
  ∃ front afterName afterColon, skipSpace cs = '\x22' :: front ∧
    Quoted.scan front = some (name, afterName) ∧ skipSpace afterName = ':' :: afterColon ∧
      ItemAt fuel afterColon t mark rest

/-- Items are an item and a comma with more of them, or a last one with the bracket. -/
theorem readItems_eq_some {fuel : ℕ} {cs rest : List Char} {items : List Tree} :
    readItems (fuel + 1) cs = some (items, rest) ↔
      (∃ t more items', ItemAt fuel cs t ',' more ∧ readItems fuel more = some (items', rest) ∧
        items = t :: items') ∨ ∃ t, ItemAt fuel cs t ']' rest ∧ items = [t] := by
  constructor
  · intro h
    rw [readItems] at h
    split at h
    · simp at h
    · rename_i t after hitem
      split at h
      · rename_i more hcomma
        obtain ⟨items', hmore, rfl⟩ := exists_of_map_eq_some h
        exact .inl ⟨t, more, items', ⟨after, hitem, hcomma⟩, hmore, rfl⟩
      · rename_i hclose
        obtain ⟨rfl, rfl⟩ := Prod.mk.inj (Option.some.inj h)
        exact .inr ⟨t, ⟨after, hitem, hclose⟩, rfl⟩
      · simp at h
  · rintro (⟨t, more, items', ⟨after, hitem, hcomma⟩, hmore, rfl⟩ |
      ⟨t, ⟨after, hitem, hclose⟩, rfl⟩)
    · simp only [readItems, hitem, hcomma, hmore, Option.map_some]
    · simp only [readItems, hitem, hclose]

/-- Members are a member and a comma with more of them, or a last one with the brace. -/
theorem readMembers_eq_some {fuel : ℕ} {cs rest : List Char}
    {members : List (List Char × Tree)} :
    readMembers (fuel + 1) cs = some (members, rest) ↔
      (∃ name t more members', MemberAt fuel cs name t ',' more ∧
        readMembers fuel more = some (members', rest) ∧ members = (name, t) :: members') ∨
      ∃ name t, MemberAt fuel cs name t '\x7d' rest ∧ members = [(name, t)] := by
  constructor
  · intro h
    rw [readMembers] at h
    split at h
    · rename_i front hquote
      split at h
      · simp at h
      · rename_i name afterName hname
        split at h
        · rename_i afterColon hcolon
          split at h
          · simp at h
          · rename_i t after hitem
            split at h
            · rename_i more hcomma
              obtain ⟨members', hmore, rfl⟩ := exists_of_map_eq_some h
              exact .inl ⟨name, t, more, members', ⟨front, afterName, afterColon, hquote, hname,
                hcolon, after, hitem, hcomma⟩, hmore, rfl⟩
            · rename_i hclose
              obtain ⟨rfl, rfl⟩ := Prod.mk.inj (Option.some.inj h)
              exact .inr ⟨name, t, ⟨front, afterName, afterColon, hquote, hname, hcolon, after,
                hitem, hclose⟩, rfl⟩
            · simp at h
        · simp at h
    · simp at h
  · rintro (⟨name, t, more, members', ⟨front, afterName, afterColon, hquote, hname, hcolon, after,
      hitem, hcomma⟩, hmore, rfl⟩ | ⟨name, t, ⟨front, afterName, afterColon, hquote, hname,
      hcolon, after, hitem, hclose⟩, rfl⟩)
    · simp only [readMembers, hquote, hname, hcolon, hitem, hcomma, hmore, Option.map_some]
    · simp only [readMembers, hquote, hname, hcolon, hitem, hclose]

/-! ## Fuel -/

/-- What a reader leaves is shorter, and it needs no more fuel than characters were taken. -/
def Enough {α : Type} (read : ℕ → List Char → Option (α × List Char)) (fuel : ℕ) : Prop :=
  ∀ {cs x rest}, read fuel cs = some (x, rest) → rest.length < cs.length ∧
    ∀ fuel', cs.length ≤ fuel' + rest.length → read fuel' cs = some (x, rest)

/-- Dropping blanks makes no text longer. -/
theorem length_skipSpace_le (cs : List Char) : (skipSpace cs).length ≤ cs.length :=
  (List.dropWhile_suffix isSpace).length_le

/-- An item is found with as much fuel as it has characters. -/
theorem ItemAt.enough {fuel : ℕ} {cs rest : List Char} {t : Tree} {mark : Char}
    (h : ItemAt fuel cs t mark rest) (hvalue : Enough readValue fuel) :
    rest.length + 1 < cs.length ∧
      ∀ fuel', cs.length ≤ fuel' + (rest.length + 1) → ItemAt fuel' cs t mark rest := by
  obtain ⟨after, hitem, hmark⟩ := h
  obtain ⟨hlt, henough⟩ := hvalue hitem
  have hle := length_skipSpace_le after
  rw [hmark, List.length_cons] at hle
  exact ⟨by omega, fun fuel' hfuel => ⟨after, henough fuel' (by omega), hmark⟩⟩

/-- A member is found with as much fuel as it has characters. -/
theorem MemberAt.enough {fuel : ℕ} {cs name rest : List Char} {t : Tree} {mark : Char}
    (h : MemberAt fuel cs name t mark rest) (hvalue : Enough readValue fuel) :
    rest.length + 1 < cs.length ∧
      ∀ fuel', cs.length ≤ fuel' + (rest.length + 1) → MemberAt fuel' cs name t mark rest := by
  obtain ⟨front, afterName, afterColon, hquote, hname, hcolon, hitem⟩ := h
  obtain ⟨hlt, henough⟩ := hitem.enough hvalue
  have hle := length_skipSpace_le cs
  rw [hquote, List.length_cons] at hle
  have hlt' := Quoted.length_lt_of_scan hname
  have hle' := length_skipSpace_le afterName
  rw [hcolon, List.length_cons] at hle'
  exact ⟨by omega, fun fuel' hfuel => ⟨front, afterName, afterColon, hquote, hname, hcolon,
    henough fuel' (by omega)⟩⟩

/-- Items need no more fuel than they have characters if values and fewer items do not. -/
theorem enough_readItems {fuel : ℕ} (hvalue : Enough readValue fuel)
    (hitems : Enough readItems fuel) : Enough readItems (fuel + 1) := by
  intro cs items rest h
  rcases readItems_eq_some.mp h with ⟨t, more, items', hitem, hmore, rfl⟩ | ⟨t, hitem, rfl⟩
  · obtain ⟨hlt, henough⟩ := hitem.enough hvalue
    obtain ⟨hlt', henough'⟩ := hitems hmore
    refine ⟨by omega, fun fuel' hfuel => ?_⟩
    obtain ⟨fuel', rfl⟩ : ∃ n, fuel' = n + 1 := ⟨fuel' - 1, by omega⟩
    exact readItems_eq_some.mpr (.inl ⟨t, more, items', henough fuel' (by omega),
      henough' fuel' (by omega), rfl⟩)
  · obtain ⟨hlt, henough⟩ := hitem.enough hvalue
    refine ⟨by omega, fun fuel' hfuel => ?_⟩
    obtain ⟨fuel', rfl⟩ : ∃ n, fuel' = n + 1 := ⟨fuel' - 1, by omega⟩
    exact readItems_eq_some.mpr (.inr ⟨t, henough fuel' (by omega), rfl⟩)

/-- Members need no more fuel than they have characters if values and fewer members do not. -/
theorem enough_readMembers {fuel : ℕ} (hvalue : Enough readValue fuel)
    (hmembers : Enough readMembers fuel) : Enough readMembers (fuel + 1) := by
  intro cs members rest h
  rcases readMembers_eq_some.mp h with
    ⟨name, t, more, members', hmember, hmore, rfl⟩ | ⟨name, t, hmember, rfl⟩
  · obtain ⟨hlt, henough⟩ := hmember.enough hvalue
    obtain ⟨hlt', henough'⟩ := hmembers hmore
    refine ⟨by omega, fun fuel' hfuel => ?_⟩
    obtain ⟨fuel', rfl⟩ : ∃ n, fuel' = n + 1 := ⟨fuel' - 1, by omega⟩
    exact readMembers_eq_some.mpr (.inl ⟨name, t, more, members', henough fuel' (by omega),
      henough' fuel' (by omega), rfl⟩)
  · obtain ⟨hlt, henough⟩ := hmember.enough hvalue
    refine ⟨by omega, fun fuel' hfuel => ?_⟩
    obtain ⟨fuel', rfl⟩ : ∃ n, fuel' = n + 1 := ⟨fuel' - 1, by omega⟩
    exact readMembers_eq_some.mpr (.inr ⟨name, t, henough fuel' (by omega), rfl⟩)

/-- Values need no more fuel than they have characters if what they contain does not. -/
theorem enough_readValue {fuel : ℕ} (hitems : Enough readItems fuel)
    (hmembers : Enough readMembers fuel) : Enough readValue (fuel + 1) := by
  intro cs t rest h
  have hspace := length_skipSpace_le cs
  have hfront := readValue_eq_some.mp h
  have henough : rest.length < (skipSpace cs).length ∧
      ∀ fuel', (skipSpace cs).length ≤ fuel' + 1 + rest.length →
        Front fuel' (skipSpace cs) t rest := by
    -- Whatever is nested starts at least one character later, which pays for the call.
    generalize skipSpace cs = front at hfront
    cases hfront with
    | word lead t rest hword =>
      refine ⟨?_, fun fuel' _ => .word lead t rest hword⟩
      simp only [words, List.mem_cons, List.not_mem_nil, or_false, Prod.mk.injEq] at hword
      rcases hword with ⟨rfl, -⟩ | ⟨rfl, -⟩ | ⟨rfl, -⟩ <;> simp <;> omega
    | string cs literal rest hscan =>
      have hlt := Quoted.length_lt_of_scan hscan
      exact ⟨by rw [List.length_cons]; omega, fun fuel' _ => .string cs literal rest hscan⟩
    | emptyArray cs rest hclose =>
      have hle := length_skipSpace_le cs
      rw [hclose, List.length_cons] at hle
      exact ⟨by rw [List.length_cons]; omega, fun fuel' _ => .emptyArray cs rest hclose⟩
    | array cs rest items hopen hread =>
      obtain ⟨hlt, henough⟩ := hitems hread
      rw [List.length_cons]
      exact ⟨by omega, fun fuel' _ => .array cs rest items hopen (henough fuel' (by omega))⟩
    | emptyObject cs rest hclose =>
      have hle := length_skipSpace_le cs
      rw [hclose, List.length_cons] at hle
      exact ⟨by rw [List.length_cons]; omega, fun fuel' _ => .emptyObject cs rest hclose⟩
    | object cs rest members hopen hread =>
      obtain ⟨hlt, henough⟩ := hmembers hread
      rw [List.length_cons]
      exact ⟨by omega, fun fuel' _ => .object cs rest members hopen (henough fuel' (by omega))⟩
    | number cs rest n hscan =>
      obtain ⟨c, more, rfl, -, hle⟩ := Numeral.exists_front_of_scan hscan
      exact ⟨by rw [List.length_cons]; omega, fun fuel' _ => .number _ rest n hscan⟩
  refine ⟨by omega, fun fuel' hfuel => ?_⟩
  obtain ⟨fuel', rfl⟩ : ∃ n, fuel' = n + 1 := ⟨fuel' - 1, by omega⟩
  exact readValue_eq_some.mpr (henough.2 fuel' (by omega))

/-- As many calls as there are characters are enough for every reader. -/
theorem enough (fuel : ℕ) :
    Enough readValue fuel ∧ Enough readItems fuel ∧ Enough readMembers fuel := by
  induction fuel with
  | zero =>
    refine ⟨?_, ?_, ?_⟩ <;> intro cs x rest h
    · simp [readValue] at h
    · simp [readItems] at h
    · simp [readMembers] at h
  | succ fuel ih =>
    obtain ⟨hvalue, hitems, hmembers⟩ := ih
    exact ⟨enough_readValue hitems hmembers, enough_readItems hvalue hitems,
      enough_readMembers hvalue hmembers⟩

/-- A document is a value with nothing but blanks behind it. -/
theorem ofChars?_eq_some {cs : List Char} {t : Tree} :
    ofChars? cs = some t ↔
      ∃ fuel rest, readValue fuel cs = some (t, rest) ∧ skipSpace rest = [] := by
  constructor
  · intro h
    unfold ofChars? at h
    split at h
    · rename_i tree rest hread
      split_ifs at h with hempty
      exact ⟨_, rest, Option.some.inj h ▸ hread, List.isEmpty_iff.mp hempty⟩
    · simp at h
  · rintro ⟨fuel, rest, hread, hrest⟩
    have henough := ((enough fuel).1 hread).2 (cs.length + 1) (by omega)
    simp only [ofChars?, henough, hrest, List.isEmpty_nil, if_true]

/-! ## Values with a gap -/

section

variable {word : List Char}

/-- What follows a value: its neighbour, the end of what it is in, or nothing. -/
def Ends (rest : List Char) : Prop :=
  ∀ c z, skipSpace rest = c :: z → c ∈ [',', ']', '\x7d']

/-- What follows a value does not start with a dollar sign. -/
theorem Ends.not_dollar {rest : List Char} (h : Ends rest) (z : List Char) : rest ≠ '$' :: z := by
  rintro rfl
  exact absurd (h '$' z rfl) (by decide)

/-- Values are read the same with any word in the gap. -/
def ValueFollows (word : List Char) (fuel : ℕ) : Prop :=
  ∀ {d : Draft} {t : Tree} {rest : List Char}, readValue fuel (d.fill ('$' :: word)) = some (t, rest) →
    Ends rest → Unnamed word t.names → ∃ (o : Outline Tree (List Char)) (d' : Draft),
      Reads Quoted.Fits (readValue fuel) d (o.fill form) o.gaps d'

/-- Items are read the same with any word in the gap. -/
def ItemsFollow (word : List Char) (fuel : ℕ) : Prop :=
  ∀ {d : Draft} {items : List Tree} {rest : List Char},
    readItems fuel (d.fill ('$' :: word)) = some (items, rest) → Unnamed word (itemNames items) →
      ∃ (os : List (Outline Tree (List Char))) (d' : Draft), Reads Quoted.Fits (readItems fuel) d
        (fun w => Outline.fillItems form w os) (Outline.itemsGaps os) d'

/-- Members are read the same with any word in the gap. -/
def MembersFollow (word : List Char) (fuel : ℕ) : Prop :=
  ∀ {d : Draft} {members : List (List Char × Tree)} {rest : List Char},
    readMembers fuel (d.fill ('$' :: word)) = some (members, rest) →
      Unnamed word (memberNames members) →
      ∃ (os : List (List Char × Outline Tree (List Char))) (d' : Draft),
        Reads Quoted.Fits (readMembers fuel) d (fun w => Outline.fillMembers form w os)
          (Outline.membersGaps os) d'

/-- A dollar sign is no blank. -/
theorem not_isSpace_dollar : isSpace '$' = false := by decide

/-- No value starts with a dollar sign. -/
theorem Front.not_dollar {fuel : ℕ} {z rest : List Char} {t : Tree}
    (h : Front fuel ('$' :: z) t rest) : False := by
  generalize hcs : '$' :: z = cs at h
  cases h with
  | word lead t rest hmem =>
    simp only [words, List.mem_cons, List.not_mem_nil, or_false, Prod.mk.injEq] at hmem
    rcases hmem with ⟨rfl, -⟩ | ⟨rfl, -⟩ | ⟨rfl, -⟩ <;> simp at hcs
  | number cs rest n hscan => exact Numeral.ne_of_scan hscan (by decide) (by decide) z hcs.symm
  | _ => simp at hcs

/-- Items do not start with a dollar sign. -/
theorem skipSpace_ne_dollar_of_readItems {fuel : ℕ} {cs rest : List Char} {items : List Tree}
    (h : readItems fuel cs = some (items, rest)) (z : List Char) : skipSpace cs ≠ '$' :: z := by
  intro hz
  have hvalue : ∀ {fuel t after}, readValue fuel cs = some (t, after) → False := by
    intro fuel t after hitem
    cases fuel with
    | zero => simp [readValue] at hitem
    | succ fuel => exact (hz ▸ readValue_eq_some.mp hitem).not_dollar
  cases fuel with
  | zero => simp [readItems] at h
  | succ fuel =>
    rcases readItems_eq_some.mp h with ⟨t, _, _, ⟨after, hitem, -⟩, -⟩ | ⟨t, ⟨after, hitem, -⟩, -⟩
    · exact hvalue hitem
    · exact hvalue hitem

/-- Members do not start with a dollar sign. -/
theorem skipSpace_ne_dollar_of_readMembers {fuel : ℕ} {cs rest : List Char}
    {members : List (List Char × Tree)} (h : readMembers fuel cs = some (members, rest))
    (z : List Char) : skipSpace cs ≠ '$' :: z := by
  intro hz
  cases fuel with
  | zero => simp [readMembers] at h
  | succ fuel => simp [readMembers, hz] at h

/-- What a draft does not close with the word in its gap it closes with no word. -/
theorem not_closed {d : Draft} {c : Char} (h : ∀ z, skipSpace (d.fill ('$' :: word)) ≠ '$' :: z)
    (hopen : ∀ z, skipSpace (d.fill ('$' :: word)) ≠ c :: z) (w z : List Char) :
    skipSpace (d.fill w) ≠ c :: z := by
  obtain ⟨d', -, hskip, -⟩ := Draft.dropWhile not_isSpace_dollar h
  have hskip' : ∀ w, skipSpace (d.fill w) = d'.fill w := hskip
  simp only [hskip'] at h hopen ⊢
  exact Draft.fill_ne h hopen w z

/-- What follows a value ends a number before the gap. -/
theorem Ends.endsNumber {rest : List Char} (h : Ends rest) (front t : List Char)
    (hrest : rest = front ++ '$' :: t) :
    ∃ before c after, front = before ++ c :: after ∧ Numeral.EndsNumber c := by
  subst hrest
  obtain ⟨before, c, after, hfront, hc⟩ := exists_kept_before not_isSpace_dollar (by decide) h
  refine ⟨before, c, after, hfront, ?_⟩
  simp only [List.mem_cons, List.not_mem_nil, or_false] at hc
  rcases hc with rfl | rfl | rfl <;> exact ⟨by decide, by decide⟩

variable (hword : ∀ c ∈ '$' :: word, Quoted.IsPlain c)

include hword

/-- An item before or around the gap stands there with any word that fits. -/
theorem itemAt_draft {fuel : ℕ} (hvalue : ValueFollows word fuel) {d : Draft} {t : Tree}
    {mark : Char} {rest : List Char} (h : ItemAt fuel (d.fill ('$' :: word)) t mark rest)
    (hmark : mark ∈ [',', ']', '\x7d']) (hnames : Unnamed word t.names) :
    ∃ (o : Outline Tree (List Char)) (d' : Draft), d'.Tail d ∧ o.gaps + d'.gaps ≤ d.gaps ∧
      d'.fill ('$' :: word) = rest ∧
      ∀ w, Quoted.Fits w → ItemAt fuel (d.fill w) (o.fill form w) mark (d'.fill w) := by
  obtain ⟨after, hitem, hskip⟩ := h
  have hends : Ends after := fun c z hcz => by
    obtain ⟨rfl, -⟩ := List.cons.inj (hskip.symm.trans hcz)
    exact hmark
  have hdollar : mark ≠ '$' := by
    rintro rfl
    exact absurd hmark (by decide)
  obtain ⟨o, d₁, hreads⟩ := hvalue hitem hends hnames
  obtain ⟨-, rfl⟩ := hreads.eq hword hitem
  obtain ⟨d', htail, rfl, hskip'⟩ := Draft.dropWhile_cons not_isSpace_dollar hskip hdollar
  refine ⟨o, d', hreads.tail.trans htail, ?_, rfl, fun w hw =>
    ⟨_, hreads.read_eq w hw, hskip' w⟩⟩
  have hgaps := hreads.gaps_le
  have hle := htail.gaps_le
  omega

/-- A member whose name is not around the gap stands there with any word that fits. -/
theorem memberAt_draft {fuel : ℕ} (hvalue : ValueFollows word fuel) {d : Draft}
    {name rest : List Char} {t : Tree} {mark : Char}
    (h : MemberAt fuel (d.fill ('$' :: word)) name t mark rest)
    (hmark : mark ∈ [',', ']', '\x7d']) (hnames : Unnamed word (name :: t.names)) :
    ∃ (o : Outline Tree (List Char)) (d' : Draft), d'.Tail d ∧ o.gaps + d'.gaps ≤ d.gaps ∧
      d'.fill ('$' :: word) = rest ∧
      ∀ w, Quoted.Fits w → MemberAt fuel (d.fill w) name (o.fill form w) mark (d'.fill w) := by
  obtain ⟨front, afterName, afterColon, hquote, hscan, hcolon, hitem⟩ := h
  obtain ⟨d₁, htail₁, rfl, hquote'⟩ := Draft.dropWhile_cons not_isSpace_dollar hquote (by decide)
  have hafter : ∀ z, afterName ≠ '$' :: z := by
    rintro z rfl
    exact absurd (List.cons.inj hcolon).1 (by decide)
  obtain ⟨d₂, hahead⟩ := (Quoted.piecewise_scan hword).reads_outside () hword hscan hafter
    (hnames name List.mem_cons_self)
  have hname := hahead.reads Quoted.Fits
  obtain ⟨-, rfl⟩ := hname.eq hword hscan
  obtain ⟨d₃, htail₃, rfl, hcolon'⟩ := Draft.dropWhile_cons not_isSpace_dollar hcolon (by decide)
  obtain ⟨o, d', htail', hgaps', hrest, hitem'⟩ := itemAt_draft hword hvalue hitem hmark
    fun n hn => hnames n (List.mem_cons_of_mem name hn)
  refine ⟨o, d', htail₁.trans (hname.tail.trans (htail₃.trans htail')), ?_, hrest, fun w hw =>
    ⟨_, _, _, hquote' w, hname.read_eq w hw, hcolon' w, hitem' w hw⟩⟩
  have hle₁ := htail₁.gaps_le
  have hle₂ := hname.gaps_le
  have hle₃ := htail₃.gaps_le
  omega

/-- Items are followed if values and fewer items are. -/
theorem itemsFollow_succ {fuel : ℕ} (hvalue : ValueFollows word fuel)
    (hitems : ItemsFollow word fuel) : ItemsFollow word (fuel + 1) := by
  intro d items rest h hnames
  rcases readItems_eq_some.mp h with ⟨t, more, items', hitem, hmore, rfl⟩ | ⟨t, hitem, rfl⟩
  · obtain ⟨o, d₁, htail, hgaps, rfl, hitem'⟩ := itemAt_draft hword hvalue hitem (by decide)
      fun n hn => hnames n (List.mem_append_left _ hn)
    obtain ⟨os, d', hreads⟩ := hitems hmore fun n hn => hnames n (List.mem_append_right _ hn)
    refine ⟨o :: os, d', htail.trans hreads.tail, ?_, fun w hw =>
      readItems_eq_some.mpr (.inl ⟨_, _, _, hitem' w hw, hreads.read_eq w hw, rfl⟩)⟩
    have hgaps' := hreads.gaps_le
    rw [Outline.itemsGaps]
    omega
  · obtain ⟨o, d', htail, hgaps, rfl, hitem'⟩ := itemAt_draft hword hvalue hitem (by decide)
      fun n hn => hnames n (List.mem_append_left _ hn)
    exact ⟨[o], d', htail, by simpa [Outline.itemsGaps] using hgaps, fun w hw =>
      readItems_eq_some.mpr (.inr ⟨_, hitem' w hw, rfl⟩)⟩

/-- Members are followed if values and fewer members are. -/
theorem membersFollow_succ {fuel : ℕ} (hvalue : ValueFollows word fuel)
    (hmembers : MembersFollow word fuel) : MembersFollow word (fuel + 1) := by
  intro d members rest h hnames
  rcases readMembers_eq_some.mp h with
    ⟨name, t, more, members', hmember, hmore, rfl⟩ | ⟨name, t, hmember, rfl⟩
  · obtain ⟨o, d₁, htail, hgaps, rfl, hmember'⟩ := memberAt_draft hword hvalue hmember (by decide)
      fun n hn => hnames n (List.mem_append_left _ hn)
    obtain ⟨os, d', hreads⟩ := hmembers hmore fun n hn => hnames n (List.mem_append_right _ hn)
    refine ⟨(name, o) :: os, d', htail.trans hreads.tail, ?_, fun w hw =>
      readMembers_eq_some.mpr (.inl ⟨_, _, _, _, hmember' w hw, hreads.read_eq w hw, rfl⟩)⟩
    have hgaps' := hreads.gaps_le
    rw [Outline.membersGaps]
    omega
  · obtain ⟨o, d', htail, hgaps, rfl, hmember'⟩ := memberAt_draft hword hvalue hmember (by decide)
      fun n hn => hnames n (List.mem_append_left _ hn)
    exact ⟨[(name, o)], d', htail, by simpa [Outline.membersGaps] using hgaps, fun w hw =>
      readMembers_eq_some.mpr (.inr ⟨_, _, hmember' w hw, rfl⟩)⟩

/-- A draft with a value at its very front has it there with any word that fits in the gap, if what
the value contains is followed. -/
theorem front_draft {fuel : ℕ} (hitems : ItemsFollow word fuel)
    (hmembers : MembersFollow word fuel) {d : Draft} {t : Tree} {rest : List Char}
    (h : Front fuel (d.fill ('$' :: word)) t rest) (hends : Ends rest)
    (hnames : Unnamed word t.names) :
    ∃ (o : Outline Tree (List Char)) (d' : Draft), d'.Tail d ∧ o.gaps + d'.gaps ≤ d.gaps ∧
      ∀ w, Quoted.Fits w → Front fuel (d.fill w) (o.fill form w) (d'.fill w) := by
  generalize hcs : d.fill ('$' :: word) = cs at h
  cases h with
  | word lead t rest hmem =>
    have hlead : '$' ∉ lead := by
      simp only [words, List.mem_cons, List.not_mem_nil, or_false, Prod.mk.injEq] at hmem
      rcases hmem with ⟨rfl, -⟩ | ⟨rfl, -⟩ | ⟨rfl, -⟩ <;> decide
    obtain ⟨d', rfl, rfl⟩ := Draft.peel lead hcs hlead
    refine ⟨.fixed t, d', .prepend lead d', by simp [Outline.gaps], fun w _ => ?_⟩
    rw [Draft.fill_prepend]
    exact .word lead t _ hmem
  | string cs literal rest hscan =>
    obtain ⟨d₁, rfl, rfl⟩ := Draft.peel ['\x22'] hcs (by decide)
    obtain ⟨o, d', hliteral⟩ :=
      (Quoted.piecewise_scan hword).reads_draft () hscan hends.not_dollar
    refine ⟨.text o, d', (Draft.Tail.prepend _ d₁).trans hliteral.tail,
      by simpa [Outline.gaps] using hliteral.gaps_le, fun w hw => ?_⟩
    rw [Draft.fill_prepend]
    exact .string _ _ _ (hliteral.read_eq w hw)
  | emptyArray cs rest hclose =>
    obtain ⟨d₁, rfl, rfl⟩ := Draft.peel ['['] hcs (by decide)
    obtain ⟨d', htail, rfl, hskip⟩ := Draft.dropWhile_cons not_isSpace_dollar hclose (by decide)
    refine ⟨.fixed (.array []), d', (Draft.Tail.prepend _ d₁).trans htail,
      by simpa [Outline.gaps] using htail.gaps_le, fun w _ => ?_⟩
    rw [Draft.fill_prepend]
    exact .emptyArray _ _ (hskip w)
  | array cs rest items hopen hread =>
    obtain ⟨d₁, rfl, rfl⟩ := Draft.peel ['['] hcs (by decide)
    obtain ⟨os, d', hos⟩ := hitems hread hnames
    refine ⟨.list os, d', (Draft.Tail.prepend _ d₁).trans hos.tail,
      by simpa [Outline.gaps] using hos.gaps_le, fun w hw => ?_⟩
    rw [Draft.fill_prepend]
    exact .array _ _ _ (not_closed (skipSpace_ne_dollar_of_readItems hread) hopen w)
      (hos.read_eq w hw)
  | emptyObject cs rest hclose =>
    obtain ⟨d₁, rfl, rfl⟩ := Draft.peel ['\x7b'] hcs (by decide)
    obtain ⟨d', htail, rfl, hskip⟩ := Draft.dropWhile_cons not_isSpace_dollar hclose (by decide)
    refine ⟨.fixed (.object []), d', (Draft.Tail.prepend _ d₁).trans htail,
      by simpa [Outline.gaps] using htail.gaps_le, fun w _ => ?_⟩
    rw [Draft.fill_prepend]
    exact .emptyObject _ _ (hskip w)
  | object cs rest members hopen hread =>
    obtain ⟨d₁, rfl, rfl⟩ := Draft.peel ['\x7b'] hcs (by decide)
    obtain ⟨os, d', hos⟩ := hmembers hread hnames
    refine ⟨.record os, d', (Draft.Tail.prepend _ d₁).trans hos.tail,
      by simpa [Outline.gaps] using hos.gaps_le, fun w hw => ?_⟩
    rw [Draft.fill_prepend]
    exact .object _ _ _ (not_closed (skipSpace_ne_dollar_of_readMembers hread) hopen w)
      (hos.read_eq w hw)
  | number cs rest n hscan =>
    -- A number ends in front of the gap: nothing else may stand behind a value.
    obtain ⟨d', hn⟩ := Numeral.isToken_scan.reads Quoted.Fits
      (⟨by decide, by decide⟩ : Numeral.EndsNumber '$') (hcs ▸ hscan) hends.endsNumber
    exact ⟨.fixed (.number n), d', hn.tail, by simpa [Outline.gaps] using hn.gaps_le,
      fun w hw => .number _ _ _ (hn.read_eq w hw)⟩

/-- Values are followed if what they contain is. -/
theorem valueFollows_succ {fuel : ℕ} (hitems : ItemsFollow word fuel)
    (hmembers : MembersFollow word fuel) : ValueFollows word (fuel + 1) := by
  intro d t rest h hends hnames
  have hfront := readValue_eq_some.mp h
  obtain ⟨d₁, htail, hskip, -⟩ := Draft.dropWhile not_isSpace_dollar fun z hz => by
    rw [skipSpace, hz] at hfront
    exact hfront.not_dollar
  have hskip' : ∀ w, skipSpace (d.fill w) = d₁.fill w := hskip
  rw [hskip'] at hfront
  obtain ⟨o, d', htail', hgaps, hfill⟩ := front_draft hword hitems hmembers hfront hends hnames
  exact ⟨o, d', htail.trans htail', hgaps.trans htail.gaps_le,
    fun w hw => readValue_eq_some.mpr (hskip' w ▸ hfill w hw)⟩

/-- Every reader goes through a draft the same with any word in the gap. -/
theorem follows (fuel : ℕ) :
    ValueFollows word fuel ∧ ItemsFollow word fuel ∧ MembersFollow word fuel := by
  induction fuel with
  | zero =>
    refine ⟨?_, ?_, ?_⟩ <;> intro d x rest h
    · simp [readValue] at h
    · simp [readItems] at h
    · simp [readMembers] at h
  | succ fuel ih =>
    obtain ⟨hvalue, hitems, hmembers⟩ := ih
    exact ⟨valueFollows_succ hword hitems hmembers, itemsFollow_succ hword hvalue hitems,
      membersFollow_succ hword hvalue hmembers⟩

/-- A document whose only word is in one of its strings is, with any plain word in its place, the
same document with that word in that string. -/
theorem ofChars?_draft {d : Draft} {t : Tree} (h : ofChars? (d.fill ('$' :: word)) = some t)
    (hnames : Unnamed word t.names) :
    ∃ o : Outline Tree (List Char), o.gaps ≤ d.gaps ∧ o.fill form ('$' :: word) = t ∧
      ∀ w, (∀ c ∈ w, Quoted.IsPlain c) → ofChars? (d.fill w) = some (o.fill form w) := by
  obtain ⟨fuel, rest, hread, hrest⟩ := ofChars?_eq_some.mp h
  have hends : Ends rest := fun c z hcz => absurd (hrest.symm.trans hcz) (List.cons_ne_nil c z).symm
  obtain ⟨o, d', hreads⟩ := (follows hword fuel).1 hread hends hnames
  obtain ⟨ht, rfl⟩ := hreads.eq hword hread
  refine ⟨o, (Nat.le_add_right _ _).trans hreads.gaps_le, ht, fun w hw => ?_⟩
  exact ofChars?_eq_some.mpr ⟨fuel, _, hreads.read_eq w hw,
    Draft.dropWhile_nil not_isSpace_dollar hrest w⟩

end

end Tree

end Repertoire.Json
