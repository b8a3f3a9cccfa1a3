import Repertoire.Proofs.Toml.Line
import Repertoire.Proofs.Toml.Number
import Repertoire.Toml.Document

/-!
# What the readers of TOML documents find

The readers of values and statements are described by what stands at the front of a text. The
descriptions tell apart the cases that the readers tell apart, and they are exact. No reader needs
more calls than there are characters it takes, so a document is read the same with any larger bound
on the calls.
-/

namespace Repertoire.Toml

open Repertoire.Text Literal

variable {fuel room : ℕ} {cs rest : List Char} {v : Value} {mark : Char}

/-! ## What stands at the front -/

/-- A value at the front of a text and what follows it. The fuel is for what the value contains, and
the room is the number of levels that may be nested. -/
inductive Front (fuel : ℕ) : ℕ → List Char → Value → List Char → Prop
  | string (room : ℕ) (cs : List Char) (text : String) (rest : List Char)
      (h : scanString cs = some (text, rest)) : Front fuel room cs (.string text) rest
  | emptyArray (room : ℕ) (cs rest : List Char) (h : skipLines cs.length cs = ']' :: rest) :
      Front fuel (room + 1) ('[' :: cs) (.array []) rest
  | array (room : ℕ) (cs rest : List Char) (items : List Value)
      (hopen : ∀ z, skipLines cs.length cs ≠ ']' :: z)
      (h : scanItems fuel room (skipLines cs.length cs) = some (items, rest)) :
      Front fuel (room + 1) ('[' :: cs) (.array items) rest
  | emptyTable (room : ℕ) (cs rest : List Char) (h : skipSpace cs = '\x7d' :: rest) :
      Front fuel (room + 1) ('\x7b' :: cs) (.table []) rest
  | table (room : ℕ) (cs rest : List Char) (assignments : List (List String × Value))
      (entries : Entries Value) (hopen : ∀ z, skipSpace cs ≠ '\x7d' :: z)
      (h : scanAssignments fuel room (skipSpace cs) = some (assignments, rest))
      (hentries : inlineEntries? assignments = some entries) :
      Front fuel (room + 1) ('\x7b' :: cs) (.table (Node.members entries)) rest
  | true (room : ℕ) (rest : List Char) :
      Front fuel room (['t', 'r', 'u', 'e'] ++ rest) (.bool true) rest
  | false (room : ℕ) (rest : List Char) :
      Front fuel room (['f', 'a', 'l', 's', 'e'] ++ rest) (.bool false) rest
  | numeric (room : ℕ) (cs : List Char) (v : Value) (rest : List Char)
      (h : scanNumeric cs = some (v, rest)) : Front fuel room cs v rest

/-- No number or date starts with a character that is in none. -/
theorem scanNumeric_eq_none {c : Char} (hc : EndsNumber c) (z : List Char) :
    scanNumeric (c :: z) = none :=
  (isSolid_scanNumeric.stopsAt hc [] z).trans rfl

/-- What the reader finds is a value. -/
theorem front_of_scanValue (h : scanValue (fuel + 1) room cs = some (v, rest)) :
    Front fuel room cs v rest := by
  -- Nesting that is too deep fails at once; every other branch is a constructor.
  unfold scanValue at h
  split at h
  case h_1 =>
    obtain ⟨text, hscan, rfl⟩ := exists_of_map_eq_some h
    exact .string room _ _ _ hscan
  case h_2 =>
    obtain ⟨text, hscan, rfl⟩ := exists_of_map_eq_some h
    exact .string room _ _ _ hscan
  case h_3 =>
    split at h
    · simp at h
    · split at h
      · rename_i hclose
        obtain ⟨rfl, rfl⟩ := Prod.mk.inj (Option.some.inj h)
        exact .emptyArray _ _ _ hclose
      · rename_i hopen
        obtain ⟨items, hread, rfl⟩ := exists_of_map_eq_some h
        exact .array _ _ _ _ hopen hread
  case h_4 =>
    split at h
    · simp at h
    · split at h
      · rename_i hclose
        obtain ⟨rfl, rfl⟩ := Prod.mk.inj (Option.some.inj h)
        exact .emptyTable _ _ _ hclose
      · rename_i hopen
        split at h
        · simp at h
        · rename_i assignments rest' hread
          obtain ⟨table, htable, hout⟩ := Option.map_eq_some_iff.mp h
          obtain ⟨rfl, rfl⟩ := Prod.mk.inj hout
          obtain ⟨entries, hentries, rfl⟩ := Option.map_eq_some_iff.mp htable
          exact .table _ _ _ _ _ hopen hread hentries
  case h_5 =>
    obtain ⟨rfl, rfl⟩ := Prod.mk.inj (Option.some.inj h)
    exact .true room _
  case h_6 =>
    obtain ⟨rfl, rfl⟩ := Prod.mk.inj (Option.some.inj h)
    exact .false room _
  case h_7 => exact .numeric _ _ _ _ h

/-- No number or date starts as other values do. -/
theorem ne_of_scanNumeric (h : scanNumeric cs = some (v, rest)) {c : Char}
    (hc : c ∈ ['\x22', '\x27', '[', '\x7b', 't', 'f']) (z : List Char) : cs ≠ c :: z := by
  rintro rfl
  refine Option.some_ne_none (v, rest) (h.symm.trans ?_)
  simp only [List.mem_cons, List.not_mem_nil, or_false] at hc
  rcases hc with rfl | rfl | rfl | rfl | hletter
  · exact scanNumeric_eq_none ⟨by decide, by decide⟩ z
  · exact scanNumeric_eq_none ⟨by decide, by decide⟩ z
  · exact scanNumeric_eq_none ⟨by decide, by decide⟩ z
  · exact scanNumeric_eq_none ⟨by decide, by decide⟩ z
  · exact scanNumeric_letter hletter z

/-- The reader finds every value. -/
theorem Front.scanValue_eq (h : Front fuel room cs v rest) :
    scanValue (fuel + 1) room cs = some (v, rest) := by
  cases h with
  | string room cs text rest h =>
    obtain ⟨x, -, hat⟩ := scanString_eq_some.mp h
    cases hat <;> simp only [scanValue, h, Option.map_some]
  | emptyArray room cs rest h => simp only [scanValue, h]
  | array room cs rest items hopen h => simp only [scanValue, h, Option.map_some]
  | emptyTable room cs rest h => simp only [scanValue, h]
  | table room cs rest assignments entries hopen h hentries =>
    simp only [scanValue, h, inlineTable?, hentries, Option.map_some]
  | true room rest => rfl
  | false room rest => rfl
  | numeric room cs v rest h =>
    unfold scanValue
    split
    case h_7 => exact h
    all_goals exact absurd rfl (ne_of_scanNumeric h (by simp) _)

/-- The reader finds a value exactly where one stands. -/
theorem scanValue_eq_some :
    scanValue (fuel + 1) room cs = some (v, rest) ↔ Front fuel room cs v rest :=
  ⟨front_of_scanValue, Front.scanValue_eq⟩

/-- A value in an array, with the mark behind it and what follows the mark. -/
def ItemAt (fuel room : ℕ) (cs : List Char) (v : Value) (mark : Char) (rest : List Char) : Prop :=
  ∃ after, scanValue fuel room cs = some (v, after) ∧
    skipLines after.length after = mark :: rest

/-- Items are a last one with the bracket, perhaps with a comma in front of it, or one with a comma
and more of them. -/
theorem scanItems_eq_some {items : List Value} :
    scanItems (fuel + 1) room cs = some (items, rest) ↔
      (∃ v, ItemAt fuel room cs v ']' rest ∧ items = [v]) ∨
      (∃ v more, ItemAt fuel room cs v ',' more ∧ skipLines more.length more = ']' :: rest ∧
        items = [v]) ∨
      ∃ v more items', ItemAt fuel room cs v ',' more ∧
        (∀ z, skipLines more.length more ≠ ']' :: z) ∧
        scanItems fuel room (skipLines more.length more) = some (items', rest) ∧
        items = v :: items' := by
  constructor
  · intro h
    rw [scanItems] at h
    split at h
    · simp at h
    · rename_i v after hitem
      split at h
      · rename_i hclose
        obtain ⟨rfl, rfl⟩ := Prod.mk.inj (Option.some.inj h)
        exact .inl ⟨v, ⟨after, hitem, hclose⟩, rfl⟩
      · rename_i more hcomma
        split at h
        · rename_i hclose
          obtain ⟨rfl, rfl⟩ := Prod.mk.inj (Option.some.inj h)
          exact .inr (.inl ⟨v, more, ⟨after, hitem, hcomma⟩, hclose, rfl⟩)
        · rename_i hopen
          obtain ⟨items', hmore, rfl⟩ := exists_of_map_eq_some h
          exact .inr (.inr ⟨v, more, items', ⟨after, hitem, hcomma⟩, hopen, hmore, rfl⟩)
      · simp at h
  · rintro (⟨v, ⟨after, hitem, hclose⟩, rfl⟩ | ⟨v, more, ⟨after, hitem, hcomma⟩, hclose, rfl⟩ |
      ⟨v, more, items', ⟨after, hitem, hcomma⟩, hopen, hmore, rfl⟩)
    · simp only [scanItems, hitem, hclose]
    · simp only [scanItems, hitem, hcomma, hclose]
    · simp only [scanItems, hitem, hcomma, hmore, Option.map_some]

/-- An assignment in an inline table, with the mark behind it and what follows the mark. -/
def AssignmentAt (fuel room : ℕ) (cs : List Char) (path : List String) (v : Value) (mark : Char)
    (rest : List Char) : Prop :=
  ∃ afterKey after, scanKey cs = some (path, '=' :: afterKey) ∧
    scanValue fuel room (skipSpace afterKey) = some (v, after) ∧ skipSpace after = mark :: rest

/-- Assignments are a last one with the brace, or one with a comma and more of them. -/
theorem scanAssignments_eq_some {assignments : List (List String × Value)} :
    scanAssignments (fuel + 1) room cs = some (assignments, rest) ↔
      (∃ path v, AssignmentAt fuel room cs path v '\x7d' rest ∧ assignments = [(path, v)]) ∨
      ∃ path v more assignments', AssignmentAt fuel room cs path v ',' more ∧
        scanAssignments fuel room more = some (assignments', rest) ∧
        assignments = (path, v) :: assignments' := by
  constructor
  · intro h
    rw [scanAssignments] at h
    split at h
    · rename_i path afterKey hkey
      split at h
      · simp at h
      · rename_i v after hvalue
        split at h
        · rename_i hclose
          obtain ⟨rfl, rfl⟩ := Prod.mk.inj (Option.some.inj h)
          exact .inl ⟨path, v, ⟨afterKey, after, hkey, hvalue, hclose⟩, rfl⟩
        · rename_i more hcomma
          obtain ⟨assignments', hmore, rfl⟩ := exists_of_map_eq_some h
          exact .inr ⟨path, v, more, assignments', ⟨afterKey, after, hkey, hvalue, hcomma⟩, hmore,
            rfl⟩
        · simp at h
    · simp at h
  · rintro (⟨path, v, ⟨afterKey, after, hkey, hvalue, hclose⟩, rfl⟩ |
      ⟨path, v, more, assignments', ⟨afterKey, after, hkey, hvalue, hcomma⟩, hmore, rfl⟩)
    · simp only [scanAssignments, hkey, hvalue, hclose]
    · simp only [scanAssignments, hkey, hvalue, hcomma, hmore, Option.map_some]

/-! ## What does not stand at the front -/

/-- A value starts with none of the characters with which nothing can go on. -/
theorem Front.ne (h : Front fuel room cs v rest) {c : Char} (hc : c ∈ ['$', '\x0d', '#'])
    (z : List Char) : cs ≠ c :: z := by
  simp only [List.mem_cons, List.not_mem_nil, or_false] at hc
  cases h with
  | string room cs text rest h =>
    obtain ⟨x, -, hat⟩ := scanString_eq_some.mp h
    cases hat <;> rcases hc with rfl | rfl | rfl <;> simp
  | numeric room cs v rest h =>
    rintro rfl
    have hends : EndsNumber c := by
      rcases hc with rfl | rfl | rfl <;> exact ⟨by decide, by decide⟩
    exact Option.some_ne_none _ (h.symm.trans (scanNumeric_eq_none hends z))
  | _ => rcases hc with rfl | rfl | rfl <;> simp

/-- No value starts with a dollar sign, a carriage return or a comment. -/
theorem ne_of_scanValue (h : scanValue fuel room cs = some (v, rest)) {c : Char}
    (hc : c ∈ ['$', '\x0d', '#']) (z : List Char) : cs ≠ c :: z := by
  cases fuel with
  | zero => simp [scanValue] at h
  | succ fuel => exact (scanValue_eq_some.mp h).ne hc z

/-- No items start with a dollar sign, a carriage return or a comment. -/
theorem ne_of_scanItems {items : List Value} (h : scanItems fuel room cs = some (items, rest))
    {c : Char} (hc : c ∈ ['$', '\x0d', '#']) (z : List Char) : cs ≠ c :: z := by
  cases fuel with
  | zero => simp [scanItems] at h
  | succ fuel =>
    rcases scanItems_eq_some.mp h with ⟨v, ⟨after, hitem, -⟩, -⟩ | ⟨v, more, ⟨after, hitem, -⟩, -⟩ |
      ⟨v, more, items', ⟨after, hitem, -⟩, -⟩ <;> exact ne_of_scanValue hitem hc z

/-- No key starts with a dollar sign. -/
theorem ne_dollar_of_scanKey {path : List String} (h : scanKey cs = some (path, rest))
    (z : List Char) : cs ≠ '$' :: z := by
  rintro rfl
  exact skipSpace_ne_of_scanKeyParts h (show isBare '$' = false by decide) (by decide) z rfl

/-- No assignments start with a dollar sign. -/
theorem ne_dollar_of_scanAssignments {assignments : List (List String × Value)}
    (h : scanAssignments fuel room cs = some (assignments, rest)) (z : List Char) :
    cs ≠ '$' :: z := by
  cases fuel with
  | zero => simp [scanAssignments] at h
  | succ fuel =>
    rcases scanAssignments_eq_some.mp h with ⟨path, v, ⟨_, _, hkey, -⟩, -⟩ |
      ⟨path, v, more, assignments', ⟨_, _, hkey, -⟩, -⟩ <;> exact ne_dollar_of_scanKey hkey z

/-! ## Fuel -/

/-- What a reader leaves is shorter, and it needs no more fuel than characters were taken. -/
def Enough {α : Type} (read : ℕ → ℕ → List Char → Option (α × List Char)) (fuel : ℕ) : Prop :=
  ∀ {room cs x rest}, read fuel room cs = some (x, rest) → rest.length < cs.length ∧
    ∀ fuel', cs.length ≤ fuel' + rest.length → read fuel' room cs = some (x, rest)

/-- An item is found with as much fuel as it has characters. -/
theorem ItemAt.enough (h : ItemAt fuel room cs v mark rest) (hvalue : Enough scanValue fuel) :
    rest.length + 1 < cs.length ∧
      ∀ fuel', cs.length ≤ fuel' + (rest.length + 1) → ItemAt fuel' room cs v mark rest := by
  obtain ⟨after, hitem, hmark⟩ := h
  obtain ⟨hlt, henough⟩ := hvalue hitem
  have hle := length_skipLines_le after.length after
  rw [hmark, List.length_cons] at hle
  exact ⟨by omega, fun fuel' hfuel => ⟨after, henough fuel' (by omega), hmark⟩⟩

/-- An assignment is found with as much fuel as it has characters. -/
theorem AssignmentAt.enough {path : List String} (h : AssignmentAt fuel room cs path v mark rest)
    (hvalue : Enough scanValue fuel) :
    rest.length + 1 < cs.length ∧
      ∀ fuel', cs.length ≤ fuel' + (rest.length + 1) →
        AssignmentAt fuel' room cs path v mark rest := by
  obtain ⟨afterKey, after, hkey, hitem, hmark⟩ := h
  obtain ⟨hlt, henough⟩ := hvalue hitem
  have hkeyLt := length_lt_of_scanKey hkey
  rw [List.length_cons] at hkeyLt
  have hle := length_skipSpace_le afterKey
  have hle' := length_skipSpace_le after
  rw [hmark, List.length_cons] at hle'
  exact ⟨by omega, fun fuel' hfuel =>
    ⟨afterKey, after, hkey, henough fuel' (by omega), hmark⟩⟩

/-- Items need no more fuel than they have characters if values and fewer items do not. -/
theorem enough_scanItems (hvalue : Enough scanValue fuel) (hitems : Enough scanItems fuel) :
    Enough scanItems (fuel + 1) := by
  intro room cs items rest h
  rcases scanItems_eq_some.mp h with
    ⟨v, hitem, rfl⟩ | ⟨v, more, hitem, hclose, rfl⟩ | ⟨v, more, items', hitem, hopen, hmore, rfl⟩
  · obtain ⟨hlt, henough⟩ := hitem.enough hvalue
    refine ⟨by omega, fun fuel' hfuel => ?_⟩
    obtain ⟨fuel', rfl⟩ : ∃ n, fuel' = n + 1 := ⟨fuel' - 1, by omega⟩
    exact scanItems_eq_some.mpr (.inl ⟨v, henough fuel' (by omega), rfl⟩)
  · obtain ⟨hlt, henough⟩ := hitem.enough hvalue
    have hle := length_skipLines_le more.length more
    rw [hclose, List.length_cons] at hle
    refine ⟨by omega, fun fuel' hfuel => ?_⟩
    obtain ⟨fuel', rfl⟩ : ∃ n, fuel' = n + 1 := ⟨fuel' - 1, by omega⟩
    exact scanItems_eq_some.mpr (.inr (.inl ⟨v, more, henough fuel' (by omega), hclose, rfl⟩))
  · obtain ⟨hlt, henough⟩ := hitem.enough hvalue
    have hle := length_skipLines_le more.length more
    obtain ⟨hlt', henough'⟩ := hitems hmore
    refine ⟨by omega, fun fuel' hfuel => ?_⟩
    obtain ⟨fuel', rfl⟩ : ∃ n, fuel' = n + 1 := ⟨fuel' - 1, by omega⟩
    exact scanItems_eq_some.mpr (.inr (.inr ⟨v, more, items', henough fuel' (by omega), hopen,
      henough' fuel' (by omega), rfl⟩))

/-- Assignments need no more fuel than they have characters if values and fewer assignments do not.
-/
theorem enough_scanAssignments (hvalue : Enough scanValue fuel)
    (hassignments : Enough scanAssignments fuel) : Enough scanAssignments (fuel + 1) := by
  intro room cs assignments rest h
  rcases scanAssignments_eq_some.mp h with
    ⟨path, v, hassignment, rfl⟩ | ⟨path, v, more, assignments', hassignment, hmore, rfl⟩
  · obtain ⟨hlt, henough⟩ := hassignment.enough hvalue
    refine ⟨by omega, fun fuel' hfuel => ?_⟩
    obtain ⟨fuel', rfl⟩ : ∃ n, fuel' = n + 1 := ⟨fuel' - 1, by omega⟩
    exact scanAssignments_eq_some.mpr (.inl ⟨path, v, henough fuel' (by omega), rfl⟩)
  · obtain ⟨hlt, henough⟩ := hassignment.enough hvalue
    obtain ⟨hlt', henough'⟩ := hassignments hmore
    refine ⟨by omega, fun fuel' hfuel => ?_⟩
    obtain ⟨fuel', rfl⟩ : ∃ n, fuel' = n + 1 := ⟨fuel' - 1, by omega⟩
    exact scanAssignments_eq_some.mpr (.inr ⟨path, v, more, assignments',
      henough fuel' (by omega), henough' fuel' (by omega), rfl⟩)

/-- Values need no more fuel than they have characters if what they contain does not. -/
theorem enough_scanValue (hitems : Enough scanItems fuel)
    (hassignments : Enough scanAssignments fuel) : Enough scanValue (fuel + 1) := by
  intro room cs v rest h
  have henough : rest.length < cs.length ∧
      ∀ fuel', cs.length ≤ fuel' + 1 + rest.length → Front fuel' room cs v rest := by
    -- Whatever is nested starts at least one character later, which pays for the call.
    cases scanValue_eq_some.mp h with
    | string room cs text rest h =>
      obtain ⟨x, -, hat⟩ := scanString_eq_some.mp h
      exact ⟨hat.length_lt, fun fuel' _ => .string _ _ _ _ h⟩
    | emptyArray room cs rest hclose =>
      have hle := length_skipLines_le cs.length cs
      rw [hclose, List.length_cons] at hle
      exact ⟨by rw [List.length_cons]; omega, fun fuel' _ => .emptyArray _ _ _ hclose⟩
    | array room cs rest items hopen hread =>
      have hle := length_skipLines_le cs.length cs
      obtain ⟨hlt, henough⟩ := hitems hread
      rw [List.length_cons]
      exact ⟨by omega, fun fuel' _ => .array _ _ _ _ hopen (henough fuel' (by omega))⟩
    | emptyTable room cs rest hclose =>
      have hle := length_skipSpace_le cs
      rw [hclose, List.length_cons] at hle
      exact ⟨by rw [List.length_cons]; omega, fun fuel' _ => .emptyTable _ _ _ hclose⟩
    | table room cs rest assignments entries hopen hread hentries =>
      have hle := length_skipSpace_le cs
      obtain ⟨hlt, henough⟩ := hassignments hread
      rw [List.length_cons]
      exact ⟨by omega, fun fuel' _ =>
        .table _ _ _ _ _ hopen (henough fuel' (by omega)) hentries⟩
    | true room rest => exact ⟨by simp; omega, fun fuel' _ => .true _ _⟩
    | false room rest => exact ⟨by simp; omega, fun fuel' _ => .false _ _⟩
    | numeric room cs v rest h =>
      exact ⟨isSolid_scanNumeric.length_lt h, fun fuel' _ => .numeric _ _ _ _ h⟩
  refine ⟨henough.1, fun fuel' hfuel => ?_⟩
  obtain ⟨fuel', rfl⟩ : ∃ n, fuel' = n + 1 := ⟨fuel' - 1, by omega⟩
  exact scanValue_eq_some.mpr (henough.2 fuel' hfuel)

/-- As many calls as there are characters are enough for every reader. -/
theorem enough (fuel : ℕ) :
    Enough scanValue fuel ∧ Enough scanItems fuel ∧ Enough scanAssignments fuel := by
  induction fuel with
  | zero =>
    refine ⟨?_, ?_, ?_⟩ <;> intro room cs x rest h
    · simp [scanValue] at h
    · simp [scanItems] at h
    · simp [scanAssignments] at h
  | succ fuel ih =>
    obtain ⟨hvalue, hitems, hassignments⟩ := ih
    exact ⟨enough_scanValue hitems hassignments, enough_scanItems hvalue hitems,
      enough_scanAssignments hvalue hassignments⟩

/-! ## Statements -/

/-- A statement at the front of a line and what follows the line. -/
inductive StatementAt : List Char → Statement Value → List Char → Prop
  | element (cs after rest : List Char) (path : List String)
      (h : scanKey cs = some (path, ']' :: ']' :: after)) (hend : endOfLine? after = some rest) :
      StatementAt ('[' :: '[' :: cs) (.element path) rest
  | header (cs after rest : List Char) (path : List String) (hone : ∀ z, cs ≠ '[' :: z)
      (h : scanKey cs = some (path, ']' :: after)) (hend : endOfLine? after = some rest) :
      StatementAt ('[' :: cs) (.header path) rest
  | assignment (fuel : ℕ) (cs afterKey after rest : List Char) (path : List String) (v : Value)
      (hcs : ∀ z, cs ≠ '[' :: z) (h : scanKey cs = some (path, '=' :: afterKey))
      (hvalue : scanValue fuel nestingLimit (skipSpace afterKey) = some (v, after))
      (hend : endOfLine? after = some rest) : StatementAt cs (.assignment path v) rest

/-- The reader finds a statement exactly where one stands. -/
theorem scanStatement_eq_some {s : Statement Value} :
    scanStatement cs = some (s, rest) ↔ StatementAt cs s rest := by
  constructor
  · intro h
    unfold scanStatement at h
    split at h
    · split at h
      · rename_i path after hkey
        obtain ⟨rest', hend, hout⟩ := Option.map_eq_some_iff.mp h
        obtain ⟨rfl, rfl⟩ := Prod.mk.inj hout
        exact .element _ _ _ _ hkey hend
      · simp at h
    · rename_i more hone
      split at h
      · rename_i path after hkey
        obtain ⟨rest', hend, hout⟩ := Option.map_eq_some_iff.mp h
        obtain ⟨rfl, rfl⟩ := Prod.mk.inj hout
        exact .header _ _ _ _ (fun z hz => hone z hz) hkey hend
      · simp at h
    · rename_i hone htwo
      split at h
      · rename_i path afterKey hkey
        split at h
        · rename_i v after hvalue
          obtain ⟨rest', hend, hout⟩ := Option.map_eq_some_iff.mp h
          obtain ⟨rfl, rfl⟩ := Prod.mk.inj hout
          exact .assignment _ _ _ _ _ _ _ (fun z hz => htwo z hz) hkey hvalue hend
        · simp at h
      · simp at h
  · intro h
    cases h with
    | element cs after rest path h hend => simp only [scanStatement, h, hend, Option.map_some]
    | header cs after rest path hone h hend => simp only [scanStatement, h, hend, Option.map_some]
    | assignment fuel cs afterKey after rest path v hcs h hvalue hend =>
      have hle := length_skipSpace_le afterKey
      have henough := ((enough fuel).1 hvalue).2 (afterKey.length + 1) (by omega)
      unfold scanStatement
      split
      case h_3 => simp only [h, henough, hend, Option.map_some]
      all_goals exact absurd rfl (hcs _)

/-- A statement takes at least one character. -/
theorem StatementAt.length_lt {s : Statement Value} (h : StatementAt cs s rest) :
    rest.length < cs.length := by
  cases h with
  | element cs after rest path h hend | header cs after rest path hone h hend =>
    have hlt := length_lt_of_scanKey h
    have hle := length_le_of_endOfLine? hend
    simp only [List.length_cons] at hlt ⊢
    omega
  | assignment fuel cs afterKey after rest path v hcs h hvalue hend =>
    have hlt := length_lt_of_scanKey h
    have hle := length_skipSpace_le afterKey
    have hlt' := ((enough fuel).1 hvalue).1
    have hle' := length_le_of_endOfLine? hend
    rw [List.length_cons] at hlt
    omega

/-- A statement starts with none of the characters with which nothing can go on. -/
theorem StatementAt.ne {s : Statement Value} (h : StatementAt cs s rest) {c : Char}
    (hc : c ∈ ['$', '\x0d', '#']) (z : List Char) : cs ≠ c :: z := by
  simp only [List.mem_cons, List.not_mem_nil, or_false] at hc
  cases h with
  | element | header => rcases hc with rfl | rfl | rfl <;> simp
  | assignment fuel cs afterKey after rest path v hcs h hvalue hend =>
    have hspace : isSpace c = false := by rcases hc with rfl | rfl | rfl <;> decide
    have hne := skipSpace_ne_of_scanKeyParts (c := c) h
      (by rcases hc with rfl | rfl | rfl <;> decide)
      (by rcases hc with rfl | rfl | rfl <;> decide) z
    rintro rfl
    rw [skipSpace, List.dropWhile_cons_of_neg (by simp [hspace])] at hne
    exact hne rfl

/-- The statements of a text. A comment may end the document without a line end. -/
inductive StatementsAt : List Char → List (Statement Value) → Prop
  | done (cs : List Char) (h : skipLines cs.length cs = []) : StatementsAt cs []
  | comment (cs z : List Char) (h : skipLines cs.length cs = '#' :: z)
      (hz : z.all isCommentChar = true) : StatementsAt cs []
  | next (cs after : List Char) (s : Statement Value) (ss : List (Statement Value))
      (h : StatementAt (skipLines cs.length cs) s after) (hrest : StatementsAt after ss) :
      StatementsAt cs (s :: ss)

/-- What the reader finds are statements. -/
theorem statementsAt_of_scanStatements {n : ℕ} {ss : List (Statement Value)}
    (h : scanStatements n cs = some ss) : StatementsAt cs ss := by
  induction n generalizing cs ss with
  | zero => simp [scanStatements] at h
  | succ n ih =>
    rw [scanStatements] at h
    split at h
    · rename_i hend
      obtain rfl := Option.some.inj h
      exact .done cs hend
    · rename_i z hcomment
      split_ifs at h with hz
      obtain rfl := Option.some.inj h
      exact .comment cs z hcomment hz
    · split at h
      · rename_i s after hs
        obtain ⟨ss', hss', rfl⟩ := Option.map_eq_some_iff.mp h
        exact .next cs after s ss' (scanStatement_eq_some.mp hs) (ih hss')
      · simp at h

/-- More calls than there are characters are enough for all statements. -/
theorem StatementsAt.scanStatements_eq {n : ℕ} {ss : List (Statement Value)}
    (h : StatementsAt cs ss) (hn : cs.length < n) : scanStatements n cs = some ss := by
  induction h generalizing n with
  | done cs h =>
    obtain ⟨n, rfl⟩ : ∃ m, n = m + 1 := ⟨n - 1, by omega⟩
    simp only [scanStatements, h]
  | comment cs z h hz =>
    obtain ⟨n, rfl⟩ : ∃ m, n = m + 1 := ⟨n - 1, by omega⟩
    simp only [scanStatements, h, hz, if_true]
  | next cs after s ss h hrest ih =>
    obtain ⟨n, rfl⟩ : ∃ m, n = m + 1 := ⟨n - 1, by omega⟩
    have hlt := h.length_lt
    have hle := length_skipLines_le cs.length cs
    have hmore := ih (n := n) (by omega)
    rw [scanStatements]
    split
    · rename_i hend
      rw [hend] at hlt
      exact absurd hlt (Nat.not_lt_zero _)
    · rename_i z hcomment
      exact absurd hcomment (h.ne (by decide) z)
    · rw [scanStatement_eq_some.mpr h]
      simp only [hmore, Option.map_some]

end Repertoire.Toml
