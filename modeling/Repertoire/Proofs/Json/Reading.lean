import Mathlib.Data.Nat.Notation
import Repertoire.Proofs.Json.Quoted

/-!
# Reading documents back

A value without numbers that is written over several lines is read as the tree it was written from:
items and members in their order, repeated names kept, and every string as the literal that was
written for it. The length of the text is fuel enough for the reader, since every nested call leaves
at least one character behind.

Numbers are left out. How a number is written depends on its digits, and the documents that are read
back here hold none.
-/

namespace Repertoire.Json

/-! ## Values by their parts -/

/-- What holds of a value if it holds of its parts holds of every value. -/
@[elab_as_elim]
theorem Value.parts_induction {motive : Value → Prop} (null : motive .null)
    (bool : ∀ b, motive (.bool b)) (number : ∀ n, motive (.number n))
    (string : ∀ s, motive (.string s))
    (array : ∀ items, (∀ v ∈ items, motive v) → motive (.array items))
    (object : ∀ members, (∀ m ∈ members, motive m.2) → motive (.object members)) :
    ∀ v, motive v
  | .null => null
  | .bool b => bool b
  | .number n => number n
  | .string s => string s
  | .array items => array items fun v _ =>
    Value.parts_induction null bool number string array object v
  | .object members => object members fun m _ =>
    Value.parts_induction null bool number string array object m.2
termination_by v => sizeOf v
decreasing_by
  · have hsize := List.sizeOf_lt_of_mem ‹v ∈ items›
    simp only [Value.array.sizeOf_spec]
    omega
  · obtain ⟨name, v⟩ := m
    have hsize := List.sizeOf_lt_of_mem ‹(name, v) ∈ members›
    simp only [Prod.mk.sizeOf_spec] at hsize
    simp only [Value.object.sizeOf_spec]
    omega

namespace Value

mutual

/-- The tree of what is written for a value; there is none for a value with a number. -/
def tree? : Value → Option Tree
  | .null => some .null
  | .bool b => some (.bool b)
  | .number _ => none
  | .string s => some (.string (Quoted.encode s.toList))
  | .array items => (trees? items).map .array
  | .object members => (memberTrees? members).map .object

/-- The trees of items. -/
def trees? : List Value → Option (List Tree)
  | [] => some []
  | v :: vs =>
    match tree? v, trees? vs with
    | some t, some ts => some (t :: ts)
    | _, _ => none

/-- The trees of members, with their names as literals. -/
def memberTrees? : List (String × Value) → Option (List (List Char × Tree))
  | [] => some []
  | (name, v) :: ms =>
    match tree? v, memberTrees? ms with
    | some t, some ts => some ((Quoted.encode name.toList, t) :: ts)
    | _, _ => none

end

/-- Items with trees have one each. -/
theorem trees?_cons {v : Value} {vs : List Value} {ts : List Tree}
    (h : trees? (v :: vs) = some ts) :
    ∃ t rest, tree? v = some t ∧ trees? vs = some rest ∧ ts = t :: rest := by
  rw [trees?] at h
  split at h
  · rename_i t rest ht hrest
    exact ⟨t, rest, ht, hrest, (Option.some.inj h).symm⟩
  · exact absurd h.symm (Option.some_ne_none ts)

/-- Members with trees have one each. -/
theorem memberTrees?_cons {name : String} {v : Value} {ms : List (String × Value)}
    {ts : List (List Char × Tree)} (h : memberTrees? ((name, v) :: ms) = some ts) :
    ∃ t rest, tree? v = some t ∧ memberTrees? ms = some rest ∧
      ts = (Quoted.encode name.toList, t) :: rest := by
  rw [memberTrees?] at h
  split at h
  · rename_i t rest ht hrest
    exact ⟨t, rest, ht, hrest, (Option.some.inj h).symm⟩
  · exact absurd h.symm (Option.some_ne_none ts)

end Value

/-! ## Blanks -/

namespace Tree

variable {c : Char} {cs cs' : List Char}

/-- A text that starts with no blank has none to skip. -/
theorem skipSpace_cons (h : isSpace c = false) (cs : List Char) :
    skipSpace (c :: cs) = c :: cs := by
  rw [skipSpace, List.dropWhile_cons_of_neg (by simp [h])]

/-- A new line with its indentation is skipped. -/
theorem skipSpace_newLine (level : Nat) (cs : List Char) :
    skipSpace ((Value.newLine level).toList ++ cs) = skipSpace cs := by
  have hblank : ∀ c ∈ (Value.newLine level).toList, isSpace c = true := by
    intro c hc
    rw [Value.newLine, String.toList_append, List.mem_append] at hc
    rcases hc with hc | hc
    · obtain rfl : c = '\n' := List.mem_singleton.mp hc
      decide
    · rw [String.toList_ofList] at hc
      obtain rfl : c = ' ' := List.eq_of_mem_replicate hc
      decide
  rw [skipSpace, skipSpace, List.dropWhile_append_of_pos hblank]

/-- Blanks in front of a value do not matter. -/
theorem readValue_congr (h : skipSpace cs = skipSpace cs') (fuel : Nat) :
    readValue fuel cs = readValue fuel cs' := by
  cases fuel with
  | zero => rfl
  | succ fuel => rw [readValue, readValue, h]

/-- A blank in front of a value does not matter. -/
theorem readValue_space (fuel : ℕ) (cs : List Char) :
    readValue fuel (' ' :: cs) = readValue fuel cs :=
  readValue_congr (List.dropWhile_cons_of_pos (by decide)) fuel

/-- Blanks in front of items do not matter. -/
theorem readItems_congr (h : skipSpace cs = skipSpace cs') (fuel : Nat) :
    readItems fuel cs = readItems fuel cs' := by
  cases fuel with
  | zero => rfl
  | succ fuel => rw [readItems, readItems, readValue_congr h]

/-- A bracket that is not closed at once starts items. -/
theorem readValue_array (h : skipSpace cs = c :: cs') (hc : c ≠ ']') (fuel : ℕ) :
    readValue (fuel + 1) ('[' :: cs) =
      (readItems fuel cs).map fun (items, rest) => (.array items, rest) := by
  simp only [readValue, skipSpace_cons (c := '[') (by decide), h]
  split
  · rename_i hclose
    exact absurd (List.cons.inj hclose).1 hc
  · rfl

/-- A brace that is not closed at once starts members. -/
theorem readValue_object (h : skipSpace cs = c :: cs') (hc : c ≠ '\x7d') (fuel : ℕ) :
    readValue (fuel + 1) ('\x7b' :: cs) =
      (readMembers fuel cs).map fun (members, rest) => (.object members, rest) := by
  simp only [readValue, skipSpace_cons (c := '\x7b') (by decide), h]
  split
  · rename_i hclose
    exact absurd (List.cons.inj hclose).1 hc
  · rfl

/-- Blanks in front of members do not matter. -/
theorem readMembers_congr (h : skipSpace cs = skipSpace cs') (fuel : Nat) :
    readMembers fuel cs = readMembers fuel cs' := by
  cases fuel with
  | zero => rfl
  | succ fuel => rw [readMembers, readMembers, h]

end Tree

/-! ## Values -/

namespace Value

open Json.Tree

variable {v : Value} {t : Tree} {level : ℕ}

/-- A string as it is written. -/
theorem toList_quote (s : String) :
    (quote s).toList = '\x22' :: (Quoted.encode s.toList ++ ['\x22']) := by
  simp [quote]

/-- An array with items as it is written. -/
theorem toList_spread_array (level : ℕ) (v : Value) (vs : List Value) :
    (spread level (.array (v :: vs))).toList =
      '[' :: ((newLine (level + 1)).toList ++ ((spreadItems (level + 1) (v :: vs)).toList ++
        ((newLine level).toList ++ [']']))) := by
  simp [spread]

/-- An object with members as it is written. -/
theorem toList_spread_object (level : ℕ) (m : String × Value) (ms : List (String × Value)) :
    (spread level (.object (m :: ms))).toList =
      '\x7b' :: ((newLine (level + 1)).toList ++ ((spreadMembers (level + 1) (m :: ms)).toList ++
        ((newLine level).toList ++ ['\x7d']))) := by
  simp [spread]

/-- Items as they are written. -/
theorem toList_spreadItems (level : ℕ) (v w : Value) (ws : List Value) :
    (spreadItems level (v :: w :: ws)).toList = (spread level v).toList ++
      ',' :: ((newLine level).toList ++ (spreadItems level (w :: ws)).toList) := by
  simp [spreadItems]

/-- A member as it is written. -/
theorem toList_member (level : ℕ) (name : String) (v : Value) :
    (quote name ++ ": " ++ spread level v).toList =
      '\x22' :: (Quoted.encode name.toList ++
        '\x22' :: ':' :: ' ' :: (spread level v).toList) := by
  simp [toList_quote]

/-- Members as they are written. -/
theorem toList_spreadMembers (level : ℕ) (name : String) (v : Value) (m : String × Value)
    (ms : List (String × Value)) :
    (spreadMembers level ((name, v) :: m :: ms)).toList =
      (quote name ++ ": " ++ spread level v).toList ++
        ',' :: ((newLine level).toList ++ (spreadMembers level (m :: ms)).toList) := by
  simp [spreadMembers]

/-- What is written for a value starts with a character that is no blank and closes no array. -/
theorem spread_head (h : tree? v = some t) (level : ℕ) :
    ∃ c cs, (spread level v).toList = c :: cs ∧ isSpace c = false ∧ c ≠ ']' := by
  cases v with
  | null => exact ⟨'n', ['u', 'l', 'l'], by rw [spread]; rfl, by decide, by decide⟩
  | bool b =>
    cases b with
    | false => exact ⟨'f', ['a', 'l', 's', 'e'], by rw [spread]; rfl, by decide, by decide⟩
    | true => exact ⟨'t', ['r', 'u', 'e'], by rw [spread]; rfl, by decide, by decide⟩
  | number n => exact absurd h.symm (Option.some_ne_none t)
  | string s => exact ⟨'\x22', _, toList_quote s, by decide, by decide⟩
  | array items =>
    cases items with
    | nil => exact ⟨'[', [']'], by rw [spread]; rfl, by decide, by decide⟩
    | cons w ws => exact ⟨'[', _, toList_spread_array level w ws, by decide, by decide⟩
  | object members =>
    cases members with
    | nil => exact ⟨'\x7b', ['\x7d'], by rw [spread]; rfl, by decide, by decide⟩
    | cons m ms => exact ⟨'\x7b', _, toList_spread_object level m ms, by decide, by decide⟩

/-- What is written for items starts as their first one does. -/
theorem spreadItems_head {vs : List Value} {ts : List Tree} (h : trees? (v :: vs) = some ts)
    (level : ℕ) :
    ∃ c cs, (spreadItems level (v :: vs)).toList = c :: cs ∧ isSpace c = false ∧ c ≠ ']' := by
  obtain ⟨t, -, ht, -, -⟩ := trees?_cons h
  obtain ⟨c, cs, hv, hspace, hclose⟩ := spread_head ht level
  cases vs with
  | nil => exact ⟨c, cs, by rw [spreadItems, hv], hspace, hclose⟩
  | cons w ws =>
    exact ⟨c, _, by rw [toList_spreadItems, hv, List.cons_append], hspace, hclose⟩

/-- What is written for members starts with the mark of the first name. -/
theorem spreadMembers_head (m : String × Value) (ms : List (String × Value)) (level : ℕ) :
    ∃ cs, (spreadMembers level (m :: ms)).toList = '\x22' :: cs := by
  obtain ⟨name, v⟩ := m
  cases ms with
  | nil => exact ⟨_, by rw [spreadMembers, toList_member]⟩
  | cons m ms => exact ⟨_, by rw [toList_spreadMembers, toList_member, List.cons_append]⟩

/-- What is written for a value, with anything behind it, is read as its tree. -/
def ReadsBack (v : Value) : Prop :=
  ∀ level t fuel rest, tree? v = some t → (spread level v).length < fuel →
    readValue fuel ((spread level v).toList ++ rest) = some (t, rest)

/-- Items that read back one by one read back as the items of an array. -/
theorem readItems_spreadItems {after rest : List Char} (vs : List Value) (v : Value)
    (hall : ∀ w ∈ v :: vs, ReadsBack w) (hafter : skipSpace after = ']' :: rest)
    {ts : List Tree} (ht : trees? (v :: vs) = some ts) {fuel : ℕ}
    (hfuel : (spreadItems level (v :: vs)).length + 1 < fuel) :
    readItems fuel ((spreadItems level (v :: vs)).toList ++ after) = some (ts, rest) := by
  -- On the items behind the first: the last one is written without a comma behind it.
  induction vs generalizing v ts fuel with
  | nil =>
    obtain ⟨t, ts, hv, hvs, rfl⟩ := trees?_cons ht
    obtain ⟨fuel, rfl⟩ : ∃ n, fuel = n + 1 := ⟨fuel - 1, by omega⟩
    obtain rfl : ts = [] := by simpa [trees?] using hvs.symm
    rw [spreadItems] at hfuel ⊢
    have hfirst := hall v List.mem_cons_self level t fuel after hv (by omega)
    simp only [readItems, hfirst, hafter]
  | cons w ws ih =>
    obtain ⟨t, ts, hv, hvs, rfl⟩ := trees?_cons ht
    obtain ⟨fuel, rfl⟩ : ∃ n, fuel = n + 1 := ⟨fuel - 1, by omega⟩
    simp only [spreadItems, String.length_append] at hfuel
    have hcomma : ",".length = 1 := rfl
    have hrest := ih w (fun u hu => hall u (List.mem_cons_of_mem v hu)) hvs (show _ < fuel by omega)
    have hfirst := hall v List.mem_cons_self level t fuel
      (',' :: ((newLine level).toList ++ ((spreadItems level (w :: ws)).toList ++ after))) hv
      (by omega)
    rw [toList_spreadItems]
    simp only [List.append_assoc, List.cons_append]
    rw [readItems, hfirst]
    simp only [skipSpace_cons (c := ',') (by decide)]
    rw [readItems_congr (skipSpace_newLine level _), hrest]
    rfl

/-- A member as it is written: its name, the colon, a blank and the value. -/
theorem skipSpace_member (name : String) (v : Value) (behind : List Char) :
    skipSpace ((quote name ++ ": " ++ spread level v).toList ++ behind) =
      '\x22' :: (Quoted.encode name.toList ++
        '\x22' :: ':' :: ' ' :: ((spread level v).toList ++ behind)) := by
  rw [toList_member, List.cons_append, skipSpace_cons (by decide)]
  simp only [List.append_assoc, List.cons_append]

/-- Members whose values read back read back as the members of an object. -/
theorem readMembers_spreadMembers {after rest : List Char} (ms : List (String × Value))
    (name : String) (v : Value) (hall : ∀ m ∈ (name, v) :: ms, ReadsBack m.2)
    (hafter : skipSpace after = '\x7d' :: rest) {ts : List (List Char × Tree)}
    (ht : memberTrees? ((name, v) :: ms) = some ts) {fuel : ℕ}
    (hfuel : (spreadMembers level ((name, v) :: ms)).length + 1 < fuel) :
    readMembers fuel ((spreadMembers level ((name, v) :: ms)).toList ++ after) =
      some (ts, rest) := by
  induction ms generalizing name v ts fuel with
  | nil =>
    obtain ⟨t, ts, hv, hvs, rfl⟩ := memberTrees?_cons ht
    obtain ⟨fuel, rfl⟩ : ∃ n, fuel = n + 1 := ⟨fuel - 1, by omega⟩
    obtain rfl : ts = [] := by simpa [memberTrees?] using hvs.symm
    simp only [spreadMembers, String.length_append] at hfuel ⊢
    have hback : ReadsBack v := hall (name, v) List.mem_cons_self
    have hvalue := hback level t fuel after hv (by omega)
    simp only [readMembers, skipSpace_member, Quoted.scan_encode,
      skipSpace_cons (c := ':') (by decide), readValue_space, hvalue, hafter]
  | cons m ms ih =>
    obtain ⟨t, ts, hv, hvs, rfl⟩ := memberTrees?_cons ht
    obtain ⟨fuel, rfl⟩ : ∃ n, fuel = n + 1 := ⟨fuel - 1, by omega⟩
    obtain ⟨name', w⟩ := m
    simp only [spreadMembers, String.length_append] at hfuel
    have hcomma : ",".length = 1 := rfl
    have hrest := ih name' w (fun u hu => hall u (List.mem_cons_of_mem _ hu)) hvs
      (show _ < fuel by omega)
    have hback : ReadsBack v := hall (name, v) List.mem_cons_self
    have hvalue := hback level t fuel
      (',' :: ((newLine level).toList ++
        ((spreadMembers level ((name', w) :: ms)).toList ++ after)))
      hv (by omega)
    rw [toList_spreadMembers]
    simp only [List.append_assoc, List.cons_append]
    simp only [readMembers, skipSpace_member, Quoted.scan_encode,
      skipSpace_cons (c := ':') (by decide), readValue_space, hvalue,
      skipSpace_cons (c := ',') (by decide)]
    rw [readMembers_congr (skipSpace_newLine level _), hrest]
    rfl

/-- An array whose items read back reads back. -/
theorem readsBack_array {v : Value} {vs : List Value} (hall : ∀ w ∈ v :: vs, ReadsBack w) :
    ReadsBack (.array (v :: vs)) := by
  intro level t fuel rest ht hfuel
  obtain ⟨fuel, rfl⟩ : ∃ n, fuel = n + 1 := ⟨fuel - 1, by omega⟩
  obtain ⟨ts, hts, rfl⟩ := Option.map_eq_some_iff.mp ht
  have hlength := congrArg List.length (toList_spread_array level v vs)
  simp only [String.length_toList, List.length_cons, List.length_append] at hlength
  have hclose : skipSpace ((newLine level).toList ++ ']' :: rest) = ']' :: rest := by
    rw [skipSpace_newLine, skipSpace_cons (by decide)]
  have hitems := readItems_spreadItems vs v hall hclose hts
    (show (spreadItems (level + 1) (v :: vs)).length + 1 < fuel by omega)
  -- The reader looks behind the line break once, to see whether the array closes at once.
  obtain ⟨c, cs, hhead, hspace, hopen⟩ := spreadItems_head hts (level + 1)
  have hstart : skipSpace ((newLine (level + 1)).toList ++
      ((spreadItems (level + 1) (v :: vs)).toList ++ ((newLine level).toList ++ ']' :: rest))) =
      c :: (cs ++ ((newLine level).toList ++ ']' :: rest)) := by
    rw [skipSpace_newLine, hhead, List.cons_append, skipSpace_cons hspace]
  rw [toList_spread_array]
  simp only [List.cons_append, List.append_assoc, List.nil_append]
  rw [readValue_array hstart hopen, readItems_congr (skipSpace_newLine (level + 1) _), hitems]
  rfl

/-- An object whose values read back reads back. -/
theorem readsBack_object {m : String × Value} {ms : List (String × Value)}
    (hall : ∀ n ∈ m :: ms, ReadsBack n.2) : ReadsBack (.object (m :: ms)) := by
  intro level t fuel rest ht hfuel
  obtain ⟨fuel, rfl⟩ : ∃ n, fuel = n + 1 := ⟨fuel - 1, by omega⟩
  obtain ⟨ts, hts, rfl⟩ := Option.map_eq_some_iff.mp ht
  have hlength := congrArg List.length (toList_spread_object level m ms)
  simp only [String.length_toList, List.length_cons, List.length_append] at hlength
  have hclose : skipSpace ((newLine level).toList ++ '\x7d' :: rest) = '\x7d' :: rest := by
    rw [skipSpace_newLine, skipSpace_cons (by decide)]
  have hmembers := readMembers_spreadMembers ms m.1 m.2 hall hclose hts
    (show (spreadMembers (level + 1) (m :: ms)).length + 1 < fuel by omega)
  obtain ⟨cs, hhead⟩ := spreadMembers_head m ms (level + 1)
  have hstart : skipSpace ((newLine (level + 1)).toList ++
      ((spreadMembers (level + 1) (m :: ms)).toList ++
        ((newLine level).toList ++ '\x7d' :: rest))) =
      '\x22' :: (cs ++ ((newLine level).toList ++ '\x7d' :: rest)) := by
    rw [skipSpace_newLine, hhead, List.cons_append, skipSpace_cons (by decide)]
  rw [toList_spread_object]
  simp only [List.cons_append, List.append_assoc, List.nil_append]
  rw [readValue_object hstart (by decide), readMembers_congr (skipSpace_newLine (level + 1) _),
    hmembers]
  rfl

/-- Every value reads back. -/
theorem readsBack (v : Value) : ReadsBack v := by
  induction v using Value.parts_induction with
  | null =>
    intro level t fuel rest ht hfuel
    obtain rfl : Tree.null = t := Option.some.inj ht
    obtain ⟨fuel, rfl⟩ : ∃ n, fuel = n + 1 := ⟨fuel - 1, by omega⟩
    rw [spread]
    rfl
  | bool b =>
    intro level t fuel rest ht hfuel
    obtain rfl : Tree.bool b = t := Option.some.inj ht
    obtain ⟨fuel, rfl⟩ : ∃ n, fuel = n + 1 := ⟨fuel - 1, by omega⟩
    cases b with
    | false =>
      rw [spread]
      rfl
    | true =>
      rw [spread]
      rfl
  | number n =>
    -- There is no tree to read: `tree?` leaves out every value that holds a number.
    intro level t fuel rest ht hfuel
    exact absurd ht.symm (Option.some_ne_none t)
  | string s =>
    intro level t fuel rest ht hfuel
    obtain rfl : Tree.string (Quoted.encode s.toList) = t := Option.some.inj ht
    obtain ⟨fuel, rfl⟩ : ∃ n, fuel = n + 1 := ⟨fuel - 1, by omega⟩
    rw [spread, toList_quote, List.cons_append, List.append_assoc, List.singleton_append]
    simp only [readValue, skipSpace_cons (c := '\x22') (by decide), Quoted.scan_encode,
      Option.map_some]
  | array items ih =>
    cases items with
    | nil =>
      intro level t fuel rest ht hfuel
      obtain ⟨fuel, rfl⟩ : ∃ n, fuel = n + 1 := ⟨fuel - 1, by omega⟩
      obtain rfl : Tree.array [] = t := by simpa [tree?, trees?] using ht
      rw [spread]
      rfl
    | cons v vs => exact readsBack_array ih
  | object members ih =>
    cases members with
    | nil =>
      intro level t fuel rest ht hfuel
      obtain ⟨fuel, rfl⟩ : ∃ n, fuel = n + 1 := ⟨fuel - 1, by omega⟩
      obtain rfl : Tree.object [] = t := by simpa [tree?, memberTrees?] using ht
      rw [spread]
      rfl
    | cons m ms => exact readsBack_object ih

/-- A document as it is written over several lines is read as the tree of its value. -/
theorem ofString?_pretty (h : tree? v = some t) : ofString? v.pretty = some t := by
  have hread := readsBack v 0 t ((spread 0 v).toList.length + 1) [] h
    (by rw [String.length_toList]; omega)
  rw [List.append_nil] at hread
  rw [ofString?, ofChars?, pretty, hread]
  rfl

end Value

end Repertoire.Json
