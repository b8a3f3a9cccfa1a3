import Repertoire.Proofs.Toml.Outline
import Repertoire.Proofs.Toml.Reading

/-!
# TOML documents with a gap

The readers of values, items, assignments and statements are followed through a draft in inductions
on the fuel, by what stands at the front of a text. They skip blank lines and comments on their way.
A comment may have the gap in it, and then the reader goes past the gap; so a result comes with the
places in which gaps were passed, and it holds for the words that fit these places. Values are put
together to tables without a look at them, so their gaps end up in the tables.
-/

namespace Repertoire.Toml

open Repertoire.Text Literal

variable {fuel room : ℕ} {word w cs rest z : List Char} {v : Value} {mark c : Char} {d : Draft}

/-! ## What follows a value -/

/-- What follows a value: its neighbour, the end of what it is in or of its line, or nothing. -/
def Ends (rest : List Char) : Prop :=
  ∀ c z, skipSpace rest = c :: z → c ∈ [',', ']', '\x7d', '#', '\x0a', '\x0d']

/-- A line ends with a comment or with the characters of a line end. -/
theorem mem_of_lineEnd? (h : lineEnd? (skipComment (c :: z)) = some rest) :
    c ∈ ['#', '\x0a', '\x0d'] := by
  by_cases hc : c = '#'
  · simp [hc]
  · rw [skipComment_of_ne fun z' hz' => hc (List.cons.inj hz').1] at h
    obtain ⟨lead, rfl | rfl, hlead⟩ := lineEnd?_eq_some.mp h
    · simp [(List.cons.inj hlead).1]
    · simp [(List.cons.inj hlead).1]

/-- A comma or a brace behind blanks ends a value. -/
theorem Ends.of_skipSpace (h : skipSpace rest = mark :: z) (hmark : mark ∈ [',', '\x7d']) :
    Ends rest := by
  intro c z' hz'
  obtain ⟨rfl, -⟩ := List.cons.inj (h.symm.trans hz')
  simp only [List.mem_cons, List.not_mem_nil, or_false] at hmark ⊢
  tauto

/-- A comma or a bracket behind blank lines ends a value. -/
theorem Ends.of_skipLines (h : skipLines rest.length rest = mark :: z)
    (hmark : mark ∈ [',', ']']) : Ends rest := by
  intro c z' hz'
  have hmem : c ∈ ['#', '\x0a', '\x0d'] ∨ c = mark := by
    cases hlen : rest.length with
    | zero =>
      obtain rfl := List.eq_nil_of_length_eq_zero hlen
      exact absurd hz' (List.cons_ne_nil c z').symm
    | succ n =>
      rw [hlen] at h
      cases hend : lineEnd? (skipComment (skipSpace rest)) with
      | some next => exact .inl (mem_of_lineEnd? (hz' ▸ hend))
      | none =>
        rw [skipLines_of_none hend, hz'] at h
        exact .inr (List.cons.inj h).1
  simp only [List.mem_cons, List.not_mem_nil, or_false] at hmem hmark ⊢
  rcases hmem with hmem | rfl <;> tauto

/-- The end of a line ends a value. -/
theorem Ends.of_endOfLine? (h : endOfLine? cs = some rest) : Ends cs := by
  intro c z hz
  have hmem : c ∈ ['#', '\x0a', '\x0d'] := by
    rcases endOfLine?_eq_some.mp h with ⟨hnil, -⟩ | hend
    · by_contra hc
      rw [hz, skipComment_of_ne] at hnil
      · exact List.cons_ne_nil _ _ hnil
      · rintro z' hz'
        obtain ⟨rfl, -⟩ := List.cons.inj hz'
        exact hc (by decide)
    · exact mem_of_lineEnd? (hz ▸ hend)
  simp only [List.mem_cons, List.not_mem_nil, or_false] at hmem ⊢
  tauto

/-- What follows a value does not go on with it. -/
theorem Ends.closes (h : Ends rest) : Closes rest := by
  rintro c z rfl
  by_cases hspace : isSpace c = true
  · have hc : c = ' ' ∨ c = '\x09' := by simpa [isSpace] using hspace
    rcases hc with rfl | rfl <;> decide
  · have hmem := h c z (List.dropWhile_cons_of_neg hspace)
    simp only [List.mem_cons, List.not_mem_nil, or_false] at hmem
    rcases hmem with rfl | rfl | rfl | rfl | rfl | rfl <;> decide

/-- What follows a value ends a number before the gap. -/
theorem Ends.endsNumber (h : Ends rest) (front t : List Char) (hrest : rest = front ++ '$' :: t) :
    ∃ before c after, front = before ++ c :: after ∧ EndsNumber c := by
  subst hrest
  obtain ⟨before, c, after, hfront, hc⟩ := exists_kept_before not_isSpace_dollar (by decide) h
  refine ⟨before, c, after, hfront, ?_⟩
  simp only [List.mem_cons, List.not_mem_nil, or_false] at hc
  rcases hc with rfl | rfl | rfl | rfl | rfl | rfl <;> exact ⟨by decide, by decide⟩

/-! ## Values -/

/-- No key has the word in it. -/
def Keyless (word : List Char) (keys : List String) : Prop := Unnamed word (keys.map String.toList)

/-- Where no key has the word in it, no fewer keys have. -/
theorem Keyless.mono {keys keys' : List String} (h : Keyless word keys)
    (hkeys : ∀ name ∈ keys', name ∈ keys) : Keyless word keys' := by
  rintro name hname
  obtain ⟨key, hkey, rfl⟩ := List.mem_map.mp hname
  exact h _ (List.mem_map_of_mem (hkeys key hkey))

/-- Values are read the same with any fitting word in the gap. -/
def ValueFollows (word : List Char) (fuel : ℕ) : Prop :=
  ∀ {room : ℕ} {d : Draft} {v : Value} {rest : List Char},
    scanValue fuel room (d.fill ('$' :: word)) = some (v, rest) → Ends rest →
      Keyless word v.keys → ∃ (places : List Spot) (o : Value.Draft) (d' : Draft),
        Passes places o.gaps d d' ∧ ∀ w, Meets places w →
          scanValue fuel room (d.fill w) = some (o.fill w, d'.fill w)

/-- A value stands at the front of a draft with any fitting word in the gap. -/
def FrontFollows (fuel room : ℕ) (d : Draft) : Prop :=
  ∃ (places : List Spot) (o : Value.Draft) (d' : Draft), Passes places o.gaps d d' ∧
    ∀ w, Meets places w → Front fuel room (d.fill w) (o.fill w) (d'.fill w)

/-- Items are read the same with any fitting word in the gap. -/
def ItemsFollow (word : List Char) (fuel : ℕ) : Prop :=
  ∀ {room : ℕ} {d : Draft} {items : List Value} {rest : List Char},
    scanItems fuel room (d.fill ('$' :: word)) = some (items, rest) →
      Keyless word (Value.itemKeys items) →
      ∃ (places : List Spot) (os : List Value.Draft) (d' : Draft),
        Passes places (Outline.itemsGaps os) d d' ∧ ∀ w, Meets places w →
          scanItems fuel room (d.fill w) = some (Outline.fillItems Value.form w os, d'.fill w)

/-- The gaps in the values of assignments. -/
def assignmentsGaps (os : List (List String × Value.Draft)) : ℕ := (os.map fun a => a.2.gaps).sum

/-- Assignments are read the same with any fitting word in the gap. -/
def AssignmentsFollow (word : List Char) (fuel : ℕ) : Prop :=
  ∀ {room : ℕ} {d : Draft} {assignments : List (List String × Value)} {rest : List Char},
    scanAssignments fuel room (d.fill ('$' :: word)) = some (assignments, rest) →
      (∀ a ∈ assignments, Keyless word (a.1 ++ a.2.keys)) →
      ∃ (places : List Spot) (os : List (List String × Value.Draft)) (d' : Draft),
        Passes places (assignmentsGaps os) d d' ∧ ∀ w, Meets places w →
          scanAssignments fuel room (d.fill w) =
            some (mapValues (Value.Draft.fill w) os, d'.fill w)

/-- The statements of a document. -/
def statements? (cs : List Char) : Option (List (Statement Value)) :=
  scanStatements (cs.length + 1) (dropMark cs)

/-- A reader leaves one thing of a text. -/
theorem eq_of_read {α : Type} {x y : α} {rest' : List Char} {out : Option (α × List Char)}
    (h : out = some (x, rest)) (h' : out = some (y, rest')) : x = y ∧ rest = rest' :=
  Prod.mk.inj (Option.some.inj (h.symm.trans h'))

section

variable (hword : ∀ c ∈ '$' :: word, IsPlain c)

include hword

/-- An item before or around the gap stands there with any word that fits. -/
theorem itemAt_draft (hvalue : ValueFollows word fuel)
    (h : ItemAt fuel room (d.fill ('$' :: word)) v mark rest) (hmark : mark ∈ [',', ']'])
    (hkeys : Keyless word v.keys) :
    ∃ (places : List Spot) (o : Value.Draft) (d' : Draft), Passes places o.gaps d d' ∧
      d'.fill ('$' :: word) = rest ∧
      ∀ w, Meets places w → ItemAt fuel room (d.fill w) (o.fill w) mark (d'.fill w) := by
  obtain ⟨after, hitem, hskip⟩ := h
  obtain ⟨ps, o, d₁, hps, hread⟩ := hvalue hitem (.of_skipLines hskip hmark) hkeys
  obtain ⟨-, rfl⟩ := eq_of_read hitem (hread _ (meets_dollar hword ps))
  have hmark' : mark ∉ ['$', '\x0d', '#'] := by
    simp only [List.mem_cons, List.not_mem_nil, or_false] at hmark
    rcases hmark with rfl | rfl <;> decide
  obtain ⟨qs, d', hqs, rfl, hskip'⟩ := skipLines_cons hword hskip hmark'
  refine ⟨ps ++ qs, o, d', hps.trans hqs, rfl, fun w hw => ?_⟩
  obtain ⟨hwps, hwqs⟩ := meets_append.mp hw
  exact ⟨_, hread w hwps, hskip' w hwqs⟩

/-- An assignment whose key is not around the gap stands there with any word that fits. -/
theorem assignmentAt_draft {path : List String} (hvalue : ValueFollows word fuel)
    (h : AssignmentAt fuel room (d.fill ('$' :: word)) path v mark rest)
    (hmark : mark ∈ [',', '\x7d']) (hkeys : Keyless word (path ++ v.keys)) :
    ∃ (places : List Spot) (o : Value.Draft) (d' : Draft), Passes places o.gaps d d' ∧
      d'.fill ('$' :: word) = rest ∧
      ∀ w, Meets places w → AssignmentAt fuel room (d.fill w) path (o.fill w) mark (d'.fill w) := by
  obtain ⟨afterKey, after, hkey, hitem, hskip⟩ := h
  obtain ⟨d₁, htail₁, rfl, hkey'⟩ := scanKey_draft hword hkey
    (hkeys.mono fun _ hname => List.mem_append_left _ hname) (by decide)
  obtain ⟨d₂, htail₂, hskip₂, -⟩ := Draft.dropWhile not_isSpace_dollar
    (ne_of_scanValue hitem (by decide))
  have hskip₂' : ∀ w, skipSpace (d₁.fill w) = d₂.fill w := hskip₂
  rw [hskip₂'] at hitem
  obtain ⟨places, o, d₃, hpasses, hread⟩ := hvalue hitem (.of_skipSpace hskip hmark)
    (hkeys.mono fun _ hname => List.mem_append_right _ hname)
  obtain ⟨-, rfl⟩ := eq_of_read hitem (hread _ (meets_dollar hword places))
  have hdollar : mark ≠ '$' := by
    rintro rfl
    exact absurd hmark (by decide)
  obtain ⟨d', htail, rfl, hskip'⟩ := Draft.dropWhile_cons not_isSpace_dollar hskip hdollar
  refine ⟨places, o, d', (hpasses.behind (htail₁.trans htail₂)).before htail, rfl, fun w hw => ?_⟩
  refine ⟨_, _, hkey' w, ?_, hskip' w⟩
  rw [hskip₂']
  exact hread w hw

/-- Items are followed if values and fewer items are. -/
theorem itemsFollow_succ (hvalue : ValueFollows word fuel) (hitems : ItemsFollow word fuel) :
    ItemsFollow word (fuel + 1) := by
  intro room d items rest h hkeys
  rcases scanItems_eq_some.mp h with
    ⟨v, hitem, rfl⟩ | ⟨v, more, hitem, hclose, rfl⟩ | ⟨v, more, items', hitem, hopen, hmore, rfl⟩
  · obtain ⟨places, o, d', hpasses, rfl, hitem'⟩ := itemAt_draft hword hvalue hitem (by decide)
      (hkeys.mono fun _ hname => List.mem_append_left _ hname)
    exact ⟨places, [o], d', hpasses, fun w hw =>
      scanItems_eq_some.mpr (.inl ⟨_, hitem' w hw, rfl⟩)⟩
  · obtain ⟨ps, o, d₁, hps, rfl, hitem'⟩ := itemAt_draft hword hvalue hitem (by decide)
      (hkeys.mono fun _ hname => List.mem_append_left _ hname)
    obtain ⟨qs, d', hqs, rfl, hclose'⟩ := skipLines_cons hword hclose (by decide)
    refine ⟨ps ++ qs, [o], d', hps.trans hqs, fun w hw => ?_⟩
    obtain ⟨hwps, hwqs⟩ := meets_append.mp hw
    exact scanItems_eq_some.mpr (.inr (.inl ⟨_, _, hitem' w hwps, hclose' w hwqs, rfl⟩))
  · obtain ⟨ps, o, d₁, hps, rfl, hitem'⟩ := itemAt_draft hword hvalue hitem (by decide)
      (hkeys.mono fun _ hname => List.mem_append_left _ hname)
    have hne := fun c hc => ne_of_scanItems hmore (c := c) hc
    obtain ⟨qs, d₂, hqs, hraw, hskip⟩ := skipLines_draft hword le_rfl hne
    rw [hraw] at hmore hopen hne
    obtain ⟨rs, os, d', hrs, hread⟩ := hitems hmore
      (hkeys.mono fun _ hname => List.mem_append_right _ hname)
    refine ⟨(ps ++ qs) ++ rs, o :: os, d', (hps.trans hqs).trans hrs, fun w hw => ?_⟩
    obtain ⟨hw', hwrs⟩ := meets_append.mp hw
    obtain ⟨hwps, hwqs⟩ := meets_append.mp hw'
    have hskip' := hskip w hwqs _ le_rfl
    refine scanItems_eq_some.mpr (.inr (.inr ⟨_, _, _, hitem' w hwps, ?_, ?_, rfl⟩))
    · rw [hskip']
      exact Draft.fill_ne (hne '$' (by decide)) hopen w
    · rw [hskip']
      exact hread w hwrs

/-- Assignments are followed if values and fewer assignments are. -/
theorem assignmentsFollow_succ (hvalue : ValueFollows word fuel)
    (hassignments : AssignmentsFollow word fuel) : AssignmentsFollow word (fuel + 1) := by
  intro room d assignments rest h hkeys
  rcases scanAssignments_eq_some.mp h with
    ⟨path, v, hassignment, rfl⟩ | ⟨path, v, more, assignments', hassignment, hmore, rfl⟩
  · obtain ⟨places, o, d', hpasses, rfl, hassignment'⟩ := assignmentAt_draft hword hvalue
      hassignment (by decide) (hkeys _ List.mem_cons_self)
    exact ⟨places, [(path, o)], d', hpasses, fun w hw =>
      scanAssignments_eq_some.mpr (.inl ⟨_, _, hassignment' w hw, rfl⟩)⟩
  · obtain ⟨ps, o, d₁, hps, rfl, hassignment'⟩ := assignmentAt_draft hword hvalue hassignment
      (by decide) (hkeys _ List.mem_cons_self)
    obtain ⟨qs, os, d', hqs, hread⟩ := hassignments hmore fun a ha =>
      hkeys a (List.mem_cons_of_mem _ ha)
    refine ⟨ps ++ qs, (path, o) :: os, d', hps.trans hqs, fun w hw => ?_⟩
    obtain ⟨hwps, hwqs⟩ := meets_append.mp hw
    exact scanAssignments_eq_some.mpr (.inr ⟨_, _, _, _, hassignment' w hwps, hread w hwqs, rfl⟩)

/-- An array that is not empty is read the same with any fitting word in the gap. -/
theorem frontFollows_array {items : List Value} (hitems : ItemsFollow word fuel)
    (hopen : ∀ z, skipLines (d.fill ('$' :: word)).length (d.fill ('$' :: word)) ≠ ']' :: z)
    (hread : scanItems fuel room
      (skipLines (d.fill ('$' :: word)).length (d.fill ('$' :: word))) = some (items, rest))
    (hkeys : Keyless word (Value.itemKeys items)) :
    FrontFollows fuel (room + 1) (d.prepend ['[']) := by
  have hne := fun c hc => ne_of_scanItems hread (c := c) hc
  obtain ⟨ps, d₁, hps, hraw, hskip⟩ := skipLines_draft hword le_rfl hne
  rw [hraw] at hread hopen hne
  obtain ⟨qs, os, d', hqs, hos⟩ := hitems hread hkeys
  refine ⟨ps ++ qs, .list os, d',
    ((hps.trans hqs).mono (Nat.zero_add _).ge).behind (.prepend _ d), fun w hw => ?_⟩
  obtain ⟨hwps, hwqs⟩ := meets_append.mp hw
  have hskip' := hskip w hwps _ le_rfl
  rw [Draft.fill_prepend, List.singleton_append]
  refine .array _ _ _ _ ?_ ?_
  · rw [hskip']
    exact Draft.fill_ne (hne '$' (by decide)) hopen w
  · rw [hskip']
    exact hos w hwqs

/-- An inline table that is not empty is read the same with any fitting word in the gap. Its entries
are put together without a look at the values. -/
theorem frontFollows_table {assignments : List (List String × Value)} {entries : Entries Value}
    (hassignments : AssignmentsFollow word fuel)
    (hopen : ∀ z, skipSpace (d.fill ('$' :: word)) ≠ '\x7d' :: z)
    (hread : scanAssignments fuel room (skipSpace (d.fill ('$' :: word))) = some (assignments, rest))
    (hentries : inlineEntries? assignments = some entries)
    (hkeys : ∀ a ∈ assignments, Keyless word (a.1 ++ a.2.keys)) :
    FrontFollows fuel (room + 1) (d.prepend ['\x7b']) := by
  have hne := ne_dollar_of_scanAssignments hread
  obtain ⟨d₁, htail, hskip, -⟩ := Draft.dropWhile not_isSpace_dollar hne
  have hskip' : ∀ w, skipSpace (d.fill w) = d₁.fill w := hskip
  rw [hskip'] at hread hne
  simp only [hskip'] at hopen
  obtain ⟨places, os, d', hpasses, hos⟩ := hassignments hread hkeys
  obtain ⟨hraw, -⟩ := eq_of_read hread (hos _ (meets_dollar hword places))
  rw [hraw, inlineEntries?_map] at hentries
  obtain ⟨drafts, hdrafts, -⟩ := Option.map_eq_some_iff.mp hentries
  have hrecord : (Outline.record (Entries.outlines drafts) : Value.Draft).gaps =
      Entries.size Outline.gaps drafts := Entries.gaps_outlines drafts
  have hsize : Entries.size Outline.gaps drafts ≤ assignmentsGaps os := size_inlineEntries? hdrafts
  refine ⟨places, .record (Entries.outlines drafts), d', (hpasses.mono (by omega)).behind
    ((Draft.Tail.prepend _ d).trans htail), fun w hw => ?_⟩
  have hfill : Value.Draft.fill w (.record (Entries.outlines drafts)) =
      .table (Node.members (Entries.map (Value.Draft.fill w) drafts)) :=
    congrArg Value.table (Entries.fill_outlines drafts)
  rw [Draft.fill_prepend, List.singleton_append, hfill]
  refine .table _ _ _ (mapValues (Value.Draft.fill w) os) _ ?_ ?_ ?_
  · rw [hskip']
    exact Draft.fill_ne hne hopen w
  · rw [hskip']
    exact hos w hw
  · rw [inlineEntries?_map, hdrafts, Option.map_some]

/-- Values are followed if what they contain is. -/
theorem valueFollows_succ (hitems : ItemsFollow word fuel)
    (hassignments : AssignmentsFollow word fuel) : ValueFollows word (fuel + 1) := by
  intro room d v rest h hends hkeys
  have hfront := scanValue_eq_some.mp h
  suffices hfollows : FrontFollows fuel room d by
    obtain ⟨places, o, d', hpasses, hfill⟩ := hfollows
    exact ⟨places, o, d', hpasses, fun w hw => scanValue_eq_some.mpr (hfill w hw)⟩
  generalize hcs : d.fill ('$' :: word) = cs at hfront
  cases hfront with
  | string room cs text rest hscan =>
    obtain ⟨places, o, d', hpasses, hstring⟩ :=
      scanString_draft hword (hcs ▸ hscan) hends.closes
    exact ⟨places, .text o, d', hpasses, fun w hw => .string _ _ _ _ (hstring w hw)⟩
  | emptyArray room cs rest hclose =>
    obtain ⟨d₁, rfl, rfl⟩ := Draft.peel ['['] hcs (by decide)
    obtain ⟨places, d', hpasses, rfl, hclose'⟩ := skipLines_cons hword hclose (by decide)
    refine ⟨places, .fixed (.array []), d', hpasses.behind (.prepend _ d₁), fun w hw => ?_⟩
    rw [Draft.fill_prepend]
    exact .emptyArray _ _ _ (hclose' w hw)
  | array room cs rest items hopen hread =>
    obtain ⟨d₁, rfl, rfl⟩ := Draft.peel ['['] hcs (by decide)
    exact frontFollows_array hword hitems hopen hread hkeys
  | emptyTable room cs rest hclose =>
    obtain ⟨d₁, rfl, rfl⟩ := Draft.peel ['\x7b'] hcs (by decide)
    obtain ⟨d', htail, rfl, hclose'⟩ := Draft.dropWhile_cons not_isSpace_dollar hclose (by decide)
    refine ⟨[], .fixed (.table []), d', .of_tail ((Draft.Tail.prepend _ d₁).trans htail),
      fun w _ => ?_⟩
    rw [Draft.fill_prepend]
    exact .emptyTable _ _ _ (hclose' w)
  | table room cs rest assignments entries hopen hread hentries =>
    obtain ⟨d₁, rfl, rfl⟩ := Draft.peel ['\x7b'] hcs (by decide)
    exact frontFollows_table hword hassignments hopen hread hentries fun a ha =>
      hkeys.mono (keys_inlineEntries? hentries a ha)
  | true room rest =>
    obtain ⟨d', rfl, rfl⟩ := Draft.peel ['t', 'r', 'u', 'e'] hcs (by decide)
    refine ⟨[], .fixed (.bool true), d', .of_tail (.prepend _ d'), fun w _ => ?_⟩
    rw [Draft.fill_prepend]
    exact .true _ _
  | false room rest =>
    obtain ⟨d', rfl, rfl⟩ := Draft.peel ['f', 'a', 'l', 's', 'e'] hcs (by decide)
    refine ⟨[], .fixed (.bool false), d', .of_tail (.prepend _ d'), fun w _ => ?_⟩
    rw [Draft.fill_prepend]
    exact .false _ _
  | numeric room cs v rest hscan =>
    obtain ⟨d', hn⟩ := isSolid_scanNumeric.toIsToken.reads (fun _ => True)
      (⟨by decide, by decide⟩ : EndsNumber '$') (hcs ▸ hscan) hends.endsNumber
    exact ⟨[], .fixed v, d', .of_tail hn.tail, fun w _ =>
      .numeric _ _ _ _ (hn.read_eq w trivial)⟩

/-- Every reader goes through a draft the same with any fitting word in the gap. -/
theorem follows (fuel : ℕ) :
    ValueFollows word fuel ∧ ItemsFollow word fuel ∧ AssignmentsFollow word fuel := by
  induction fuel with
  | zero =>
    refine ⟨?_, ?_, ?_⟩ <;> intro room d x rest h
    · simp [scanValue] at h
    · simp [scanItems] at h
    · simp [scanAssignments] at h
  | succ fuel ih =>
    obtain ⟨hvalue, hitems, hassignments⟩ := ih
    exact ⟨valueFollows_succ hword hitems hassignments, itemsFollow_succ hword hvalue hitems,
      assignmentsFollow_succ hword hvalue hassignments⟩

/-! ## Statements -/

/-- A statement whose keys are not around the gap stands there with any word that fits. -/
theorem statementAt_draft {s : Statement Value}
    (h : StatementAt (d.fill ('$' :: word)) s rest) (hkeys : Keyless word s.keys) :
    ∃ (places : List Spot) (o : Statement Value.Draft) (d' : Draft),
      Passes places (o.size Outline.gaps) d d' ∧ d'.fill ('$' :: word) = rest ∧
      ∀ w, Meets places w → StatementAt (d.fill w) (o.map (Value.Draft.fill w)) (d'.fill w) := by
  generalize hcs : d.fill ('$' :: word) = cs at h
  cases h with
  | element cs after rest path hkey hend =>
    obtain ⟨d₁, rfl, rfl⟩ := Draft.peel ['[', '['] hcs (by decide)
    obtain ⟨d₂, htail₂, hfill₂, hkey'⟩ := scanKey_draft hword hkey hkeys (by decide)
    obtain ⟨d₃, rfl, rfl⟩ := Draft.peel [']'] hfill₂ (by decide)
    obtain ⟨places, d', hpasses, rfl, hend'⟩ := endOfLine?_draft hword hend
    refine ⟨places, .element path, d', hpasses.behind
      (((Draft.Tail.prepend _ d₁).trans htail₂).trans (.prepend _ d₃)), rfl, fun w hw => ?_⟩
    have hkey₂ := hkey' w
    rw [Draft.fill_prepend] at hkey₂ ⊢
    exact .element _ _ _ _ hkey₂ (hend' w hw)
  | header cs after rest path hone hkey hend =>
    obtain ⟨d₁, rfl, rfl⟩ := Draft.peel ['['] hcs (by decide)
    have hne := ne_dollar_of_scanKey hkey
    obtain ⟨d₂, htail₂, rfl, hkey'⟩ := scanKey_draft hword hkey hkeys (by decide)
    obtain ⟨places, d', hpasses, rfl, hend'⟩ := endOfLine?_draft hword hend
    refine ⟨places, .header path, d', hpasses.behind ((Draft.Tail.prepend _ d₁).trans htail₂),
      rfl, fun w hw => ?_⟩
    rw [Draft.fill_prepend]
    exact .header _ _ _ _ (Draft.fill_ne hne hone w) (hkey' w) (hend' w hw)
  | assignment fuel cs afterKey after rest path v hbracket hkey hvalue hend =>
    subst hcs
    have hne := ne_dollar_of_scanKey hkey
    obtain ⟨d₁, htail₁, rfl, hkey'⟩ := scanKey_draft hword hkey
      (hkeys.mono fun _ hname => List.mem_append_left _ hname) (by decide)
    obtain ⟨d₂, htail₂, hskip, -⟩ := Draft.dropWhile not_isSpace_dollar
      (ne_of_scanValue hvalue (by decide))
    have hskip' : ∀ w, skipSpace (d₁.fill w) = d₂.fill w := hskip
    rw [hskip'] at hvalue
    obtain ⟨ps, o, d₃, hps, hread⟩ := (follows hword fuel).1 hvalue (.of_endOfLine? hend)
      (hkeys.mono fun _ hname => List.mem_append_right _ hname)
    obtain ⟨-, rfl⟩ := eq_of_read hvalue (hread _ (meets_dollar hword ps))
    obtain ⟨qs, d', hqs, rfl, hend'⟩ := endOfLine?_draft hword hend
    refine ⟨ps ++ qs, .assignment path o, d', (hps.trans hqs).behind (htail₁.trans htail₂), rfl,
      fun w hw => ?_⟩
    obtain ⟨hwps, hwqs⟩ := meets_append.mp hw
    refine .assignment fuel _ _ _ _ _ _ (Draft.fill_ne hne hbracket w) (hkey' w) ?_
      (hend' w hwqs)
    rw [hskip']
    exact hread w hwps

/-- Statements whose keys are not around the gap stand there with any word that fits. -/
theorem statementsAt_draft {ss : List (Statement Value)} (hcs : d.fill ('$' :: word) = cs)
    (h : StatementsAt cs ss) (hkeys : ∀ s ∈ ss, Keyless word s.keys) :
    ∃ (places : List Spot) (os : List (Statement Value.Draft)), places.length ≤ d.gaps ∧
      (os.map (Statement.size Outline.gaps)).sum ≤ places.length ∧
      ∀ w, Meets places w →
        StatementsAt (d.fill w) (os.map (Statement.map (Value.Draft.fill w))) := by
  induction h generalizing d with
  | done cs hlines =>
    subst hcs
    obtain ⟨places, d₁, hpasses, hraw, hskip⟩ := skipLines_draft hword le_rfl fun c _ z hz =>
      List.cons_ne_nil c z (hz.symm.trans hlines)
    have hd₁ := Draft.eq_whole_nil (hraw.symm.trans hlines)
    have hlen := hpasses.length_le
    refine ⟨places, [], by omega, Nat.zero_le _, fun w hw => .done _ ?_⟩
    rw [hskip w hw _ le_rfl, hd₁, Draft.fill_whole]
  | comment cs z hlines hz =>
    subst hcs
    obtain ⟨places, hlen, hskip⟩ := skipLines_comment hword le_rfl hlines (List.all_eq_true.mp hz)
    refine ⟨places, [], hlen, Nat.zero_le _, fun w hw => ?_⟩
    obtain ⟨z', hz', hskip'⟩ := hskip w hw
    exact .comment _ z' (hskip' _ le_rfl) (List.all_eq_true.mpr hz')
  | next cs after s ss hs hrest ih =>
    subst hcs
    obtain ⟨ps, d₁, hps, hraw, hskip⟩ := skipLines_draft hword le_rfl fun _ hc => hs.ne hc
    obtain ⟨qs, o, d₂, hqs, hfill, hstatement⟩ := statementAt_draft hword (hraw ▸ hs)
      (hkeys s List.mem_cons_self)
    obtain ⟨rs, os, hlen, hsum, hstatements⟩ := ih hfill fun s' hs' =>
      hkeys s' (List.mem_cons_of_mem _ hs')
    have hpasses := hps.trans hqs
    refine ⟨(ps ++ qs) ++ rs, o :: os, ?_, ?_, fun w hw => ?_⟩
    · have hle := hpasses.length_le
      rw [List.length_append]
      omega
    · have hle := hpasses.gaps_le
      rw [List.length_append, List.map_cons, List.sum_cons]
      omega
    · obtain ⟨hw', hwrs⟩ := meets_append.mp hw
      obtain ⟨hwps, hwqs⟩ := meets_append.mp hw'
      refine .next _ (d₂.fill w) _ _ ?_ (hstatements w hwrs)
      rw [hskip w hwps _ le_rfl]
      exact hstatement w hwqs

omit hword in
/-- A document is read by its statements and then put together. -/
theorem readDocument_eq (cs : List Char) : readDocument cs =
    (statements? cs).bind fun ss => (Entries.ofStatements? ss).map Node.members := by
  unfold readDocument statements?
  cases scanStatements (cs.length + 1) (dropMark cs) with
  | none => rfl
  | some ss =>
    simp only [Entries.ofStatements?, Option.map_map, Option.bind_some]
    rfl

omit hword in
/-- Dropping the mark of the byte order makes no text longer. -/
theorem length_dropMark_le (cs : List Char) : (dropMark cs).length ≤ cs.length := by
  unfold dropMark
  split
  · exact Nat.le_succ _
  · exact le_rfl

omit hword in
/-- A text is its statements, with a byte order mark in front or without. -/
theorem statements?_eq_some {ss : List (Statement Value)} :
    statements? cs = some ss ↔ StatementsAt (dropMark cs) ss :=
  ⟨statementsAt_of_scanStatements, fun h =>
    h.scanStatements_eq (Nat.lt_succ_of_le (length_dropMark_le cs))⟩

omit hword in
/-- No document starts with a dollar sign. -/
theorem StatementsAt.ne_dollar {ss : List (Statement Value)} (h : StatementsAt cs ss)
    (z : List Char) : cs ≠ '$' :: z := by
  rintro rfl
  have hskip : skipLines ('$' :: z).length ('$' :: z) = '$' :: z := rfl
  generalize hcs : '$' :: z = cs at h hskip
  cases h with
  | done cs h => exact List.cons_ne_nil _ _ (hcs.trans (hskip.symm.trans h))
  | comment cs z' h =>
    exact absurd (List.cons.inj (hcs.trans (hskip.symm.trans h))).1 (by decide)
  | next cs after s ss h => exact h.ne (by decide) z (hskip.trans hcs.symm)

omit hword in
/-- Where there is no mark of the byte order nothing is dropped. -/
theorem dropMark_of_ne (h : ∀ z, cs ≠ '\uFEFF' :: z) : dropMark cs = cs := by
  unfold dropMark
  split
  · exact absurd rfl (h _)
  · rfl

omit hword in
/-- A byte order mark is in front of a draft or not, whatever the word is. -/
theorem dropMark_draft (h : ∀ z, dropMark (d.fill ('$' :: word)) ≠ '$' :: z) :
    ∃ d' : Draft, d'.Tail d ∧ ∀ w, dropMark (d.fill w) = d'.fill w := by
  by_cases hmark : ∃ z, d.fill ('$' :: word) = '\uFEFF' :: z
  · obtain ⟨z, hz⟩ := hmark
    obtain ⟨d', rfl, rfl⟩ := Draft.peel ['\uFEFF'] hz (by decide)
    exact ⟨d', .prepend _ d', fun w => by rw [Draft.fill_prepend]; rfl⟩
  · have hne : ∀ z, d.fill ('$' :: word) ≠ '\uFEFF' :: z := fun z hz => hmark ⟨z, hz⟩
    rw [dropMark_of_ne hne] at h
    exact ⟨d, .refl d, fun w => dropMark_of_ne (Draft.fill_ne h hne w)⟩

/-- A document whose only word is in one of its strings or comments has, with any fitting word in
its place, the same statements with that word in that string. -/
theorem statements?_draft {ss : List (Statement Value)}
    (h : statements? (d.fill ('$' :: word)) = some ss) (hkeys : ∀ s ∈ ss, Keyless word s.keys) :
    ∃ (places : List Spot) (os : List (Statement Value.Draft)), places.length ≤ d.gaps ∧
      (os.map (Statement.size Outline.gaps)).sum ≤ places.length ∧
      os.map (Statement.map (Value.Draft.fill ('$' :: word))) = ss ∧
      ∀ w, Meets places w →
        statements? (d.fill w) = some (os.map (Statement.map (Value.Draft.fill w))) := by
  have hat := statements?_eq_some.mp h
  obtain ⟨d₁, htail, hdrop⟩ := dropMark_draft hat.ne_dollar
  rw [hdrop] at hat
  obtain ⟨places, os, hlen, hsum, hfill⟩ := statementsAt_draft hword rfl hat hkeys
  have hall : ∀ w, Meets places w →
      statements? (d.fill w) = some (os.map (Statement.map (Value.Draft.fill w))) := fun w hw =>
    statements?_eq_some.mpr (hdrop w ▸ hfill w hw)
  refine ⟨places, os, hlen.trans htail.gaps_le, hsum, ?_, hall⟩
  exact Option.some.inj ((hall _ (meets_dollar hword places)).symm.trans h)

end

end Repertoire.Toml
