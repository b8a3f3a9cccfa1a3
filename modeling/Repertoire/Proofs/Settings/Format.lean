import Repertoire.Proofs.Json.Draft
import Repertoire.Proofs.Settings.Draft
import Repertoire.Proofs.Toml.Outline

/-!
# The readers of both formats follow gaps

Settings are read by a few readers that each format brings: of texts, switches, numbers, lists and
records. A reader follows gaps if it reads the same from a value with any fitting word in its gaps,
with that word in the texts that it reads. Readers of what has no texts follow gaps because a value
of theirs is no text, no list and no record.
-/

namespace Repertoire

open Text

/-! ## Readers of both formats -/

section

variable {α κ β γ : Type} {form : Form α κ} {fits : List Char → Prop} {raw : List Char}
  {g : Gapped β γ} {read : α → Option β}

/-- What is read from a value without gaps is the same for every word. -/
theorem follows_fixed {value : α} {x : β} (h : read value = some x) (g : Gapped β γ) :
    ∃ y : γ, g.gaps y ≤ (Outline.fixed value : Outline α κ).gaps ∧ g.fill raw y = x ∧
      ∀ w, fits w → read ((Outline.fixed value : Outline α κ).fill form w) = some (g.fill w y) :=
  ⟨g.whole x, (g.gaps_whole x).le, g.fill_whole raw x, fun w _ => by
    rw [g.fill_whole]
    exact h⟩

/-- A reader of texts follows gaps if it follows them in a text and reads no list and no record. -/
theorem follows_of_text
    (htext : ∀ (d : Draft) (x : β), read (form.text (d.fill raw)) = some x →
      ∃ y : γ, g.gaps y ≤ d.gaps ∧ g.fill raw y = x ∧
        ∀ w, fits w → read (form.text (d.fill w)) = some (g.fill w y))
    (hlist : ∀ items, read (form.list items) = none)
    (hrecord : ∀ members, read (form.record members) = none) :
    Follows form fits raw g read := by
  intro o x h
  cases o with
  | fixed value => exact follows_fixed h g
  | text draft => exact htext draft x h
  | list items => exact absurd ((hlist _).symm.trans h) (Option.some_ne_none x).symm
  | record members => exact absurd ((hrecord _).symm.trans h) (Option.some_ne_none x).symm

/-- A reader of values that are not made of others follows gaps if it reads neither texts nor
lists nor records. -/
theorem follows_of_plain (htext : ∀ cs, read (form.text cs) = none)
    (hlist : ∀ items, read (form.list items) = none)
    (hrecord : ∀ members, read (form.record members) = none) (g : Gapped β γ) :
    Follows form fits raw g read :=
  follows_of_text (fun _ x h => absurd ((htext _).symm.trans h) (Option.some_ne_none x).symm) hlist
    hrecord

/-- Where items are read one by one, lists are followed as their items are. -/
theorem follows_items (hread : Follows form fits raw g read) (os : List (Outline α κ)) {xs : List β}
    (h : (Outline.fillItems form raw os).mapM read = some xs) :
    ∃ ys : List γ, g.list.gaps ys ≤ Outline.itemsGaps os ∧ g.list.fill raw ys = xs ∧
      ∀ w, fits w → (Outline.fillItems form w os).mapM read = some (g.list.fill w ys) := by
  induction os generalizing xs with
  | nil =>
    obtain rfl := Option.some.inj h
    exact ⟨[], Nat.zero_le _, rfl, fun _ _ => rfl⟩
  | cons o os ih =>
    simp only [Outline.fillItems, List.mapM_cons, Option.bind_eq_bind, Option.bind_eq_some_iff] at h
    obtain ⟨x, hx, xs', hxs', hout⟩ := h
    obtain rfl := Option.some.inj hout
    obtain ⟨y, hgaps, rfl, hfill⟩ := hread o x hx
    obtain ⟨ys, hgaps', rfl, hfill'⟩ := ih hxs'
    refine ⟨y :: ys, ?_, rfl, fun w hw => ?_⟩
    · rw [Outline.itemsGaps]
      exact Nat.add_le_add hgaps hgaps'
    · simp only [Outline.fillItems, List.mapM_cons, hfill w hw, hfill' w hw, Option.bind_eq_bind,
        Option.bind_some]
      rfl

/-! ### Members -/

/-- The members of a record follow gaps. -/
def MembersFollow (form : Form α κ) (fits : List Char → Prop) (raw : List Char)
    (read : α → Option (List (String × α))) (o : Outline α κ) : Prop :=
  ∀ ms, read (o.fill form raw) = some ms →
    ∃ os : List (String × Outline α κ), gapsEach os ≤ o.gaps ∧ fillEach form raw os = ms ∧
      ∀ w, fits w → read (o.fill form w) = some (fillEach form w os)

/-- The members of a value without gaps are the same for every word. -/
theorem membersFollow_fixed {read : α → Option (List (String × α))} (value : α) :
    MembersFollow form fits raw read (.fixed value) := by
  intro ms h
  have hfill : ∀ w, fillEach form w
      (ms.map fun m => (m.1, (Outline.fixed m.2 : Outline α κ))) = ms := fun w => by
    simp [fillEach, Function.comp_def, Outline.fill]
  refine ⟨ms.map fun m => (m.1, .fixed m.2), ?_, hfill raw, fun w _ => ?_⟩
  · simp [gapsEach, Function.comp_def, Outline.gaps]
  · rw [hfill]
    exact h

/-- Items with a word in their gaps are named as the items are. -/
theorem fillEach_ofPositions (names : List String) (os : List (Outline α κ)) (w : List Char) :
    fillEach form w (Record.ofPositions names os) =
      Record.ofPositions names (Outline.fillItems form w os) := by
  rw [Outline.fillItems_eq_map, Record.ofPositions, Record.ofPositions, List.zip_map_right]
  rfl

/-- Naming items makes no gaps. -/
theorem gapsEach_ofPositions_le (names : List String) (os : List (Outline α κ)) :
    gapsEach (Record.ofPositions names os) ≤ Outline.itemsGaps os := by
  induction names generalizing os with
  | nil => exact Nat.zero_le _
  | cons name names ih =>
    cases os with
    | nil => exact le_rfl
    | cons o os => exact Nat.add_le_add_left (ih os) _

/-- Members that are listed by position follow gaps. -/
theorem membersFollow_ofPositions {read : α → Option (List (String × α))} (names : List String)
    (os : List (Outline α κ))
    (hread : ∀ w, read (form.list (Outline.fillItems form w os)) =
      some (Record.ofPositions names (Outline.fillItems form w os))) :
    MembersFollow form fits raw read (.list os) := by
  intro ms h
  have hlist : ∀ w, read ((Outline.list os).fill form w) =
      some (fillEach form w (Record.ofPositions names os)) := fun w => by
    rw [fillEach_ofPositions]
    exact hread w
  exact ⟨Record.ofPositions names os, gapsEach_ofPositions_le names os,
    Option.some.inj ((hlist raw).symm.trans h), fun w _ => hlist w⟩

end

/-! ## TOML -/

section

variable (fits : List Char → Prop) (raw : List Char)

/-- TOML finds the same members with every word in the gaps. -/
theorem membersFollow_toml (names : List String) (o : Toml.Value.Draft) :
    MembersFollow Toml.Value.form fits raw (Shape.toml.members? names) o := by
  cases o with
  | fixed value => exact membersFollow_fixed value
  | text draft => exact fun ms h => absurd h (by simp [Outline.fill, Toml.Value.form, Shape.toml])
  | list os => exact membersFollow_ofPositions names os fun _ => rfl
  | record os =>
    intro ms h
    have hrecord : ∀ w, Shape.toml.members? names ((Outline.record os).fill Toml.Value.form w) =
        some (fillEach Toml.Value.form w os) := fun w =>
      congrArg some (fillEach_eq_fillMembers Toml.Value.form w os).symm
    exact ⟨os, (gapsEach_eq_membersGaps os).le, Option.some.inj ((hrecord raw).symm.trans h),
      fun w _ => hrecord w⟩

/-- A value that is an empty table or array has no gap. -/
theorem fill_eq_of_empty {o : Toml.Value.Draft} {value : Toml.Value}
    (hvalue : value = .table [] ∨ value = .array []) (h : o.fill raw = value) (w : List Char) :
    o.fill w = value := by
  cases o with
  | fixed value => exact h
  | text draft => rcases hvalue with rfl | rfl <;> exact absurd h Toml.Value.noConfusion
  | list os =>
    cases os with
    | nil => exact h
    | cons o os =>
      rcases hvalue with rfl | rfl
      · exact absurd h Toml.Value.noConfusion
      · exact absurd (Toml.Value.array.inj h) (List.cons_ne_nil _ _)
  | record os =>
    cases os with
    | nil => exact h
    | cons o os =>
      rcases hvalue with rfl | rfl
      · exact absurd (Toml.Value.table.inj h) (List.cons_ne_nil _ _)
      · exact absurd h Toml.Value.noConfusion

/-- A choice in TOML is a text, or a table of one member that is empty. -/
theorem choice?_toml_table {ms : List (String × Toml.Value)} {name : String} :
    Shape.toml.choice? (.table ms) = some name ↔
      ∃ value, (value = .table [] ∨ value = .array []) ∧ ms = [(name, value)] := by
  constructor
  · intro h
    rcases ms with _ | ⟨⟨key, value⟩, _ | ⟨m, ms⟩⟩
    · exact absurd h (by simp [Shape.toml])
    · rcases value with _ | _ | _ | _ | _ | items | members
      case array =>
        cases items with
        | nil => exact ⟨_, .inr rfl, by rw [← Option.some.inj h]⟩
        | cons => exact absurd h (by simp [Shape.toml])
      case table =>
        cases members with
        | nil => exact ⟨_, .inl rfl, by rw [← Option.some.inj h]⟩
        | cons => exact absurd h (by simp [Shape.toml])
      all_goals exact absurd h (by simp [Shape.toml])
    · exact absurd h (by simp [Shape.toml])
  · rintro ⟨value, rfl | rfl, rfl⟩ <;> rfl

/-- TOML reads the texts with the word in them. -/
theorem text?_follows_toml : Follows Toml.Value.form fits raw Gapped.text Shape.toml.text? :=
  follows_of_text (fun d _ h => ⟨d, le_rfl, Option.some.inj h, fun _ _ => rfl⟩) (fun _ => rfl)
    (fun _ => rfl)

/-- The readers of TOML follow gaps. -/
theorem Shape.follows_toml : Shape.toml.Follows Toml.Value.form fits raw where
  members names o := membersFollow_toml fits raw names o
  text := text?_follows_toml fits raw
  optionalText := follows_of_text
    (fun d x h => ⟨some d, le_rfl, Option.some.inj h, fun _ _ => rfl⟩) (fun _ => rfl)
    (fun _ => rfl)
  texts := by
    intro o xs h
    cases o with
    | fixed value => exact follows_fixed h _
    | text draft => exact absurd h (by simp [Outline.fill, Toml.Value.form, Shape.toml])
    | record os => exact absurd h (by simp [Outline.fill, Toml.Value.form, Shape.toml])
    | list os =>
      exact follows_items (text?_follows_toml fits raw) os h
  bool := follows_of_plain (fun _ => rfl) (fun _ => rfl) (fun _ => rfl) _
  natural := follows_of_plain (fun _ => rfl) (fun _ => rfl) (fun _ => rfl) _
  optionalNatural := follows_of_plain (fun _ => rfl) (fun _ => rfl) (fun _ => rfl) _
  choice := by
    intro o name h
    cases o with
    | fixed value => exact follows_fixed h _
    | text draft => exact ⟨draft, le_rfl, Option.some.inj h, fun _ _ => rfl⟩
    | list os => exact absurd h (by simp [Outline.fill, Toml.Value.form, Shape.toml])
    | record os =>
      obtain ⟨value, hvalue, hms⟩ := choice?_toml_table.mp h
      rcases os with _ | ⟨⟨key, o⟩, _ | ⟨m, os⟩⟩
      · exact absurd hms (List.cons_ne_nil _ _).symm
      · obtain ⟨hm, -⟩ := List.cons.inj hms
        obtain ⟨rfl, ho⟩ := Prod.mk.inj hm
        refine ⟨.whole key.toList, Nat.zero_le _, String.ofList_toList, fun w _ => ?_⟩
        refine (choice?_toml_table.mpr ⟨value, hvalue, ?_⟩).trans
          (congrArg some String.ofList_toList.symm)
        exact congrArg (fun v => [(key, v)]) (fill_eq_of_empty raw hvalue ho w)
      · exact absurd (List.cons.inj hms).2 (List.cons_ne_nil _ _)

end

/-! ## JSON -/

section

open Json

variable {word : List Char} (hword : ∀ c ∈ '$' :: word, Quoted.IsPlain c)

include hword

/-- A literal with a gap names a text with a gap. -/
theorem textOf?_draft (d : Draft) {s : String} (h : textOf? (d.fill ('$' :: word)) = some s) :
    ∃ y : Draft, y.gaps ≤ d.gaps ∧ Gapped.text.fill ('$' :: word) y = s ∧
      ∀ w, (∀ c ∈ w, Quoted.IsPlain c) → textOf? (d.fill w) = some (Gapped.text.fill w y) := by
  obtain ⟨x, hx, rfl⟩ := Option.map_eq_some_iff.mp h
  obtain ⟨y, hgaps, rfl, hfill⟩ := Quoted.decode_draft hword hx
  exact ⟨y, hgaps, rfl, fun w hw => congrArg (Option.map String.ofList) (hfill w hw)⟩

/-- JSON reads the texts with any plain word in them. -/
theorem text?_follows_json : Follows Tree.form (fun w => ∀ c ∈ w, Quoted.IsPlain c) ('$' :: word)
    Gapped.text Shape.jsonText? :=
  follows_of_text (fun d _ h => textOf?_draft hword d h) (fun _ => rfl) (fun _ => rfl)

omit hword in
/-- The name of a member with the member. -/
def memberOf? (m : List Char × Tree) : Option (String × Tree) :=
  (textOf? m.1).map fun name => (name, m.2)

omit hword in
/-- The names of members have no gaps. -/
theorem memberOf?_fillMembers (raw : List Char) (os : List (List Char × Outline Tree (List Char)))
    {ms : List (String × Tree)}
    (h : (Outline.fillMembers Tree.form raw os).mapM memberOf? = some ms) :
    ∃ os' : List (String × Outline Tree (List Char)), gapsEach os' = Outline.membersGaps os ∧
      ∀ w, (Outline.fillMembers Tree.form w os).mapM memberOf? =
        some (fillEach Tree.form w os') := by
  induction os generalizing ms with
  | nil => exact ⟨[], rfl, fun _ => rfl⟩
  | cons m os ih =>
    simp only [Outline.fillMembers, List.mapM_cons, Option.bind_eq_bind, Option.bind_eq_some_iff,
      memberOf?, Option.map_eq_some_iff] at h
    obtain ⟨_, ⟨name, hname, rfl⟩, ms', hms', -⟩ := h
    obtain ⟨os', hgaps, hfill⟩ := ih hms'
    refine ⟨(name, m.2) :: os', congrArg (m.2.gaps + ·) hgaps, fun w => ?_⟩
    rw [Outline.fillMembers, List.mapM_cons, memberOf?, hname, Option.map_some, hfill]
    rfl

omit hword in
/-- JSON finds the same members with every word in the gaps. -/
theorem membersFollow_json (fits : List Char → Prop) (raw : List Char) (names : List String)
    (o : Outline Tree (List Char)) :
    MembersFollow Tree.form fits raw (Shape.json.members? names) o := by
  cases o with
  | fixed value => exact membersFollow_fixed value
  | text draft => exact fun ms h => absurd h (by simp [Outline.fill, Tree.form, Shape.json])
  | list os =>
    intro ms h
    have hlength : ∀ w, (Outline.fillItems Tree.form w os).length = os.length := fun w => by
      rw [Outline.fillItems_eq_map, List.length_map]
    by_cases hle : os.length ≤ names.length
    · refine membersFollow_ofPositions names os (fun w => ?_) ms h
      exact if_pos ((hlength w).symm ▸ hle)
    · have hnone : Shape.json.members? names ((Outline.list os).fill Tree.form raw) = none :=
        if_neg ((hlength raw).symm ▸ hle)
      exact absurd (hnone.symm.trans h) (Option.some_ne_none ms).symm
  | record os =>
    intro ms h
    obtain ⟨os', hgaps, hfill⟩ := memberOf?_fillMembers raw os h
    exact ⟨os', hgaps.le, Option.some.inj ((hfill raw).symm.trans h), fun w _ => hfill w⟩

omit hword in
/-- A choice in JSON is a text, or an object of one member that is null. -/
theorem choice?_json_object {ms : List (List Char × Tree)} {name : String} :
    Shape.json.choice? (.object ms) = some name ↔
      ∃ literal, ms = [(literal, .null)] ∧ textOf? literal = some name := by
  constructor
  · intro h
    rcases ms with _ | ⟨⟨literal, value⟩, _ | ⟨m, ms⟩⟩
    · exact absurd h (by simp [Shape.json])
    · cases value with
      | null => exact ⟨literal, rfl, h⟩
      | _ => exact absurd h (by simp [Shape.json])
    · exact absurd h (by simp [Shape.json])
  · rintro ⟨literal, rfl, h⟩
    exact h

omit hword in
/-- A value that is null has no gap. -/
theorem fill_eq_null {raw : List Char} {o : Outline Tree (List Char)}
    (h : o.fill Tree.form raw = .null) (w : List Char) : o.fill Tree.form w = .null := by
  cases o with
  | fixed value => exact h
  | _ => exact absurd h Tree.noConfusion

/-- The readers of JSON follow gaps. -/
theorem Shape.follows_json :
    Shape.json.Follows Tree.form (fun w => ∀ c ∈ w, Quoted.IsPlain c) ('$' :: word) where
  members names o := membersFollow_json _ _ names o
  text := text?_follows_json hword
  optionalText := by
    refine follows_of_text (fun d x h => ?_) (fun _ => rfl) (fun _ => rfl)
    obtain ⟨s, hs, rfl⟩ := Option.map_eq_some_iff.mp h
    obtain ⟨y, hgaps, rfl, hfill⟩ := textOf?_draft hword d hs
    exact ⟨some y, hgaps, rfl, fun w hw => congrArg (Option.map some) (hfill w hw)⟩
  texts := by
    intro o xs h
    cases o with
    | fixed value => exact follows_fixed h _
    | text draft => exact absurd h (by simp [Outline.fill, Tree.form, Shape.json])
    | record os => exact absurd h (by simp [Outline.fill, Tree.form, Shape.json])
    | list os => exact follows_items (text?_follows_json hword) os h
  bool := follows_of_plain (fun _ => rfl) (fun _ => rfl) (fun _ => rfl) _
  natural := follows_of_plain (fun _ => rfl) (fun _ => rfl) (fun _ => rfl) _
  optionalNatural := follows_of_plain (fun _ => rfl) (fun _ => rfl) (fun _ => rfl) _
  choice := by
    intro o name h
    cases o with
    | fixed value => exact follows_fixed h _
    | text draft => exact textOf?_draft hword draft h
    | list os => exact absurd h (by simp [Outline.fill, Tree.form, Shape.json])
    | record os =>
      obtain ⟨literal, hms, hname⟩ := choice?_json_object.mp h
      rcases os with _ | ⟨⟨key, o⟩, _ | ⟨m, os⟩⟩
      · exact absurd hms (List.cons_ne_nil _ _).symm
      · obtain ⟨hm, -⟩ := List.cons.inj hms
        obtain ⟨rfl, ho⟩ := Prod.mk.inj hm
        refine ⟨.whole name.toList, Nat.zero_le _, String.ofList_toList, fun w _ => ?_⟩
        refine (choice?_json_object.mpr ⟨key, ?_, hname⟩).trans
          (congrArg some String.ofList_toList.symm)
        exact congrArg (fun v => [(key, v)]) (fill_eq_null ho w)
      · exact absurd (List.cons.inj hms).2 (List.cons_ne_nil _ _)

end

end Repertoire
