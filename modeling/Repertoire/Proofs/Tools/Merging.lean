import Mathlib.Data.List.Perm.Basic
import Repertoire.Proofs.Json.Members
import Repertoire.Proofs.Manifest.ArgumentKeys
import Repertoire.Proofs.Text.Cut
import Repertoire.Tools.Arguments

/-!
# Named values merged over defaults

The text of named arguments is put together from parts: one for each declared argument in its order,
which is the value given under its key or else its default, and one for each value under a key that
is not declared, in the order given. Parts without text are left out.

Named values are the members of an object, so their keys are distinct, while a tool may declare a
key twice. Nothing decides the text but what stands under each declared key and the order of the
other values, so that members with declared keys may stand anywhere among them.
-/

namespace Repertoire

open Repertoire.Json

namespace ToolArguments

/-! ## Parts -/

/-- A part of merged arguments: a value given under a key, or the default of a declared one. -/
inductive Part where
  | given (key : String) (value : Value)
  | byDefault (arg : ToolArg)

namespace Part

/-- The text of a part. -/
def text : Part → String
  | .given _ v => valueText v
  | .byDefault a => a.value

/-- The key and the value of a part that was given. -/
def given? : Part → Option (String × Value)
  | .given key v => some (key, v)
  | .byDefault _ => Option.none

end Part

/-- What stands for a declared argument: the value under its key if there is one, and its default
otherwise. -/
inductive Fills (values : List (String × Value)) (a : ToolArg) : Part → Prop
  | given {v : Value} (h : (a.key, v) ∈ values) : Fills values a (.given a.key v)
  | byDefault (h : a.key ∉ values.map Prod.fst) : Fills values a (.byDefault a)

/-- The values under keys that a tool does not declare, in their order. -/
def extras (t : Tool) (values : List (String × Value)) : List (String × Value) :=
  values.filter fun p => p.1 ∉ t.argKeys

/-- The part for a declared argument. -/
def partFor (values : List (String × Value)) (a : ToolArg) : Part :=
  match values.find? fun p => p.1 = a.key with
  | some (_, v) => .given a.key v
  | Option.none => .byDefault a

/-- All parts of merged arguments. -/
def parts (t : Tool) (values : List (String × Value)) : List Part :=
  t.args.map (partFor values) ++ (extras t values).map fun p => .given p.1 p.2

variable {t : Tool} {values values' : List (String × Value)}

/-- What stands for a declared argument is found among the values. -/
theorem fills_partFor (values : List (String × Value)) (a : ToolArg) :
    Fills values a (partFor values a) := by
  rw [partFor]
  split
  · rename_i key v hfound
    have hkey : key = a.key := by simpa using List.find?_some hfound
    exact .given (hkey ▸ List.mem_of_find?_eq_some hfound)
  · rename_i hfound
    refine .byDefault fun hmem => ?_
    obtain ⟨p, hp, hkey⟩ := List.mem_map.mp hmem
    simpa [hkey] using List.find?_eq_none.mp hfound p hp

/-- The text of a declared argument is that of its part. -/
theorem declaredText_eq (values : List (String × Value)) (a : ToolArg) :
    declaredText values a = (partFor values a).text := by
  change (match values.find? fun p => p.1 = a.key with
    | some (_, v) => valueText v
    | Option.none => a.value) = _
  rw [partFor]
  cases values.find? fun p => p.1 = a.key <;> rfl

/-- The values that are not declared are the extra ones. -/
theorem undeclared_eq (t : Tool) (values : List (String × Value)) :
    undeclared t values = extras t values := by
  refine List.filter_congr fun p _ => ?_
  rw [Bool.eq_iff_iff, Option.isNone_iff_eq_none, decide_eq_true_eq]
  exact t.arg?_eq_none_iff p.1

/-- The texts of named values are those of the parts. -/
theorem texts_eq (t : Tool) (values : List (String × Value)) :
    texts t values = (parts t values).map Part.text := by
  rw [texts, undeclared_eq, parts, List.map_append, List.map_map, List.map_map]
  congr 1
  exact List.map_congr_left fun a _ => declaredText_eq values a

/-- The text of named values is that of the parts that have one, with single blanks between them. -/
theorem render_named (t : Tool) (values : List (String × Value)) :
    (named values).render t =
      " ".intercalate (((parts t values).map Part.text).filter (· ≠ "")) := by
  rw [render, Text.joinWith_eq_intercalate, texts_eq]
  congr 1
  refine List.filter_congr fun s _ => ?_
  rw [Bool.eq_iff_iff]
  simp

/-! ## What is given -/

/-- The parts that were given for declared arguments are what is found under their keys. -/
theorem given_declared (args : List ToolArg) (values : List (String × Value)) :
    (args.map (partFor values)).filterMap Part.given? =
      (args.map ToolArg.key).filterMap fun key => values.find? fun p => p.1 = key := by
  rw [List.filterMap_map, List.filterMap_map]
  refine List.filterMap_congr fun a _ => ?_
  rw [Function.comp_apply, Function.comp_apply, partFor]
  cases hfound : values.find? fun p => p.1 = a.key with
  | none => rfl
  | some p =>
    have hkey : p.1 = a.key := by simpa using List.find?_some hfound
    rw [← hkey]
    rfl

/-- All parts that were given, where keys are declared once: each value is one of them, once. -/
theorem given_parts (h : (values.map Prod.fst).Nodup) (hkeys : t.argKeys.Nodup) :
    ((parts t values).filterMap Part.given?).Perm values := by
  have hextras : ((extras t values).map fun p => Part.given p.1 p.2).filterMap Part.given? =
      extras t values := by
    rw [List.filterMap_map]
    exact List.filterMap_some
  rw [parts, List.filterMap_append, given_declared, hextras]
  have hdeclared : (t.argKeys.filterMap fun key => values.find? fun p => p.1 = key).Perm
      (values.filter fun p => p.1 ∈ t.argKeys) := by
    refine (List.perm_ext_iff_of_nodup ?_ (h.of_map.filter _)).mpr fun p => ?_
    · refine hkeys.filterMap fun key key' p hp hp' => ?_
      rw [Option.mem_def, find?_name_eq_some_iff h] at hp hp'
      exact hp.2.symm.trans hp'.2
    · simp only [List.mem_filterMap, find?_name_eq_some_iff h, List.mem_filter, decide_eq_true_eq]
      constructor
      · rintro ⟨key, hkey, hp, rfl⟩
        exact ⟨hp, hkey⟩
      · rintro ⟨hp, hkey⟩
        exact ⟨p.1, hkey, hp, rfl⟩
  have hsplit := List.filter_append_perm (fun p : String × Value => decide (p.1 ∈ t.argKeys)) values
  simp only [← decide_not] at hsplit
  exact (hdeclared.append_right _).trans hsplit

/-! ## What does not matter -/

/-- Only what stands for declared arguments and the texts of the others decide the text. -/
theorem render_congr (hdeclared : ∀ a ∈ t.args, (partFor values a).text = (partFor values' a).text)
    (hextras : ((extras t values).map fun p => valueText p.2).filter (· ≠ "") =
      ((extras t values').map fun p => valueText p.2).filter (· ≠ "")) :
    (named values).render t = (named values').render t := by
  have htexts (values : List (String × Value)) : (parts t values).map Part.text =
      (t.args.map fun a => (partFor values a).text) ++
        (extras t values).map fun p => valueText p.2 := by
    rw [parts, List.map_append, List.map_map, List.map_map]
    rfl
  rw [render_named, render_named, htexts, htexts, List.filter_append, List.filter_append, hextras,
    List.map_congr_left hdeclared]

/-- The same value stands under a key in every order of values with distinct keys. -/
theorem partFor_of_perm (h : (values.map Prod.fst).Nodup) (hperm : values'.Perm values)
    (a : ToolArg) : partFor values' a = partFor values a := by
  have h' : (values'.map Prod.fst).Nodup := ((hperm.map Prod.fst).nodup_iff).mpr h
  have hfind : values'.find? (fun p => p.1 = a.key) = values.find? fun p => p.1 = a.key := by
    refine Option.ext fun p => ?_
    rw [find?_name_eq_some_iff h', find?_name_eq_some_iff h, hperm.mem_iff]
  rw [partFor, partFor, hfind]

/-- Values with declared keys may stand anywhere. -/
theorem render_of_perm (h : (values.map Prod.fst).Nodup) (hperm : values'.Perm values)
    (hextras : extras t values' = extras t values) :
    (named values').render t = (named values).render t :=
  render_congr (fun a _ => congrArg Part.text (partFor_of_perm h hperm a)) (by rw [hextras])

/-- An argument has its default where there is nothing under its key. -/
theorem partFor_of_not_mem {a : ToolArg} (h : a.key ∉ values.map Prod.fst) :
    partFor values a = .byDefault a := by
  have hfilled := fills_partFor values a
  generalize partFor values a = part at hfilled ⊢
  cases hfilled with
  | given hmem => exact absurd (List.mem_map_of_mem hmem) h
  | byDefault => rfl

/-- A value under the key of an argument stands for it where nothing else does. -/
theorem partFor_insert_self {front back : List (String × Value)} {a : ToolArg} {v : Value}
    (h : a.key ∉ (front ++ back).map Prod.fst) :
    partFor (front ++ (a.key, v) :: back) a = .given a.key v := by
  have hnew (w : Value) : (a.key, w) ∈ front ++ (a.key, v) :: back → w = v := by
    intro hmem
    rcases List.mem_append.mp hmem with hfront | hback
    · exact absurd (List.mem_map_of_mem (List.mem_append_left _ hfront)) h
    · rcases List.mem_cons.mp hback with heq | hback
      · exact congrArg Prod.snd heq
      · exact absurd (List.mem_map_of_mem (List.mem_append_right _ hback)) h
  have hfilled := fills_partFor (front ++ (a.key, v) :: back) a
  generalize partFor (front ++ (a.key, v) :: back) a = part at hfilled ⊢
  cases hfilled with
  | given hmem => rw [hnew _ hmem]
  | byDefault hmissing =>
    exact absurd (List.mem_map_of_mem (List.mem_append_right _ List.mem_cons_self)) hmissing

/-- A value under another key does not stand for an argument. -/
theorem partFor_insert {front back : List (String × Value)} {a : ToolArg} {p : String × Value}
    (h : p.1 ≠ a.key) : partFor (front ++ p :: back) a = partFor (front ++ back) a := by
  have hfind : (front ++ p :: back).find? (fun q => q.1 = a.key) =
      (front ++ back).find? fun q => q.1 = a.key := by
    rw [List.find?_append, List.find?_append, List.find?_cons_of_neg (by simpa using h)]
  rw [partFor, partFor, hfind]

/-- A value without text under a key that is not declared may be left out. -/
theorem render_insert_extra {front back : List (String × Value)} {p : String × Value}
    (hkey : p.1 ∉ t.argKeys) (htext : valueText p.2 = "") :
    (named (front ++ p :: back)).render t = (named (front ++ back)).render t := by
  refine render_congr (fun a ha => ?_) ?_
  · have hne : p.1 ≠ a.key := fun heq => hkey (heq ▸ List.mem_map_of_mem ha)
    rw [partFor_insert hne]
  · simp [extras, hkey, htext]

/-- The value of a declared key may be left out where it has the text of its default. -/
theorem render_insert_default {front back : List (String × Value)} {a : ToolArg} {v : Value}
    (hkeys : t.argKeys.Nodup) (ha : a ∈ t.args) (hnew : a.key ∉ (front ++ back).map Prod.fst)
    (htext : valueText v = a.value) :
    (named (front ++ (a.key, v) :: back)).render t = (named (front ++ back)).render t := by
  refine render_congr (fun b hb => ?_) ?_
  · by_cases heq : a.key = b.key
    · obtain rfl : a = b := List.inj_on_of_nodup_map hkeys ha hb heq
      rw [partFor_insert_self hnew, partFor_of_not_mem hnew]
      exact htext
    · rw [partFor_insert heq]
  · have hdeclared : a.key ∈ t.argKeys := List.mem_map_of_mem ha
    simp [extras, hdeclared]

/-- How named values are merged over the arguments that a tool declares. The text is that of the
parts: what stands for each declared argument, and then the extra values. Where the tool declares
every key once, as every tool does that was read from TOML, the parts hold each value once, and the
text of a default may be given or left out. The values of declared keys may stand anywhere, and
extra values without text, null among them, may be left out. -/
structure Merges (t : Tool) (values : List (String × Value)) : Prop where
  rendered : ∃ declared : List Part, List.Forall₂ (Fills values) t.args declared ∧
    let all := declared ++ (extras t values).map fun p => Part.given p.1 p.2
    (named values).render t = " ".intercalate ((all.map Part.text).filter (· ≠ "")) ∧
      (t.argKeys.Nodup → (all.filterMap Part.given?).Perm values)
  reordered : ∀ values' : List (String × Value), values'.Perm values →
    extras t values' = extras t values → (named values').render t = (named values).render t
  padded : ∀ (front back : List (String × Value)) (key : String) (v : Value),
    values = front ++ back → key ∉ values.map Prod.fst → key ∉ t.argKeys →
      v = .null ∨ valueText v = "" →
        (named (front ++ (key, v) :: back)).render t = (named values).render t
  defaulted : t.argKeys.Nodup → ∀ (front back : List (String × Value)) (a : ToolArg) (v : Value),
    values = front ++ back → a ∈ t.args → a.key ∉ values.map Prod.fst → valueText v = a.value →
      (named (front ++ (a.key, v) :: back)).render t = (named values).render t
  declaredOnce : ∀ content m, StructuredManifest.parse content = .ok m → t ∈ m.tools →
    t.argKeys.Nodup

/-- The members of an object are merged over the arguments of every tool. -/
theorem render_merges (t : Tool) (values : List (String × Value))
    (h : (values.map Prod.fst).Nodup) : Merges t values where
  rendered := by
    refine ⟨t.args.map (partFor values), ?_, render_named t values, given_parts h⟩
    rw [List.forall₂_map_right_iff, List.forall₂_same]
    exact fun a _ => fills_partFor values a
  reordered := fun _ hperm hextras => render_of_perm h hperm hextras
  padded := by
    rintro front back key v rfl - hkey (rfl | htext)
    · exact render_insert_extra hkey rfl
    · exact render_insert_extra hkey htext
  defaulted := by
    rintro hkeys front back a v rfl ha hnew htext
    exact render_insert_default hkeys ha hnew htext
  declaredOnce := fun _ _ hparse ht => StructuredManifest.nodup_parse hparse t ht

/-- A tool with two arguments. -/
def forecast : Tool :=
  ⟨"forecast", "Tells the weather.", "shell", "weather", [⟨"city", "Paris"⟩, ⟨"units", "metric"⟩]⟩

/-- Values for one of them, and two more, one without text. -/
def givenValues : List (String × Value) :=
  [("hourly", .bool true), ("units", .string "imperial"), ("note", .null)]

/-- The default comes first, then the value of the second argument, and then the extra one. -/
theorem render_merges_forecast :
    (givenValues.map Prod.fst).Nodup ∧ Merges forecast givenValues ∧
      (named givenValues).render forecast = "Paris imperial true" := by
  have hdistinct : (givenValues.map Prod.fst).Nodup := by decide
  exact ⟨hdistinct, render_merges forecast givenValues hdistinct, by decide +kernel⟩

end ToolArguments

end Repertoire
