import Mathlib.Data.List.Basic
import Mathlib.Data.Nat.Notation
import Repertoire.Proofs.Text.Cut
import Repertoire.Settings.Placeholder

/-!
# Placeholders from left to right

A text is taken apart into placeholders, what stands before each of them, and what stands behind the
last one. There is one way to do that if the opening mark of a placeholder is always the first one
in the text that is left, and the closing mark the first one behind it. Replacing placeholders puts
a replacement in the place of each and touches nothing else, so that what is put in is never looked
at again.

Two texts can be worked on apart and joined afterwards, unless a placeholder reaches over the seam:
because the first text opens one that it does not close, or because the opening mark itself is
divided between the texts.
-/

namespace Repertoire.Placeholder

open Repertoire.Text

variable {lookup : String → Option String} {text inner name out a b : List Char}
  {fallback : Option (List Char)}

/-- A placeholder as it is written. -/
def written (inner : List Char) : List Char := opening ++ inner ++ closing

/-! ## What a placeholder is replaced by -/

/-- What a placeholder holds is divided into a name and a fallback at the first mark, if there is
one. -/
inductive Divides (inner : List Char) : List Char → Option (List Char) → Prop
  | bare (h : ¬ fallbackMark <:+: inner) : Divides inner inner none
  | marked {name fallback : List Char} (h : inner = name ++ fallbackMark ++ fallback)
      (hfirst : ¬ fallbackMark <:+: name) : Divides inner name (some fallback)

/-- What a placeholder is replaced by: the value of its name, or its fallback if the name has no
value. A placeholder without a name stays, and so does one with neither a value nor a fallback. -/
inductive Resolves (lookup : String → Option String) (inner : List Char) : List Char → Prop
  | value {name : List Char} {fallback : Option (List Char)} {value : String}
      (h : Divides inner name fallback) (hname : name ≠ [])
      (hvalue : lookup (String.ofList name) = some value) : Resolves lookup inner value.toList
  | fallback {name fallback : List Char} (h : Divides inner name (some fallback))
      (hname : name ≠ []) (hvalue : lookup (String.ofList name) = none) :
      Resolves lookup inner fallback
  | nameless {fallback : Option (List Char)} (h : Divides inner [] fallback) :
      Resolves lookup inner (written inner)
  | unknown {name : List Char} (h : Divides inner name none)
      (hvalue : lookup (String.ofList name) = none) : Resolves lookup inner (written inner)

/-- A placeholder is divided where the library divides it. -/
theorem divides_iff : Divides inner name fallback ↔ cutFallback inner = (name, fallback) := by
  have hmark : ':' ∉ ['-'] := by decide
  rw [cutFallback]
  constructor
  · rintro (h | ⟨h, hfirst⟩)
    · rw [cutAt?_eq_none_iff.mpr h]
    · rw [fallbackMark, (cutAt?_eq_some_iff hmark).mpr ⟨h, hfirst⟩]
  · intro h
    rcases hcut : cutAt? fallbackMark inner with _ | ⟨front, back⟩
    · rw [hcut] at h
      obtain ⟨rfl, rfl⟩ := Prod.mk.inj h
      exact .bare (cutAt?_eq_none_iff.mp hcut)
    · rw [hcut] at h
      obtain ⟨rfl, rfl⟩ := Prod.mk.inj h
      obtain ⟨hinner, hfirst⟩ := (cutAt?_eq_some_iff hmark).mp hcut
      exact .marked hinner hfirst

/-- What replaces a placeholder that is divided into a name and a fallback: the first that there is
of a value, the fallback and the placeholder itself. -/
theorem replacement_eq (h : Divides inner name fallback) :
    replacement lookup inner =
      if name = [] then written inner
      else ((lookup (String.ofList name)).map String.toList).getD
        (fallback.getD (written inner)) := by
  simp only [replacement, divides_iff.mp h, List.isEmpty_iff]
  rcases lookup (String.ofList name) with _ | value
  · cases fallback <;> rfl
  · rfl

/-- A placeholder has one replacement, and that is what the library puts in its place. -/
theorem resolves_iff : Resolves lookup inner out ↔ replacement lookup inner = out := by
  constructor
  · rintro (⟨h, hname, hvalue⟩ | ⟨h, hname, hvalue⟩ | h | ⟨h, hvalue⟩)
    · rw [replacement_eq h, if_neg hname, hvalue, Option.map_some, Option.getD_some]
    · rw [replacement_eq h, if_neg hname, hvalue, Option.map_none, Option.getD_none,
        Option.getD_some]
    · rw [replacement_eq h, if_pos rfl]
    · rw [replacement_eq h, hvalue, Option.map_none, Option.getD_none, Option.getD_none, ite_self]
  · rintro rfl
    rcases hcut : cutFallback inner with ⟨name, fallback⟩
    have h := divides_iff.mpr hcut
    rw [replacement_eq h]
    by_cases hname : name = []
    · rw [if_pos hname]
      exact .nameless (hname ▸ h)
    · rw [if_neg hname]
      rcases hvalue : lookup (String.ofList name) with _ | value
      · cases fallback with
        | none => exact .unknown h hvalue
        | some fallback => exact .fallback h hname hvalue
      · exact .value h hname hvalue

/-! ## Texts taken apart -/

/-- A placeholder in a text, with what stands before it. -/
structure Segment where
  before : List Char
  inner : List Char

/-- A text taken apart into placeholders and what stands behind the last of them. -/
structure Factoring where
  segments : List Segment
  last : List Char

namespace Factoring

/-- The text with something in the place of each placeholder. -/
def fill (f : Factoring) (part : List Char → List Char) : List Char :=
  f.segments.flatMap (fun s => s.before ++ part s.inner) ++ f.last

/-- A text is taken apart from left to right: nothing that stands before a placeholder opens one,
no placeholder holds what closes it, and behind the last placeholder nothing that is opened is
closed. -/
structure Factors (f : Factoring) (text : List Char) : Prop where
  text_eq : f.fill written = text
  unopened : ∀ s ∈ f.segments, ¬ opening <:+: s.before
  unclosed : ∀ s ∈ f.segments, ¬ closing <:+: s.inner
  ended : ∀ before rest, f.last = before ++ opening ++ rest → ¬ closing <:+: rest

end Factoring

/-- Something is opened in a text that nothing closes. -/
def LeavesOpen (text : List Char) : Prop :=
  ∃ before rest, text = before ++ opening ++ rest ∧ ¬ closing <:+: rest

variable {f g : Factoring} {s : Segment} {rest : List Segment} {last : List Char}

open Factoring

/-- An opening mark is cut at where it comes first. -/
theorem cutAt?_opening {before after : List Char} :
    cutAt? opening text = some (before, after) ↔
      text = before ++ opening ++ after ∧ ¬ opening <:+: before :=
  cutAt?_eq_some_iff (by decide)

/-- A closing mark is cut at where it comes first. -/
theorem cutAt?_closing {before after : List Char} :
    cutAt? closing text = some (before, after) ↔
      text = before ++ closing ++ after ∧ ¬ closing <:+: before :=
  cutAt?_eq_some_iff (by decide)

/-- Nothing that is opened in a text is closed exactly when this holds for what is opened first. -/
theorem ended_iff :
    (∀ before rest, text = before ++ opening ++ rest → ¬ closing <:+: rest) ↔
      ∀ before rest, cutAt? opening text = some (before, rest) → cutAt? closing rest = none := by
  constructor
  · intro h before rest hcut
    exact cutAt?_eq_none_iff.mpr (h before rest (eq_of_cutAt? hcut))
  · rintro h before rest rfl hclosing
    rcases hcut : cutAt? opening (before ++ opening ++ rest) with _ | ⟨front, back⟩
    · exact cutAt?_eq_none_iff.mp hcut ⟨before, rest, rfl⟩
    · obtain ⟨hsame, hfront⟩ := cutAt?_opening.mp hcut
      have hback : rest <:+ back := suffix_of_first (by decide) hfront hsame
      exact cutAt?_eq_none_iff.mp (h front back hcut) (hclosing.trans hback.isInfix)

/-! ## There is one way to take a text apart -/

/-- A text without a placeholder is all that stands behind the last one. -/
theorem factors_nil : Factors ⟨[], last⟩ text ↔ last = text ∧
    ∀ before rest, cutAt? opening text = some (before, rest) → cutAt? closing rest = none := by
  rw [← ended_iff]
  constructor
  · rintro ⟨rfl, -, -, hended⟩
    exact ⟨rfl, hended⟩
  · rintro ⟨rfl, hended⟩
    exact ⟨rfl, by simp, by simp, hended⟩

/-- A text with a placeholder is cut at its opening and its closing mark, and what is left is taken
apart in the same way. -/
theorem factors_cons : Factors ⟨s :: rest, last⟩ text ↔ ∃ behind after,
    cutAt? opening text = some (s.before, behind) ∧ cutAt? closing behind = some (s.inner, after) ∧
      Factors ⟨rest, last⟩ after := by
  constructor
  · rintro ⟨htext, hopened, hclosed, hended⟩
    rw [List.forall_mem_cons] at hopened hclosed
    refine ⟨s.inner ++ closing ++ fill ⟨rest, last⟩ written, fill ⟨rest, last⟩ written,
      cutAt?_opening.mpr ⟨?_, hopened.1⟩, cutAt?_closing.mpr ⟨rfl, hclosed.1⟩,
      rfl, hopened.2, hclosed.2, hended⟩
    rw [← htext]
    simp [fill, written]
  · rintro ⟨behind, after, hopen, hclose, htext, hopened, hclosed, hended⟩
    obtain ⟨rfl, hbefore⟩ := cutAt?_opening.mp hopen
    obtain ⟨rfl, hinner⟩ := cutAt?_closing.mp hclose
    refine ⟨?_, List.forall_mem_cons.mpr ⟨hbefore, hopened⟩,
      List.forall_mem_cons.mpr ⟨hinner, hclosed⟩, hended⟩
    rw [← htext]
    simp [fill, written]

/-- Behind a placeholder there is less text left. -/
theorem length_lt_of_cuts {before behind after : List Char}
    (hopen : cutAt? opening text = some (before, behind))
    (hclose : cutAt? closing behind = some (inner, after)) : after.length < text.length := by
  rw [(cutAt?_opening.mp hopen).1, (cutAt?_closing.mp hclose).1]
  simp only [List.length_append, opening, closing, List.length_cons, List.length_nil]
  omega

/-- Every text can be taken apart. -/
theorem exists_factors (text : List Char) : ∃ f : Factoring, f.Factors text := by
  induction hlength : text.length using Nat.strongRecOn generalizing text with
  | ind n ih =>
    subst hlength
    by_cases hended : ∀ before rest, cutAt? opening text = some (before, rest) →
        cutAt? closing rest = none
    · exact ⟨⟨[], text⟩, factors_nil.mpr ⟨rfl, hended⟩⟩
    · push Not at hended
      obtain ⟨before, behind, hopen, hclose⟩ := hended
      obtain ⟨⟨inner, after⟩, hcut⟩ := Option.ne_none_iff_exists'.mp hclose
      obtain ⟨⟨rest, last⟩, hrest⟩ := ih after.length (length_lt_of_cuts hopen hcut) after rfl
      exact ⟨⟨⟨before, inner⟩ :: rest, last⟩,
        factors_cons.mpr ⟨behind, after, hopen, hcut, hrest⟩⟩

/-- A text can be taken apart in one way only. -/
theorem Factoring.Factors.unique (hf : f.Factors text) (hg : g.Factors text) : f = g := by
  obtain ⟨segments, last⟩ := f
  obtain ⟨segments', last'⟩ := g
  -- On the placeholders of one of the two. Both have the first opening mark, and the first closing
  -- one behind it.
  induction segments generalizing segments' text with
  | nil =>
    obtain ⟨rfl, hnone⟩ := factors_nil.mp hf
    cases segments' with
    | nil => rw [(factors_nil.mp hg).1]
    | cons s' rest' =>
      obtain ⟨behind, after, hopen, hclose, -⟩ := factors_cons.mp hg
      rw [hnone _ _ hopen] at hclose
      exact absurd hclose (Option.some_ne_none _).symm
  | cons s rest ih =>
    obtain ⟨behind, after, hopen, hclose, hrest⟩ := factors_cons.mp hf
    cases segments' with
    | nil =>
      rw [(factors_nil.mp hg).2 _ _ hopen] at hclose
      exact absurd hclose (Option.some_ne_none _).symm
    | cons s' rest' =>
      obtain ⟨behind', after', hopen', hclose', hrest'⟩ := factors_cons.mp hg
      rw [hopen] at hopen'
      obtain ⟨hbefore, rfl⟩ := Prod.mk.inj (Option.some.inj hopen')
      rw [hclose] at hclose'
      obtain ⟨hinner, rfl⟩ := Prod.mk.inj (Option.some.inj hclose')
      obtain ⟨rfl, rfl⟩ := Factoring.mk.inj (ih hrest rest' hrest')
      cases s
      cases s'
      simp_all

/-! ## Replacing -/

/-- A text without a placeholder stays as it is. -/
theorem replaceUpTo_of_none
    (h : ∀ before rest, cutAt? opening text = some (before, rest) → cutAt? closing rest = none)
    (n : ℕ) : replaceUpTo lookup n text = text := by
  cases n with
  | zero => rfl
  | succ n =>
    rw [replaceUpTo]
    cases hopen : cutAt? opening text with
    | none => rfl
    | some cut => simp only [h _ _ hopen]

/-- As many rounds as there are placeholders put a replacement in the place of each. -/
theorem replaceUpTo_eq_fill (h : f.Factors text) {n : ℕ} (hn : f.segments.length ≤ n) :
    replaceUpTo lookup n text = f.fill (replacement lookup) := by
  obtain ⟨segments, last⟩ := f
  induction segments generalizing text n with
  | nil =>
    obtain ⟨rfl, hnone⟩ := factors_nil.mp h
    exact replaceUpTo_of_none hnone n
  | cons s rest ih =>
    obtain ⟨behind, after, hopen, hclose, hrest⟩ := factors_cons.mp h
    cases n with
    | zero => simp at hn
    | succ n =>
      rw [replaceUpTo, hopen]
      simp only [hclose]
      rw [ih hrest (by simpa using hn)]
      simp [fill]

/-- There are no more placeholders than characters. -/
theorem Factoring.Factors.length_le (h : f.Factors text) : f.segments.length ≤ text.length := by
  obtain ⟨segments, last⟩ := f
  induction segments generalizing text with
  | nil => exact Nat.zero_le _
  | cons s rest ih =>
    obtain ⟨behind, after, hopen, hclose, hrest⟩ := factors_cons.mp h
    exact Nat.succ_le_of_lt (Nat.lt_of_le_of_lt (ih hrest) (length_lt_of_cuts hopen hclose))

/-- Replacing puts a replacement in the place of each placeholder. -/
theorem replaceChars_eq_fill (h : f.Factors text) :
    replaceChars lookup text = f.fill (replacement lookup) :=
  replaceUpTo_eq_fill h h.length_le

/-! ## Texts one after the other -/

namespace Factoring

/-- A text taken apart, with another text in front in which there is no placeholder. -/
def prepend (lead : List Char) (f : Factoring) : Factoring :=
  match f.segments with
  | [] => ⟨[], lead ++ f.last⟩
  | s :: rest => ⟨⟨lead ++ s.before, s.inner⟩ :: rest, f.last⟩

/-- Two texts taken apart, one after the other. -/
def append (f g : Factoring) : Factoring :=
  ⟨f.segments ++ (g.prepend f.last).segments, (g.prepend f.last).last⟩

/-- What is in front stays in front. -/
theorem fill_prepend (lead : List Char) (f : Factoring) (part : List Char → List Char) :
    (f.prepend lead).fill part = lead ++ f.fill part := by
  obtain ⟨_ | ⟨s, rest⟩, last⟩ := f
  · rfl
  · simp [prepend, fill]

/-- Placeholders are filled in each text on its own. -/
theorem fill_append (f g : Factoring) (part : List Char → List Char) :
    (f.append g).fill part = f.fill part ++ g.fill part := by
  have hfront : (g.prepend f.last).segments.flatMap (fun s => s.before ++ part s.inner) ++
      (g.prepend f.last).last = f.last ++ g.fill part := fill_prepend f.last g part
  simp only [append, fill, List.flatMap_append, List.append_assoc] at hfront ⊢
  rw [hfront]

end Factoring

/-- An opening mark is divided between two texts. -/
def Straddles (a b : List Char) : Prop := a.getLast? = some '$' ∧ b.head? = some '\x7b'

/-- An opening mark in two texts stands in the second one if there is none in the first and none is
divided between them. -/
theorem opening_behind {before rest : List Char} (ha : ¬ opening <:+: a) (hcut : ¬ Straddles a b)
    (h : a ++ b = before ++ opening ++ rest) :
    ∃ front, before = a ++ front ∧ b = front ++ opening ++ rest := by
  rw [List.append_assoc] at h
  rcases List.append_eq_append_iff.mp h with ⟨front, hbefore, hb⟩ | ⟨more, hsplit, hrest⟩
  · exact ⟨front, hbefore, by rw [hb, List.append_assoc]⟩
  · rcases more with _ | ⟨c, _ | ⟨d, more⟩⟩
    · exact ⟨[], by simp [hsplit], by simp [hrest]⟩
    · obtain ⟨rfl, hmark⟩ := List.cons.inj hrest
      obtain rfl : '\x7b' :: rest = b := hmark
      exact absurd ⟨by simp [hsplit], rfl⟩ hcut
    · obtain ⟨rfl, htail⟩ := List.cons.inj hrest
      obtain ⟨rfl, -⟩ := List.cons.inj htail
      exact absurd ⟨before, more, by simp [hsplit, opening]⟩ ha

/-- The first opening mark stays the first one behind a text that opens nothing. -/
theorem cutAt?_opening_append (ha : ¬ opening <:+: a) (hcut : ¬ Straddles a b) :
    cutAt? opening (a ++ b) =
      (cutAt? opening b).map fun (before, after) => (a ++ before, after) := by
  rcases hb : cutAt? opening b with _ | ⟨before, after⟩
  · rw [Option.map_none, cutAt?_eq_none_iff]
    rintro ⟨front, rest, hsame⟩
    obtain ⟨before, -, hmark⟩ := opening_behind ha hcut hsame.symm
    exact cutAt?_eq_none_iff.mp hb ⟨before, rest, hmark.symm⟩
  · obtain ⟨rfl, hbefore⟩ := cutAt?_opening.mp hb
    rw [Option.map_some, cutAt?_opening]
    refine ⟨by simp, ?_⟩
    rintro ⟨front, rest, hsame⟩
    have hseam : ¬ Straddles a before := fun ⟨hlast, hhead⟩ => hcut ⟨hlast, by simp [hhead]⟩
    obtain ⟨between, -, hmark⟩ := opening_behind ha hseam hsame.symm
    exact hbefore ⟨between, rest, hmark.symm⟩

/-- A text that opens nothing can be put in front of one that is taken apart. -/
theorem Factoring.Factors.prepend (hb : g.Factors b) (ha : ¬ opening <:+: a)
    (hcut : ¬ Straddles a b) : (g.prepend a).Factors (a ++ b) := by
  have hfirst := cutAt?_opening_append ha hcut
  obtain ⟨_ | ⟨s, rest⟩, last⟩ := g
  · obtain ⟨rfl, hnone⟩ := factors_nil.mp hb
    refine factors_nil.mpr ⟨rfl, fun before rest hopen => ?_⟩
    rw [hfirst, Option.map_eq_some_iff] at hopen
    obtain ⟨⟨front, back⟩, hopen, hout⟩ := hopen
    obtain ⟨rfl, rfl⟩ := Prod.mk.inj hout
    exact hnone front back hopen
  · obtain ⟨behind, after, hopen, hclose, hrest⟩ := factors_cons.mp hb
    refine factors_cons.mpr ⟨behind, after, ?_, hclose, hrest⟩
    rw [hfirst, hopen]
    rfl

/-- What is left of a text behind a placeholder leaves nothing open and divides no mark if the whole
does not. -/
theorem behind_placeholder {before after : List Char}
    (ha : ¬ LeavesOpen (before ++ written inner ++ after))
    (hcut : ¬ Straddles (before ++ written inner ++ after) b) :
    ¬ LeavesOpen after ∧ ¬ Straddles after b := by
  constructor
  · rintro ⟨front, rest, rfl, hrest⟩
    exact ha ⟨before ++ written inner ++ front, rest, by simp, hrest⟩
  · rintro ⟨hlast, hhead⟩
    exact hcut ⟨by simp [hlast], hhead⟩

/-- Texts that are taken apart can be put one after the other, unless a placeholder reaches over the
seam. -/
theorem Factoring.Factors.append (hf : f.Factors a) (hg : g.Factors b) (ha : ¬ LeavesOpen a)
    (hcut : ¬ Straddles a b) : (f.append g).Factors (a ++ b) := by
  obtain ⟨segments, last⟩ := f
  induction segments generalizing a with
  | nil =>
    obtain ⟨rfl, -⟩ := factors_nil.mp hf
    refine hg.prepend ?_ hcut
    rintro ⟨before, rest, hopen⟩
    exact ha ⟨before, rest, hopen.symm, hf.ended before rest hopen.symm⟩
  | cons s rest ih =>
    obtain ⟨behind, after, hopen, hclose, hrest⟩ := factors_cons.mp hf
    have hopen' := cutAt?_append_right (by decide) hopen b
    have hclose' := cutAt?_append_right (by decide) hclose b
    obtain ⟨rfl, -⟩ := cutAt?_opening.mp hopen
    obtain ⟨rfl, -⟩ := cutAt?_closing.mp hclose
    have hopened : ¬ LeavesOpen (s.before ++ written s.inner ++ after) := by
      simpa [written] using ha
    have hseam : ¬ Straddles (s.before ++ written s.inner ++ after) b := by
      simpa [written] using hcut
    obtain ⟨ha', hcut'⟩ := behind_placeholder hopened hseam
    exact factors_cons.mpr ⟨_, _, hopen', hclose', ih ha' hcut' hrest⟩

/-! ## The pass -/

/-- A placeholder has no name, or neither a value nor a fallback. -/
def Unresolved (lookup : String → Option String) (inner : List Char) : Prop :=
  (∃ fallback, Divides inner [] fallback) ∨
    ∃ name, Divides inner name none ∧ lookup (String.ofList name) = none

/-- A placeholder with neither a value nor a fallback stays as it is. -/
theorem replacement_of_unresolved (h : Unresolved lookup inner) :
    replacement lookup inner = written inner := by
  rcases h with ⟨fallback, h⟩ | ⟨name, h, hvalue⟩
  · exact resolves_iff.mp (.nameless h)
  · exact resolves_iff.mp (.unknown h hvalue)

/-- Placeholders are filled by what is put in their place. -/
theorem Factoring.fill_congr {part part' : List Char → List Char}
    (h : ∀ s ∈ f.segments, part s.inner = part' s.inner) : f.fill part = f.fill part' := by
  have hsegments : f.segments.map (fun s => s.before ++ part s.inner) =
      f.segments.map (fun s => s.before ++ part' s.inner) :=
    List.map_congr_left fun s hs => by rw [h s hs]
  rw [fill, fill, List.flatMap_def, List.flatMap_def, hsegments]

/-- What is asked of replacing the placeholders of a text in one pass from left to right. The text
is taken apart in one way, and each placeholder makes way for its replacement while all else stays.
No more rounds are needed than there are placeholders, and nothing changes if none of them has a
value or a fallback. -/
structure SinglePass (lookup : String → Option String) (text : String) : Prop where
  factors : ∃! f : Factoring, f.Factors text.toList
  passed : ∀ f : Factoring, f.Factors text.toList →
    (replace lookup text).toList = f.fill (replacement lookup)
  ends : ∀ f : Factoring, f.Factors text.toList → ∀ n, f.segments.length ≤ n →
    replaceUpTo lookup n text.toList = (replace lookup text).toList
  unchanged : ∀ f : Factoring, f.Factors text.toList →
    (∀ s ∈ f.segments, Unresolved lookup s.inner) → replace lookup text = text

/-- Placeholders are replaced in a single pass. -/
theorem singlePass (lookup : String → Option String) (text : String) : SinglePass lookup text := by
  have hreplace : (replace lookup text).toList = replaceChars lookup text.toList :=
    String.toList_ofList
  refine ⟨?_, fun f hf => ?_, fun f hf n hn => ?_, fun f hf hnone => ?_⟩
  · obtain ⟨f, hf⟩ := exists_factors text.toList
    exact ⟨f, hf, fun g hg => hg.unique hf⟩
  · rw [hreplace, replaceChars_eq_fill hf]
  · rw [hreplace, replaceChars_eq_fill hf, replaceUpTo_eq_fill hf hn]
  · apply String.toList_injective
    rw [hreplace, replaceChars_eq_fill hf, ← hf.text_eq]
    exact fill_congr fun s hs => replacement_of_unresolved (hnone s hs)

/-- Placeholders are replaced in a single pass from left to right, each by the value of its name,
its fallback or itself. Two texts can be worked on apart and joined afterwards, if the first leaves
nothing open and no opening mark is divided between them. -/
theorem replace_singlePass (lookup : String → Option String) :
    (∀ inner out, Resolves lookup inner out ↔ replacement lookup inner = out) ∧
      (∀ text, SinglePass lookup text) ∧
      ∀ a b : String, ¬ LeavesOpen a.toList → ¬ Straddles a.toList b.toList →
        replace lookup (a ++ b) = replace lookup a ++ replace lookup b := by
  refine ⟨fun inner out => resolves_iff, singlePass lookup, fun a b ha hcut => ?_⟩
  obtain ⟨f, hf⟩ := exists_factors a.toList
  obtain ⟨g, hg⟩ := exists_factors b.toList
  apply String.toList_injective
  simp only [replace, String.toList_ofList, String.toList_append]
  rw [replaceChars_eq_fill (hf.append hg ha hcut), replaceChars_eq_fill hf,
    replaceChars_eq_fill hg, fill_append]

/-- A text that ends in a closing mark leaves nothing open. -/
theorem not_leavesOpen_of_getLast? (h : text.getLast? = some '\x7d') : ¬ LeavesOpen text := by
  rintro ⟨before, rest, rfl, hrest⟩
  rcases List.eq_nil_or_concat' rest with rfl | ⟨rest, c, rfl⟩
  · simp [opening] at h
  · obtain rfl : c = '\x7d' := by simpa using h
    exact hrest (List.suffix_append rest closing).isInfix

/-- Variables of which one has a value that looks like a placeholder for the other. -/
def lookalike (name : String) : Option String :=
  if name = "A" then some "$\x7bB\x7d" else if name = "B" then some "b" else none

/-- A value that looks like a placeholder is not looked at again, and a placeholder that opens
within another one is part of it. -/
theorem replace_singlePass_lookalike :
    ¬ LeavesOpen "$\x7bA\x7d$\x7b$\x7bC:-c\x7d".toList ∧
      ¬ Straddles "$\x7bA\x7d$\x7b$\x7bC:-c\x7d".toList "\x7d$\x7bB".toList ∧
      replace lookalike ("$\x7bA\x7d$\x7b$\x7bC:-c\x7d" ++ "\x7d$\x7bB") =
        "$\x7bB\x7dc" ++ "\x7d$\x7bB" := by
  have hclosed : ¬ LeavesOpen "$\x7bA\x7d$\x7b$\x7bC:-c\x7d".toList :=
    not_leavesOpen_of_getLast? (by decide)
  have hcut : ¬ Straddles "$\x7bA\x7d$\x7b$\x7bC:-c\x7d".toList "\x7d$\x7bB".toList := by
    rintro ⟨hlast, -⟩
    exact absurd hlast (by decide)
  obtain ⟨-, -, hjoin⟩ := replace_singlePass lookalike
  refine ⟨hclosed, hcut, ?_⟩
  rw [hjoin _ _ hclosed hcut]
  cbv

end Repertoire.Placeholder
