import Mathlib.Data.List.Basic
import Mathlib.Data.List.Induction
import Repertoire.FileSystem.Resolve
import Repertoire.Proofs.Text.Lines

/-!
# Paths with a component joined to them

A component that is joined to a path is one more component at the end of it, whatever slashes the
path ends in. This holds of names without a slash and of two points, and all components behind the
first of a path are of this kind. So components of this kind can be joined to one path, and the path
has just these components.
-/

namespace Repertoire

namespace Path

open Repertoire.Text (pieces pieces_ne_nil pieces_of_not_mem pieces_append not_mem_of_mem_pieces)

/-- The component is what its text stands for within a path. -/
structure IsInner (c : Component) : Prop where
  part : component? c.text.toList = some c
  whole : '/' ∉ c.text.toList

/-- The name is a component on its own. -/
structure IsPlain (name : String) : Prop where
  part : component? name.toList = some (.name name)
  whole : '/' ∉ name.toList

/-- What components begin with, when paths have the given first part. -/
def lead (absolute : Bool) (first : Option (List Char)) : List Component :=
  if absolute then [.root] else if first = some ['.'] then [.here] else []

/-- The components of a path are what it begins with and those of its parts. -/
theorem components_eq (path : String) :
    components path = lead (isAbsolute path) (pieces '/' path.toList).head? ++
      (pieces '/' path.toList).filterMap component? := by
  rw [components, lead]
  split
  · rfl
  · split <;> rfl

variable {dir name path rest : String} {c : Component} {cs : List Component}

/-- A plain name is a component within a path. -/
theorem IsPlain.isInner (h : IsPlain name) : IsInner (.name name) := ⟨h.part, h.whole⟩

/-- The text of an inner component is not empty. -/
theorem IsInner.ne_nil (h : IsInner c) : c.text.toList ≠ [] := by
  intro hnil
  have hpart := h.part
  simp [component?, hnil] at hpart

/-- The text of an inner component is not a single point. -/
theorem IsInner.ne_point (h : IsInner c) : c.text.toList ≠ ['.'] := by
  intro hpoint
  have hpart := h.part
  simp [component?, hpoint] at hpart

/-- A plain name is not empty. -/
theorem IsPlain.ne_nil (h : IsPlain name) : name.toList ≠ [] := h.isInner.ne_nil

/-- A plain name is not a single point. -/
theorem IsPlain.ne_point (h : IsPlain name) : name.toList ≠ ['.'] := h.isInner.ne_point

/-- The text of an inner component does not start at the root. -/
theorem IsInner.relative (h : IsInner c) : isAbsolute c.text = false := by
  rw [isAbsolute]
  cases hchars : c.text.toList with
  | nil => rfl
  | cons d ds =>
    have hd : d ≠ '/' := fun hd => h.whole (by simp [hchars, hd])
    simp [hd]

/-- A plain name does not start at the root. -/
theorem IsPlain.relative (h : IsPlain name) : isAbsolute name = false := h.isInner.relative

/-- Joining a relative path adds it, with at most a slash between. -/
theorem toList_join (h : isAbsolute rest = false) (dir : String) :
    ∃ between, (between = [] ∨ between = ['/']) ∧
      (join dir rest).toList = dir.toList ++ (between ++ rest.toList) := by
  rw [join, if_neg (by simp [h])]
  split
  · exact ⟨[], .inl rfl, by simp⟩
  · exact ⟨['/'], .inr rfl, by simp⟩

/-- Joining a plain name adds no character but a slash and those of the name. -/
theorem mem_join_iff (h : IsPlain name) {d : Char} (hd : d ≠ '/') (hname : d ∉ name.toList)
    (dir : String) : d ∈ (join dir name).toList ↔ d ∈ dir.toList := by
  obtain ⟨between, hbetween, hjoin⟩ := toList_join h.relative dir
  rw [hjoin]
  rcases hbetween with rfl | rfl <;> simp [hd, hname]

/-- A path with a component joined to it is not empty. -/
theorem IsInner.join_ne_empty (h : IsInner c) (dir : String) : join dir c.text ≠ "" := by
  intro hempty
  obtain ⟨between, -, hjoin⟩ := toList_join h.relative dir
  rw [hempty] at hjoin
  simp [h.ne_nil] at hjoin

/-- A path with a name joined to it is not empty. -/
theorem join_ne_empty (h : IsPlain name) (dir : String) : join dir name ≠ "" :=
  h.isInner.join_ne_empty dir

/-- Joining a relative path puts it behind a slash, unless what it is joined to is empty. -/
theorem join_relative (h : isAbsolute rest = false) (hdir : dir.toList ≠ []) :
    ∃ front, (dir.toList = front ∨ dir.toList = front ++ ['/']) ∧
      (join dir rest).toList = front ++ '/' :: rest.toList := by
  have hempty : dir.isEmpty = false := by
    rw [Bool.eq_false_iff]
    intro hempty
    exact hdir (by simpa using hempty)
  rw [join, if_neg (by simp [h]), hempty, Bool.false_or]
  by_cases hslash : dir.toList.getLast? = some '/'
  · obtain ⟨front, hfront⟩ := List.getLast?_eq_some_iff.mp hslash
    refine ⟨front, .inr hfront, ?_⟩
    simp [hfront]
  · refine ⟨dir.toList, .inl rfl, ?_⟩
    simp [hslash]

/-- Joining a path to an empty one gives the path. -/
theorem empty_join (path : String) : join "" path = path := by
  rw [join]
  split <;> simp

/-- A joined component is one more. -/
theorem IsInner.components_join (h : IsInner c) (dir : String) :
    components (join dir c.text) = components dir ++ [c] := by
  have hpieces : pieces '/' c.text.toList = [c.text.toList] := pieces_of_not_mem h.whole
  have hlast : [c.text.toList].filterMap component? = [c] := List.filterMap_cons_some h.part
  by_cases hdir : dir.toList = []
  · obtain rfl : dir = "" := by simpa using hdir
    rw [empty_join, components_eq, components_eq, hpieces, hlast, h.relative]
    simp [lead, h.ne_point, pieces, component?, isAbsolute]
  · obtain ⟨front, hfront, hjoin⟩ := join_relative h.relative hdir
    obtain ⟨first, more, hfirst⟩ := List.exists_cons_of_ne_nil (pieces_ne_nil '/' front)
    -- A slash at the end of the path adds an empty part, which counts for nothing.
    have hparts : (pieces '/' dir.toList).filterMap component? =
        (pieces '/' front).filterMap component? := by
      rcases hfront with hfront | hfront
      · rw [hfront]
      · rw [hfront, pieces_append]
        simp [pieces, component?]
    have hhead : (pieces '/' dir.toList).head? = some first := by
      rcases hfront with hfront | hfront
      · rw [hfront, hfirst]
        rfl
      · rw [hfront, pieces_append, hfirst]
        rfl
    have habsolute : isAbsolute (join dir c.text) = isAbsolute dir := by
      rw [isAbsolute, isAbsolute, hjoin]
      rcases hfront with hfront | hfront
      · rw [hfront] at hdir ⊢
        cases front with
        | nil => exact absurd rfl hdir
        | cons d ds => rfl
      · rw [hfront]
        cases front <;> rfl
    rw [components_eq, components_eq, habsolute, hparts, hhead, hjoin, pieces_append, hpieces,
      List.filterMap_append, hlast, hfirst, List.append_assoc]
    rfl

/-- A joined name is one more component. -/
theorem components_join (h : IsPlain name) (dir : String) :
    components (join dir name) = components dir ++ [.name name] :=
  h.isInner.components_join dir

/-! ## All components of a path -/

/-- Behind the first component there are only those of the parts. -/
theorem mem_parts_of_mem_tail {path : String} {c : Component} (h : c ∈ (components path).tail) :
    c ∈ (pieces '/' path.toList).filterMap component? := by
  rw [components_eq, lead] at h
  split at h
  · exact h
  · split at h
    · exact h
    · exact List.mem_of_mem_tail h

/-- A component within a path has the text of the part that stands for it. -/
theorem toList_text_of_component? {part : List Char} (h : component? part = some c) :
    c.text.toList = part := by
  rw [component?] at h
  split at h
  · cases h
  · split at h
    · rename_i hup
      rw [← Option.some.inj h, hup]
      rfl
    · rw [← Option.some.inj h]
      exact String.toList_ofList

/-- All components behind the first are inner ones. -/
theorem isInner_of_mem_tail (h : c ∈ (components path).tail) : IsInner c := by
  obtain ⟨part, hpart, hc⟩ := List.mem_filterMap.mp (mem_parts_of_mem_tail h)
  have htext := toList_text_of_component? hc
  exact ⟨by rw [htext, hc], by rw [htext]; exact not_mem_of_mem_pieces hpart⟩

/-- An inner component is two points or a plain name. -/
theorem IsInner.eq_parent_or_name (h : IsInner c) :
    c = .parent ∨ ∃ name, c = .name name ∧ IsPlain name := by
  cases c with
  | root => exact absurd h.whole (by decide)
  | here => exact absurd h.ne_point (by decide)
  | parent => exact .inl rfl
  | name n => exact .inr ⟨n, rfl, h.part, h.whole⟩

/-- The root comes first among components or not at all. -/
theorem eq_nil_of_components_root {front rest : List Component}
    (h : components path = front ++ .root :: rest) : front = [] := by
  cases front with
  | nil => rfl
  | cons c front =>
    have htail : Component.root ∈ (components path).tail := by simp [h]
    exact absurd (isInner_of_mem_tail htail).whole (by decide)

/-- A path that starts at the root has that as its first component. -/
theorem root_mem_components (h : isAbsolute path = true) : .root ∈ components path := by
  simp [components_eq, lead, h]

/-! ## Components joined one after the other -/

/-- What stands between a path and one that is joined to it. -/
def between (dir : String) : String :=
  if dir.isEmpty || dir.toList.getLast? = some '/' then "" else "/"

/-- A relative path is put behind what it is joined to. -/
theorem join_eq (h : isAbsolute rest = false) (dir : String) :
    join dir rest = dir ++ between dir ++ rest := by
  rw [join, if_neg (by simp [h]), between]
  split <;> simp

/-- Where a path ends decides what stands behind it, unless it is empty. -/
theorem between_append (h : path ≠ "") (front : String) :
    between (front ++ path) = between path := by
  have hne : path.toList ≠ [] := by simpa using h
  rw [between, between, String.toList_append, List.getLast?_append_of_ne_nil _ hne]
  simp [h]

/-- Joining relative paths is associative if the one in the middle is not empty. -/
theorem join_join (hpath : path ≠ "") (hrelative : isAbsolute path = false)
    (hrest : isAbsolute rest = false) (dir : String) :
    join dir (join path rest) = join (join dir path) rest := by
  have hjoin : isAbsolute (join path rest) = false := by
    obtain ⟨c, cs, hchars⟩ := List.exists_cons_of_ne_nil (show path.toList ≠ [] by simpa using hpath)
    rw [isAbsolute, hchars] at hrelative
    rw [isAbsolute, join_eq hrest, String.toList_append, String.toList_append, hchars]
    exact hrelative
  rw [join_eq hjoin, join_eq hrest, join_eq hrest, join_eq hrelative, between_append hpath]
  simp only [String.append_assoc]

/-- One more component is joined to the path of the others. -/
theorem ofComponents_concat (cs : List Component) (c : Component) :
    ofComponents (cs ++ [c]) = join (ofComponents cs) c.text := by
  rw [ofComponents, List.foldl_append]
  rfl

/-- The path of inner components has these components. -/
theorem components_ofComponents (h : ∀ c ∈ cs, IsInner c) : components (ofComponents cs) = cs := by
  induction cs using List.reverseRecOn with
  | nil => rfl
  | append_singleton cs c ih =>
    rw [ofComponents_concat, (h c (by simp)).components_join,
      ih fun d hd => h d (List.mem_append_left [c] hd)]

/-- The path of inner components is relative. -/
theorem relative_ofComponents (h : ∀ c ∈ cs, IsInner c) : isAbsolute (ofComponents cs) = false := by
  rw [← Bool.not_eq_true]
  intro habsolute
  have hroot := root_mem_components habsolute
  rw [components_ofComponents h] at hroot
  exact absurd (h .root hroot).whole (by decide)

/-- The path of inner components is empty only if there are none. -/
theorem ofComponents_eq_empty_iff (h : ∀ c ∈ cs, IsInner c) : ofComponents cs = "" ↔ cs = [] := by
  constructor
  · intro hempty
    rw [← components_ofComponents h, hempty]
    rfl
  · rintro rfl
    rfl

/-- The path of inner components does not end in a slash. -/
theorem getLast?_ofComponents (h : ∀ c ∈ cs, IsInner c) :
    (ofComponents cs).toList.getLast? ≠ some '/' := by
  rcases List.eq_nil_or_concat' cs with rfl | ⟨front, c, rfl⟩
  · simp [ofComponents]
  · have hc := h c (by simp)
    rw [ofComponents_concat, join_eq hc.relative, String.toList_append,
      List.getLast?_append_of_ne_nil _ hc.ne_nil]
    exact fun hlast => hc.whole (List.mem_of_getLast? hlast)

/-- The path of inner components is their texts with slashes between them. -/
theorem ofComponents_eq_intercalate (h : ∀ c ∈ cs, IsInner c) :
    ofComponents cs = "/".intercalate (cs.map Component.text) := by
  induction cs using List.reverseRecOn with
  | nil => rfl
  | append_singleton cs c ih =>
    have hcs : ∀ d ∈ cs, IsInner d := fun d hd => h d (List.mem_append_left [c] hd)
    rw [ofComponents_concat, List.map_append, List.map_singleton]
    by_cases hnil : cs = []
    · rw [hnil]
      exact empty_join c.text
    · have hslash : between (ofComponents cs) = "/" := by
        rw [between, if_neg]
        simp [getLast?_ofComponents hcs, ofComponents_eq_empty_iff hcs, hnil]
      rw [join_eq (h c (by simp)).relative, hslash, ih hcs,
        String.intercalate_append_of_ne_nil (by simpa using hnil) (by simp),
        String.intercalate_singleton]

/-- Joining the path of inner components joins them one after the other. -/
theorem components_join_ofComponents (h : ∀ c ∈ cs, IsInner c) (hne : cs ≠ []) (dir : String) :
    components (join dir (ofComponents cs)) = components dir ++ cs := by
  induction cs using List.reverseRecOn with
  | nil => exact absurd rfl hne
  | append_singleton cs c ih =>
    have hc := h c (by simp)
    have hcs : ∀ d ∈ cs, IsInner d := fun d hd => h d (List.mem_append_left [c] hd)
    rw [ofComponents_concat]
    by_cases hnil : cs = []
    · rw [hnil]
      change components (join dir (join "" c.text)) = _
      rw [empty_join, hc.components_join, List.nil_append]
    · rw [join_join ((ofComponents_eq_empty_iff hcs).not.mpr hnil) (relative_ofComponents hcs)
        hc.relative, hc.components_join, ih hcs hnil, List.append_assoc]

end Path

namespace FileSystem

open Repertoire.Path

variable {dir name : String}

/-- The steps of a path are its components, or these and a step that stays. -/
theorem steps_eq (path : String) :
    steps path = components path ∨ steps path = components path ++ [.here] := by
  unfold steps
  extract_lets cs ended
  cases ended with
  | true => exact .inr rfl
  | false => exact .inl rfl

/-- A joined name is the last step. -/
theorem steps_join (h : IsPlain name) (dir : String) :
    steps (join dir name) = components dir ++ [.name name] := by
  obtain ⟨between, -, hjoin⟩ := toList_join h.relative dir
  have hreverse : (join dir name).toList.reverse =
      name.toList.reverse ++ (dir.toList ++ between).reverse := by
    rw [hjoin, ← List.append_assoc, List.reverse_append]
  have hlast : ∀ tail, (join dir name).toList.reverse ≠ '/' :: tail := by
    intro tail htail
    obtain ⟨c, cs, hname⟩ := List.exists_cons_of_ne_nil (List.reverse_ne_nil_iff.mpr h.ne_nil)
    rw [hreverse, hname] at htail
    have hc : c = '/' := (List.cons.inj htail).1
    have hmem : c ∈ name.toList.reverse := by simp [hname]
    exact h.whole (hc ▸ List.mem_reverse.mp hmem)
  have hpoint : ∀ tail, (join dir name).toList.reverse ≠ '.' :: '/' :: tail := by
    intro tail htail
    obtain ⟨c, cs, hname⟩ := List.exists_cons_of_ne_nil (List.reverse_ne_nil_iff.mpr h.ne_nil)
    rw [hreverse, hname] at htail
    obtain ⟨hc, hrest⟩ := List.cons.inj htail
    cases cs with
    | nil => exact h.ne_point (by simpa [hc] using congrArg List.reverse hname)
    | cons d ds =>
      have hd : d = '/' := (List.cons.inj hrest).1
      have hmem : d ∈ name.toList.reverse := by simp [hname]
      exact h.whole (hd ▸ List.mem_reverse.mp hmem)
  rw [← components_join h dir]
  unfold steps
  extract_lets cs ended
  have hended : ended = false := by
    -- The endings that ask for a directory are ruled out by `hlast` and `hpoint`.
    simp only [ended, cs]
  rw [hended]
  rfl

end FileSystem

end Repertoire
