import Mathlib.Data.List.Infix
import Mathlib.Data.List.TakeWhile
import Repertoire.Proofs.Catalog.Overlay
import Repertoire.Proofs.Catalog.Sanitizing

/-!
# Laying entries over a directory, one after the other

What a directory holds is a layout: what stands at the names that lead from it. An entry of an
archive changes the layout, or it ends the work. It may end it in two ways. An entry that has no
place changes nothing: its path leads upwards, a file stands on its way, or something of the other
kind stands at the end of it. An entry with a name that is not taken has a place but cannot be put
there, and the directories in front of that name are made before this turns out.

None of this is about file systems. Which names are taken is a parameter.
-/

namespace Repertoire.Archive

open Repertoire.Path (Component IsInner component? components components_eq components_ofComponents
  isAbsolute lead)
open Repertoire.Text (pieces)

/-- What stands at the names that lead from a directory. -/
abbrev Layout := List String → Option Entry

variable {takes : String → Bool} {t t' : Layout} {way names : List String} {new old : Entry}
  {e : ArchiveEntry} {path : String} {cs : List Component}

/-! ## The names in a path -/

/-- The name that a part of a path stands for, two points included. Empty parts and single points
stand for none. -/
def part? (part : List Char) : Option String :=
  if part = [] ∨ part = ['.'] then none else some (String.ofList part)

/-- The names in a path. -/
def parts (path : String) : List String := (pieces '/' path.toList).filterMap part?

/-- The names in a path without its first component, which is the root, a single point at the very
front, or else a name. -/
def stripped (path : String) : List String :=
  if isAbsolute path = true ∨ (pieces '/' path.toList).head? = some ['.'] then parts path
  else (parts path).tail

/-- The name that a part stands for is the text of its component. -/
theorem map_text_component? (part : List Char) :
    (component? part).map Component.text = part? part := by
  rw [component?, part?]
  split
  · rfl
  · split
    · rename_i htwo
      rw [htwo]
      rfl
    · rfl

/-- The components of a path behind the first have the names in the path as their texts. -/
theorem map_text_components (path : String) :
    ((components path).drop 1).map Component.text = stripped path := by
  have htext : ((pieces '/' path.toList).filterMap component?).map Component.text = parts path := by
    rw [List.map_filterMap, parts]
    simp only [map_text_component?]
  have hfront : isAbsolute path = true ∨ (pieces '/' path.toList).head? = some ['.'] →
      stripped path = parts path := fun hfront => if_pos hfront
  rw [components_eq, lead]
  split
  · rename_i habsolute
    rw [hfront (.inl habsolute)]
    exact htext
  · rename_i hrelative
    split
    · rename_i hpoint
      rw [hfront (.inr hpoint)]
      exact htext
    · rename_i hname
      rw [stripped, if_neg (not_or.mpr ⟨hrelative, hname⟩), ← htext, List.nil_append,
        List.drop_one, List.map_tail]

/-- Two points are among the names in a path exactly when they are a component behind the first. -/
theorem mem_stripped_iff : ".." ∈ stripped path ↔ .parent ∈ (components path).drop 1 := by
  rw [← map_text_components, List.mem_map]
  constructor
  · rintro ⟨c, hc, htext⟩
    rcases (isInner_of_mem_drop hc).eq_parent_or_name with rfl | ⟨name, rfl, hname⟩
    · exact hc
    · have hpart := hname.part
      rw [show name = ".." from htext] at hpart
      exact absurd hpart (by decide)
  · exact fun hparent => ⟨.parent, hparent, rfl⟩

/-- The names that lead to an entry are those in its path without the first component. An entry is
refused for its path exactly when two points are among them. -/
theorem target_eq (path : String) :
    target path = if ".." ∈ stripped path then .error (unsafePath path) else .ok (stripped path) := by
  simp only [target, sanitize_eq, mem_stripped_iff]
  by_cases hnil : (components path).drop 1 = []
  · simp [hnil, ← map_text_components]
  · by_cases hparent : .parent ∈ (components path).drop 1
    · simp only [hnil, hparent, if_true, if_false]
    · have hinner : ∀ c ∈ (components path).drop 1, IsInner c := fun c hc => isInner_of_mem_drop hc
      obtain ⟨names, hnames, -⟩ := exists_names hinner hparent
      have hstripped : stripped path = names := by
        rw [← map_text_components, hnames, List.map_map]
        exact List.map_id names
      simp only [hnil, hparent, if_false, components_ofComponents hinner]
      rw [hstripped, hnames, List.filterMap_map]
      exact congrArg _ List.filterMap_some

/-! ## One entry -/

/-- What stands somewhere can become or stay a directory, or else a file. -/
def admits (directory : Bool) : Option Entry → Bool
  | none => true
  | some .directory => directory
  | some (.file ..) => !directory
  | some (.link _) => false

/-- Nothing but directories stands on a way. -/
def Clear (t : Layout) (way : List String) : Prop :=
  ∀ front ∈ way.inits, admits true (t front) = true

instance (t : Layout) (way : List String) : Decidable (Clear t way) :=
  List.decidableBAll (fun front => admits true (t front) = true) way.inits

/-- A layout with something at the end of a way, and directories on it. -/
def lay (t : Layout) (way : List String) (new : Entry) : Layout := fun names =>
  if names = way then some new else if names <+: way then some .directory else t names

/-- A layout has a place for an entry: no file stands on its way, and nothing of the other kind at
the end of it. What stands behind a name that is not taken does not matter. -/
def HasPlace (takes : String → Bool) (t : Layout) (e : ArchiveEntry) (way : List String) : Prop :=
  Clear t (way.dropLast.takeWhile takes) ∧
    (way.all takes = true → admits e.isDirectory (t way) = true)

instance (takes : String → Bool) (t : Layout) (e : ArchiveEntry) (way : List String) :
    Decidable (HasPlace takes t e way) := inferInstanceAs (Decidable (_ ∧ _))

/-- The layout after an entry, or the one that is left where the entry ends the work. -/
def overlay (takes : String → Bool) (t : Layout) (e : ArchiveEntry) : Except Layout Layout :=
  let way := stripped e.path
  if e.isLink = true ∨ way = [] then .ok t
  else if ".." ∈ way ∨ ¬ HasPlace takes t e way then .error t
  else if way.all takes = true then .ok (lay t way e.result)
  else .error (lay t (way.dropLast.takeWhile takes) .directory)

/-- An entry is a file at names. -/
structure Writes (e : ArchiveEntry) (names : List String) : Prop where
  kept : e.isLink = false
  file : e.isDirectory = false
  leads : stripped e.path = names
  named : names ≠ []

/-! ## What stays -/

/-- The layout in the end. -/
def final : Except Layout Layout → Layout
  | .ok t => t
  | .error t => t

/-- A way is clear if and only if what stands at its front is a directory or nothing. -/
theorem clear_iff : Clear t way ↔ ∀ front, front <+: way → admits true (t front) = true := by
  simp only [Clear, List.mem_inits]

/-- A directory can be where nothing or a directory stands. -/
theorem admits_true_iff {found : Option Entry} :
    admits true found = true ↔ found = none ∨ found = some .directory := by
  rcases found with _ | _ | _ | _ <;> simp [admits]

/-- Nothing but a directory stands where one could be. -/
theorem eq_directory_of_admits (h : t names = some old) (hadmits : admits true (t names) = true) :
    old = .directory := by
  rw [h, admits_true_iff] at hadmits
  simpa using hadmits

/-- A longer way is clear if a directory can be at its end too. -/
theorem clear_concat {x : String} :
    Clear t (way ++ [x]) ↔ Clear t way ∧ admits true (t (way ++ [x])) = true := by
  rw [clear_iff, clear_iff]
  constructor
  · intro h
    exact ⟨fun front hfront => h front (hfront.trans (List.prefix_append way [x])),
      h (way ++ [x]) List.prefix_rfl⟩
  · intro h front hfront
    rcases List.prefix_concat_iff.mp hfront with hwhole | hshorter
    · rw [hwhole]
      exact h.2
    · exact h.1 front hshorter

/-- Either a way is clear, or it is so up to a name at which a directory cannot be. -/
theorem clear_or_blocked (hroot : t [] = some .directory) (way : List String) :
    Clear t way ∨ ∃ front x rest, way = front ++ x :: rest ∧ Clear t front ∧
      admits true (t (front ++ [x])) = false := by
  induction way using List.reverseRecOn with
  | nil =>
    left
    rw [clear_iff]
    intro front hfront
    rw [List.prefix_nil.mp hfront, hroot]
    rfl
  | append_singleton way x ih =>
    rcases ih with hclear | ⟨front, y, rest, hway, hclear, hblocked⟩
    · cases hend : admits true (t (way ++ [x])) with
      | false => exact .inr ⟨way, x, [], rfl, hclear, hend⟩
      | true => exact .inl (clear_concat.mpr ⟨hclear, hend⟩)
    · exact .inr ⟨front, y, rest ++ [x], by simp [hway], hclear, hblocked⟩

/-- A directory at the end of a way is one like those on it. -/
theorem lay_directory (t : Layout) (way names : List String) :
    lay t way .directory names = if names <+: way then some .directory else t names := by
  rw [lay]
  by_cases hend : names = way
  · rw [if_pos hend, if_pos (hend ▸ List.prefix_rfl)]
  · rw [if_neg hend]

/-- What is behind a way is not touched when the directories on it are laid. -/
theorem lay_end (t : Layout) (way : List String) (x : String) :
    lay t way .directory (way ++ [x]) = t (way ++ [x]) := by
  rw [lay_directory, if_neg]
  intro hfront
  have hlen := hfront.length_le
  rw [List.length_append, List.length_singleton] at hlen
  omega

/-- A way is clear once the directories on it are laid. -/
theorem clear_lay (t : Layout) (way : List String) : Clear (lay t way .directory) way := by
  rw [clear_iff]
  intro front hfront
  rw [lay_directory, if_pos hfront]
  rfl

/-- Directories that are there need not be laid. -/
theorem lay_eq_self (h : ∀ front, front <+: way → t front = some .directory) :
    lay t way .directory = t := by
  funext names
  rw [lay_directory]
  split
  · rename_i hon
    rw [h names hon]
  · rfl

/-- The directories on a way may be laid before its end. -/
theorem lay_lay (t : Layout) (way : List String) (x : String) (new : Entry) :
    lay (lay t way .directory) (way ++ [x]) new = lay t (way ++ [x]) new := by
  funext names
  rw [lay, lay_directory, lay]
  by_cases hon : names <+: way
  · rw [if_pos hon, if_pos (hon.trans (List.prefix_append way [x])),
      if_pos (hon.trans (List.prefix_append way [x]))]
  · rw [if_neg hon]

/-- What an entry comes to whose path leads further down. -/
theorem overlay_snoc {x : String} (hlink : e.isLink = false)
    (hway : stripped e.path = way ++ [x]) (hup : ".." ∉ way ++ [x]) :
    overlay takes t e =
      if Clear t (way.takeWhile takes) ∧
          ((way ++ [x]).all takes = true → admits e.isDirectory (t (way ++ [x])) = true) then
        if (way ++ [x]).all takes = true then .ok (lay t (way ++ [x]) e.result)
        else .error (lay t (way.takeWhile takes) .directory)
      else .error t := by
  rw [overlay, hway, if_neg (by simp [hlink]), List.dropLast_concat]
  by_cases hplace : HasPlace takes t e (way ++ [x])
  · rw [if_neg (not_or.mpr ⟨hup, not_not.mpr hplace⟩)]
    rw [HasPlace, List.dropLast_concat] at hplace
    rw [if_pos hplace]
  · rw [if_pos (.inr hplace)]
    rw [HasPlace, List.dropLast_concat] at hplace
    rw [if_neg hplace]

/-- What stands somewhere stays there if the way in front is clear and its end becomes nothing
else. -/
theorem lay_keeps (hclear : Clear t way.dropLast) (h : t names = some old)
    (hend : names = way → new = old) : lay t way new names = some old := by
  rw [lay]
  split
  · rename_i hnames
    rw [hend hnames]
  · rename_i hnames
    split
    · rename_i hon
      have hfront : names <+: way.dropLast := by
        rcases List.eq_nil_or_concat' way with hnil | ⟨front, x, hsplit⟩
        · rw [hnil, List.prefix_nil] at hon
          exact absurd (hon.trans hnil.symm) hnames
        · rw [hsplit, List.dropLast_concat]
          rw [hsplit] at hon hnames
          exact (List.prefix_concat_iff.mp hon).resolve_left hnames
      rw [eq_directory_of_admits h (clear_iff.mp hclear names hfront)]
    · exact h

/-- One entry leaves directories alone, and what is not where it is a file. -/
theorem overlay_keeps (h : t names = some old) (hold : old = .directory ∨ ¬ Writes e names) :
    final (overlay takes t e) names = some old := by
  rw [overlay]
  -- An entry that is skipped or refused changes nothing. What is laid for one that is taken keeps
  -- `old`: a directory is laid over directories only, and a file over nothing else than a file.
  split
  · exact h
  · rename_i hsome
    rw [not_or, Bool.not_eq_true] at hsome
    split
    · exact h
    · rename_i hplace
      rw [not_or, not_not] at hplace
      obtain ⟨-, hclear, hadmits⟩ := hplace
      split
      · rename_i htakes
        have hall : (stripped e.path).dropLast.takeWhile takes = (stripped e.path).dropLast := by
          rw [List.takeWhile_eq_self_iff]
          intro n hn
          exact List.all_eq_true.mp htakes n (List.mem_of_mem_dropLast hn)
        rw [hall] at hclear
        apply lay_keeps hclear h
        intro hnames
        have hend := hadmits htakes
        rw [← hnames] at hend
        rw [ArchiveEntry.result]
        split
        · rename_i hkind
          rw [hkind] at hend
          exact (eq_directory_of_admits h hend).symm
        · rename_i hkind
          rw [Bool.not_eq_true] at hkind
          have hwrites : Writes e names := ⟨hsome.1, hkind, hnames.symm, hnames ▸ hsome.2⟩
          rw [hkind, h, hold.resolve_right fun hno => hno hwrites] at hend
          simp [admits] at hend
      · apply lay_keeps _ h
        · intro hnames
          rw [← hnames] at hclear
          exact (eq_directory_of_admits h (clear_iff.mp hclear names List.prefix_rfl)).symm
        · rw [clear_iff] at hclear ⊢
          intro front hfront
          exact hclear front (hfront.trans (List.dropLast_prefix _))

/-- Entries in order leave directories alone, and what is where none of them is a file. -/
theorem foldlM_overlay_keeps {entries : List ArchiveEntry} (h : t names = some old)
    (hold : old = .directory ∨ ∀ e ∈ entries, ¬ Writes e names) :
    final (entries.foldlM (overlay takes) t) names = some old := by
  induction entries generalizing t with
  | nil => exact h
  | cons e rest ih =>
    have hfirst : final (overlay takes t e) names = some old :=
      overlay_keeps h (hold.imp_right fun hno => hno e List.mem_cons_self)
    rw [List.foldlM_cons]
    cases hlaid : overlay takes t e with
    | error s =>
      rw [hlaid] at hfirst
      exact hfirst
    | ok s =>
      rw [hlaid] at hfirst
      exact ih hfirst (hold.imp_right fun hno d hd => hno d (List.mem_cons_of_mem e hd))

/-! ## What is written -/

/-- A file that could be laid stands where it should. -/
theorem overlay_writes (hwrites : Writes e names) (h : overlay takes t e = .ok t') :
    t' names = some (.file e.content e.modified) := by
  obtain ⟨hkept, hfile, hnames, hnamed⟩ := hwrites
  rw [overlay, hnames, if_neg (by simp [hkept, hnamed])] at h
  split at h
  · cases h
  · split at h
    · rw [← Except.ok.inj h, lay, if_pos rfl, ArchiveEntry.result, hfile]
      rfl
    · cases h

/-- The last file that could be laid at its names stands there in the end. -/
theorem foldlM_overlay_last {before after : List ArchiveEntry} (hwrites : Writes e names)
    (hlaid : ∃ s, (before ++ [e]).foldlM (overlay takes) t = .ok s)
    (hlast : ∀ d ∈ after, ¬ Writes d names) :
    final ((before ++ e :: after).foldlM (overlay takes) t) names =
      some (.file e.content e.modified) := by
  obtain ⟨s, hlaid⟩ := hlaid
  have hstands : s names = some (.file e.content e.modified) := by
    rw [List.foldlM_append] at hlaid
    cases hbefore : before.foldlM (overlay takes) t with
    | error r =>
      rw [hbefore] at hlaid
      cases hlaid
    | ok r =>
      rw [hbefore] at hlaid
      have hone : (overlay takes r e >>= pure) = .ok s := hlaid
      rw [bind_pure] at hone
      exact overlay_writes hwrites hone
  have hsplit : before ++ e :: after = (before ++ [e]) ++ after := by simp
  rw [hsplit, List.foldlM_append, hlaid]
  exact foldlM_overlay_keeps hstands (.inr hlast)

end Repertoire.Archive
