import Mathlib.Data.String.Basic
import Repertoire.Proofs.Catalog.Layout

/-!
# Unpacking in order

Into a directory without links, an archive is unpacked as its entries are laid over the layout of
that directory, one after the other: the same entries end the work, and what is left is the same.
Outside the directory nothing differs.

The names that are taken are those of at most 255 bytes. This limit shows: an entry with a longer
name fails although nothing is in its place, and leaves the directories behind that were made on the
way to it.
-/

namespace Repertoire.Archive

open Repertoire.FileSystem
open Repertoire.Path (IsPlain component? isAbsolute)
open Repertoire.Text (pieces pieces_append pieces_of_not_mem)

variable {top q : Place} {fs fs₁ fs' : FileSystem} {names : List String} {x : String}
  {e : ArchiveEntry} {entries : List ArchiveEntry} {out : Fetched}

/-- What stands at the names that lead from a place. -/
def layout (top : Place) (fs : FileSystem) : Layout := fun names => fs.entry? (top ++ names)

/-- A name is not too long for a file system. -/
def isShort (name : String) : Bool := decide (name.utf8ByteSize ≤ nameLimit)

/-- What an operation leaves below a place, and whether it failed. -/
def outcome {ε : Type} (top : Place) (run : Except ε Unit × FileSystem) : Except Layout Layout :=
  match run with
  | (.ok _, fs) => .ok (layout top fs)
  | (.error _, fs) => .error (layout top fs)

/-- A directory in which there are no links, and to which the names on its way lead. -/
structure Plain (top : Place) (fs : FileSystem) : Prop where
  grounded : fs.Grounded
  directory : fs.entry? top = some .directory
  linkFree : LinkFree top fs
  short : Short top

/-! ## Directories on a way -/

/-- Names behind a directory are short if they are all taken. -/
theorem short_append (h : Short top) : Short (top ++ names) ↔ names.all isShort = true := by
  simp only [Short, List.forall_mem_append, List.all_eq_true, isShort, decide_eq_true_eq]
  exact and_iff_right h

/-- A directory stays plain when directories are created below it. -/
theorem Plain.created (h : Plain top fs)
    (hcreated : createSteps (placeSteps (top ++ names)) fs = (.ok (), fs')) : Plain top fs' := by
  obtain ⟨hfs', hfree', htop', -⟩ :=
    arrived_of_createSteps h.grounded h.linkFree h.directory hcreated
  exact ⟨hfs', htop', hfree', h.short⟩

/-- A way is clear exactly when nothing but directories stands on it. -/
theorem Plain.clear_iff (h : Plain top fs) : Clear (layout top fs) names ↔
    ∀ q, OnWay top names q → fs.entry? q = none ∨ fs.entry? q = some .directory := by
  rw [Archive.clear_iff]
  constructor
  · intro hclear q hq
    obtain ⟨front, -, hfront, hplace⟩ := hq
    rw [hplace]
    exact admits_true_iff.mp (hclear front hfront)
  · intro hway front hfront
    rw [admits_true_iff]
    by_cases hnil : front = []
    · rw [hnil, layout, List.append_nil]
      exact .inr h.directory
    · exact hway _ ⟨front, hnil, hfront, rfl⟩

/-- Above what stands somewhere there are directories already. -/
theorem Plain.lay_eq_self (h : Plain top fs) (hsome : layout top fs (names ++ [x]) ≠ none) :
    lay (layout top fs) names .directory = layout top fs := by
  apply Archive.lay_eq_self
  intro front hfront
  obtain ⟨rest, hrest⟩ := hfront
  obtain ⟨old, hold⟩ := Option.ne_none_iff_exists'.mp hsome
  rw [layout, ← hrest, List.append_assoc, ← List.append_assoc] at hold
  exact h.grounded.tree.above (by simp) hold

/-- The directories on a way that could be created, and nothing else, are new in the layout. -/
theorem Plain.layout_created (h : Plain top fs)
    (hcreated : createSteps (placeSteps (top ++ names)) fs = (.ok (), fs')) :
    layout top fs' = lay (layout top fs) names .directory := by
  have hlaid := laid_of_createSteps h.grounded h.linkFree h.directory hcreated
  funext front
  rw [lay_directory]
  by_cases hnil : front = []
  · rw [if_pos (hnil ▸ List.nil_prefix), hnil, layout, List.append_nil]
    exact (h.created hcreated).directory
  · split
    · rename_i hfront
      exact hlaid.laid _ ⟨front, hnil, hfront, rfl⟩
    · rename_i hoff
      apply hlaid.rest
      intro hon
      obtain ⟨front', -, hfront, hplace⟩ := hon
      exact hoff (List.append_cancel_left hplace ▸ hfront)

/-- The directories on a clear way of short names can be created. -/
theorem Plain.createSteps_clear (h : Plain top fs) (hclear : Clear (layout top fs) names)
    (hshort : names.all isShort = true) :
    ∃ fs', createSteps (placeSteps (top ++ names)) fs = (.ok (), fs') ∧ Plain top fs' ∧
      layout top fs' = lay (layout top fs) names .directory := by
  obtain ⟨fs', hcreated⟩ := createSteps_ok h.grounded h.linkFree h.directory
    ((short_append h.short).mpr hshort) (h.clear_iff.mp hclear)
  exact ⟨fs', hcreated, h.created hcreated, h.layout_created hcreated⟩

/-- At a name that is too long the creation of the directories on a way stops, after those in front
of it were created. -/
theorem Plain.createSteps_tooLong (h : Plain top fs)
    (hclear : Clear (layout top fs) (names.takeWhile isShort)) (hlong : ¬ names.all isShort = true) :
    ∃ fault fs', createSteps (placeSteps (top ++ names)) fs = (.error fault, fs') ∧
      layout top fs' = lay (layout top fs) (names.takeWhile isShort) .directory := by
  have hfront : (names.takeWhile isShort).all isShort = true := List.all_takeWhile
  obtain ⟨fs', hcreated, -, hlayout⟩ := h.createSteps_clear hclear hfront
  have hsplit : names = names.takeWhile isShort ++ names.dropWhile isShort :=
    List.takeWhile_append_dropWhile.symm
  have hhead := List.head?_dropWhile_not isShort names
  cases hrest : names.dropWhile isShort with
  | nil =>
    rw [hrest, List.append_nil] at hsplit
    rw [← hsplit] at hfront
    exact absurd hfront hlong
  | cons x rest =>
    rw [hrest] at hsplit hhead
    have hx : ¬ x.utf8ByteSize ≤ nameLimit := by simpa [isShort] using hhead
    obtain ⟨fault, hstops⟩ := createSteps_stops h.grounded h.linkFree h.directory hcreated
      (fun hshort => absurd hshort hx) rest
    rw [← hsplit] at hstops
    exact ⟨fault, fs', hstops, hlayout⟩

/-- On a way that is not clear no directory is created. -/
theorem Plain.createSteps_blocked (h : Plain top fs)
    (hblocked : ¬ Clear (layout top fs) (names.takeWhile isShort)) :
    ∃ fault fs', createSteps (placeSteps (top ++ names)) fs = (.error fault, fs') ∧
      layout top fs' = layout top fs := by
  have hroot : layout top fs [] = some .directory := by
    rw [layout, List.append_nil]
    exact h.directory
  obtain ⟨front, x, rest, hway, hclear, hx⟩ :=
    (clear_or_blocked hroot (names.takeWhile isShort)).resolve_left hblocked
  have hshort : (names.takeWhile isShort).all isShort = true := List.all_takeWhile
  rw [hway, List.all_append, Bool.and_eq_true] at hshort
  obtain ⟨fs', hcreated, -, hlayout⟩ := h.createSteps_clear hclear hshort.1
  have hstands : layout top fs (front ++ [x]) ≠ none ∧
      layout top fs (front ++ [x]) ≠ some .directory := by
    rw [← not_or, ← admits_true_iff, hx]
    exact Bool.false_ne_true
  obtain ⟨fault, hstops⟩ := createSteps_stops h.grounded h.linkFree h.directory hcreated
    (fun _ => hstands) (rest ++ names.dropWhile isShort)
  have hsplit : front ++ x :: (rest ++ names.dropWhile isShort) = names := by
    rw [← List.cons_append, ← List.append_assoc, ← hway]
    exact List.takeWhile_append_dropWhile
  rw [hsplit] at hstops
  exact ⟨fault, fs', hstops, hlayout.trans (h.lay_eq_self hstands.1)⟩

/-! ## One entry -/

/-- What is known of a layout after an entry was prepared. -/
theorem Plain.of_prepared (h : Plain top fs) (hprep : Prepared top names fs fs' q) :
    q = top ++ names ∧ Plain top fs' ∧ names.all isShort = true ∧ Clear (layout top fs) names ∧
      layout top fs' = lay (layout top fs) names .directory := by
  have hlaid := laid_of_createSteps h.grounded h.linkFree h.directory hprep.created
  exact ⟨hprep.eq_of_linkFree h.grounded h.linkFree h.directory, h.created hprep.created,
    (short_append h.short).mp hlaid.short, h.clear_iff.mpr hlaid.free,
    h.layout_created hprep.created⟩

/-- Names that lead to an entry are those that its path has left, and do not lead upwards. -/
theorem stripped_of_target {path : String} (h : target path = .ok names) :
    stripped path = names ∧ ".." ∉ names := by
  rw [target_eq] at h
  split at h
  · cases h
  · rename_i hup
    rw [← Except.ok.inj h]
    exact ⟨rfl, hup⟩

/-- All of a way is taken if all of it is. -/
theorem takeWhile_of_all {takes : String → Bool} (h : names.all takes = true) :
    names.takeWhile takes = names :=
  List.takeWhile_eq_self_iff.mpr fun n hn => List.all_eq_true.mp h n hn

/-- An entry whose directories cannot be created. -/
theorem Plain.unprepared (h : Plain top fs) (hlink : e.isLink = false)
    (htarget : target e.path = .ok (names ++ [x])) (hno : ∀ fs₁ q, ¬ Prepared top names fs fs₁ q) :
    .error (layout top (createSteps (placeSteps (top ++ names)) fs).2) =
      overlay isShort (layout top fs) e := by
  obtain ⟨hway, hup⟩ := stripped_of_target htarget
  rw [overlay_snoc hlink hway hup]
  by_cases hclear : Clear (layout top fs) (names.takeWhile isShort)
  · have hlong : ¬ names.all isShort = true := by
      intro hshort
      rw [takeWhile_of_all hshort] at hclear
      obtain ⟨fs', hcreated, -⟩ := h.createSteps_clear hclear hshort
      exact hno _ _ (prepared_of_createSteps h.grounded h.linkFree h.directory hcreated)
    have hlonger : ¬ (names ++ [x]).all isShort = true := by
      rw [List.all_append, Bool.and_eq_true]
      exact fun hall => hlong hall.1
    obtain ⟨fault, fs', hcreated, hlayout⟩ := h.createSteps_tooLong hclear hlong
    rw [if_pos ⟨hclear, fun hall => absurd hall hlonger⟩, if_neg hlonger, hcreated, ← hlayout]
  · obtain ⟨fault, fs', hcreated, hlayout⟩ := h.createSteps_blocked hclear
    rw [if_neg fun hplace => hclear hplace.1, hcreated, ← hlayout]

/-- An entry that cannot take its name. -/
theorem Plain.blocked (h : Plain top fs) (hlink : e.isLink = false)
    (htarget : target e.path = .ok (names ++ [x])) (hprep : Prepared top names fs fs₁ q)
    (hblocks : Blocks e fs₁ q x) :
    .error (layout top fs₁) = overlay isShort (layout top fs) e := by
  obtain ⟨hway, hup⟩ := stripped_of_target htarget
  obtain ⟨hq, hplain, hall, hclear, hlayout⟩ := h.of_prepared hprep
  rw [overlay_snoc hlink hway hup, takeWhile_of_all hall]
  by_cases hwhole : (names ++ [x]).all isShort = true
  · have hend : layout top fs₁ (names ++ [x]) = layout top fs (names ++ [x]) := by
      rw [hlayout, lay_end]
    have hx : isShort x = true := by simpa [hall] using hwhole
    rw [Blocks, hq, List.append_assoc] at hblocks
    rcases hblocks with hlong | ⟨t, ht⟩ | ⟨hkind, hdir⟩
    · rw [isShort, decide_eq_true_eq] at hx
      omega
    · exact absurd ht (hplain.linkFree _ t)
    · have hthere : layout top fs (names ++ [x]) = some .directory := hend.symm.trans hdir
      have hsome : layout top fs (names ++ [x]) ≠ none := by simp [hthere]
      rw [if_neg, hlayout, h.lay_eq_self hsome]
      intro hplace
      have hadmits := hplace.2 hwhole
      rw [hthere, hkind] at hadmits
      exact Bool.false_ne_true hadmits
  · rw [if_pos ⟨hclear, fun hall => absurd hall hwhole⟩, if_neg hwhole, hlayout]

/-- An entry that stands for a directory. -/
theorem Plain.asDirectory (h : Plain top fs) (hlink : e.isLink = false)
    (htarget : target e.path = .ok (names ++ [x])) (hprep : Prepared top names fs fs₁ q)
    (hdir : e.isDirectory = true) (hfree : ¬ Blocks e fs₁ q x) :
    outcome top (createSteps (placeSteps (top ++ (names ++ [x]))) fs₁) =
      overlay isShort (layout top fs) e := by
  obtain ⟨hway, hup⟩ := stripped_of_target htarget
  obtain ⟨hq, hplain, hall, hclear, hlayout⟩ := h.of_prepared hprep
  have hwhole : (names ++ [x]).all isShort = true := by
    have hx : ¬ nameLimit < x.utf8ByteSize := fun hlong => hfree (.inl hlong)
    rw [List.all_append, hall]
    simpa [isShort] using hx
  have hclear' : Clear (layout top fs₁) (names ++ [x]) ↔
      admits true (layout top fs (names ++ [x])) = true := by
    rw [hlayout, clear_concat, lay_end]
    exact and_iff_right (clear_lay _ _)
  rw [overlay_snoc hlink hway hup, takeWhile_of_all hall, hdir, if_pos hwhole]
  by_cases hend : admits true (layout top fs (names ++ [x])) = true
  · obtain ⟨fs', hcreated, -, hlayout'⟩ := hplain.createSteps_clear (hclear'.mpr hend) hwhole
    rw [if_pos ⟨hclear, fun _ => hend⟩, hcreated, outcome, hlayout', hlayout, lay_lay,
      ArchiveEntry.result, if_pos hdir]
  · have hblocked : ¬ Clear (layout top fs₁) ((names ++ [x]).takeWhile isShort) := by
      rw [takeWhile_of_all hwhole]
      exact fun hclear => hend (hclear'.mp hclear)
    obtain ⟨fault, fs', hcreated, hlayout'⟩ := hplain.createSteps_blocked hblocked
    have hsome : layout top fs (names ++ [x]) ≠ none := fun hnone => hend (by rw [hnone]; rfl)
    rw [if_neg fun hplace => hend (hplace.2 hwhole), hcreated, outcome, hlayout', hlayout,
      h.lay_eq_self hsome]

/-- An entry that is a file. -/
theorem Plain.asFile (h : Plain top fs) (hlink : e.isLink = false)
    (htarget : target e.path = .ok (names ++ [x])) (hprep : Prepared top names fs fs₁ q)
    (hfile : e.isDirectory = false) (hshort : x.utf8ByteSize ≤ nameLimit)
    (hspot : fs₁.AtMostFile (q ++ [x]))
    (hwritten : Written (q ++ [x]) (.file e.content e.modified) fs₁ fs') :
    .ok (layout top fs') = overlay isShort (layout top fs) e := by
  obtain ⟨hway, hup⟩ := stripped_of_target htarget
  obtain ⟨hq, -, hall, hclear, hlayout⟩ := h.of_prepared hprep
  have hwhole : (names ++ [x]).all isShort = true := by
    rw [List.all_append, hall]
    simpa [isShort] using hshort
  have hend : layout top fs₁ (names ++ [x]) = layout top fs (names ++ [x]) := by
    rw [hlayout, lay_end]
  have hadmits : admits false (layout top fs (names ++ [x])) = true := by
    rw [AtMostFile, hq, List.append_assoc] at hspot
    rw [← hend]
    rcases hspot with hnone | ⟨content, time, hold⟩
    · rw [layout, hnone]
      rfl
    · rw [layout, hold]
      rfl
  have hlaid : layout top fs' = lay (layout top fs) (names ++ [x]) e.result := by
    rw [← lay_lay, ← hlayout, ArchiveEntry.result, hfile]
    funext front
    rw [layout, hwritten.entry, hq, List.append_assoc, lay]
    -- At the end of the way stands the file, on the way the directories that were prepared.
    by_cases hsame : front = names ++ [x]
    · rw [hsame, if_pos rfl, if_pos rfl]
      rfl
    · rw [if_neg fun hplace => hsame (List.append_cancel_left hplace), if_neg hsame]
      split
      · rename_i hon
        have hfront := (List.prefix_concat_iff.mp hon).resolve_left hsame
        change layout top fs₁ front = _
        rw [hlayout, lay_directory, if_pos hfront]
      · rfl
  rw [overlay_snoc hlink hway hup, takeWhile_of_all hall, hfile,
    if_pos ⟨hclear, fun _ => hadmits⟩, if_pos hwhole, hlaid]

/-- Unpacking an entry leaves what laying it does. -/
theorem Plain.outcome_unpackEntry (h : Plain top fs) (e : ArchiveEntry) :
    outcome top (unpackEntry top e fs) = overlay isShort (layout top fs) e := by
  have hgo := unpackEntry_unpacking h.grounded.tree top e
  generalize unpackEntry top e fs = out at hgo ⊢
  cases hgo with
  | left hleft =>
    have hnothing : e.isLink = true ∨ stripped e.path = [] :=
      hleft.imp_right fun hnil => (stripped_of_target hnil).1
    rw [overlay, if_pos hnothing]
    rfl
  | refused hlink htarget =>
    have hup : ".." ∈ stripped e.path := by
      by_contra hup
      rw [target_eq, if_neg hup] at htarget
      cases htarget
    have hsome : ¬ (e.isLink = true ∨ stripped e.path = []) := by
      rw [hlink, or_iff_right Bool.false_ne_true]
      exact List.ne_nil_of_mem hup
    rw [overlay, if_neg hsome, if_pos (.inl hup)]
    rfl
  | unprepared hlink htarget hno => exact h.unprepared hlink htarget hno
  | blocked hlink htarget hprep hblocks => exact h.blocked hlink htarget hprep hblocks
  | directory hlink htarget hprep hdir hfree =>
    rw [← h.asDirectory hlink htarget hprep hdir hfree]
    rcases (createSteps (placeSteps _) _ : Except FileFault Unit × FileSystem) with ⟨_ | _, _⟩ <;> rfl
  | file hlink htarget hprep hfile hshort hspot hwritten =>
    exact h.asFile hlink htarget hprep hfile hshort hspot hwritten

/-- A directory stays plain when an entry is unpacked into it. -/
theorem Plain.unpacked (h : Plain top fs) (hentry : unpackEntry top e fs = (.ok (), fs')) :
    Plain top fs' := by
  have hsteady := (unpackEntry_unpacking h.grounded.tree top e).steady h.grounded
  rw [hentry] at hsteady
  obtain ⟨-, htrace⟩ := fits_of_ok h.grounded h.linkFree h.directory hentry
  exact ⟨hsteady.grounded, hsteady.directory h.directory, linkFree_of_trace h.linkFree htrace,
    h.short⟩

/-- No entry strays from a directory without links. -/
theorem Plain.not_strays (h : Plain top fs) (e : ArchiveEntry) : ¬ Strays top e fs := by
  intro hstrays
  obtain ⟨-, name, names, -, p, hmissing, hout⟩ := hstrays
  obtain ⟨front, next, rest, d, hway, hfront, hplace, hnone, hshort⟩ := hmissing
  rcases List.append_eq_append_iff.mp hway with ⟨more, hmore, -⟩ | ⟨more, htop, hnames⟩
  · rw [hmore] at hfront
    have hd := hfront.eq_of_linkFree h.grounded.tree h.linkFree h.directory
    apply hout
    rw [hplace, hd, List.append_assoc]
    exact List.prefix_append top _
  · cases more with
    | nil =>
      rw [List.append_nil] at htop
      have hd := hfront.eq_of_directory h.grounded.tree (htop ▸ h.directory)
      apply hout
      rw [hplace, hd, htop]
      exact List.prefix_append front _
    | cons m more =>
      obtain rfl : next = m := (List.cons.inj hnames).1
      exact not_firstMissing_of_directory h.grounded.tree h.directory p
        ⟨front, next, more, d, htop, hfront, hplace, hnone, hshort⟩

/-! ## All entries -/

/-- Unpacking entries leaves what laying them in order does, and nothing differs outside. -/
theorem Plain.unpackEntries_outcome (h : Plain top fs) (entries : List ArchiveEntry) :
    outcome top (unpackEntries top entries fs) =
        entries.foldlM (overlay isShort) (layout top fs) ∧
      SameOutside top fs (unpackEntries top entries fs).2 := by
  induction entries generalizing fs with
  | nil => exact ⟨rfl, fun _ _ => rfl⟩
  | cons e rest ih =>
    have hready : Ready top fs := ⟨h.grounded.tree, _, h.directory⟩
    obtain ⟨hsame, -⟩ := unpackEntry_inside hready (h.not_strays e)
    rw [unpackEntries, List.foldlM_cons, ← h.outcome_unpackEntry e]
    rcases hentry : unpackEntry top e fs with ⟨err | _, fs₁⟩
    · rw [hentry] at hsame
      exact ⟨rfl, hsame⟩
    · rw [hentry] at hsame
      obtain ⟨hfold, hrest⟩ := ih (h.unpacked hentry)
      exact ⟨hfold, hsame.trans hrest⟩

/-- A complete archive is unpacked entry by entry, and then nothing is left to do. -/
theorem unpack_complete {a : Archive} {dir : String} (hcomplete : a.ending = .complete)
    (hdir : fs.canonical dir = .ok top) : a.unpack dir fs = unpackEntries top a.entries fs := by
  simp only [unpack, hdir, hcomplete]
  rcases unpackEntries top a.entries fs with ⟨_ | _, _⟩ <;> rfl

/-- What unpacking an archive in order comes to. -/
structure InOrder (top : Place) (a : Archive) (fs : FileSystem) (out : Fetched) : Prop where
  folds : outcome top out = a.entries.foldlM (overlay isShort) (layout top fs)
  outside : SameOutside top fs out.2
  keeps : ∀ names old, fs.entry? (top ++ names) = some old →
    old = .directory ∨ (∀ e ∈ a.entries, ¬ Writes e names) →
    entry? out.2 (top ++ names) = some old
  last : ∀ before e after names, a.entries = before ++ e :: after → Writes e names →
    (∃ t, (before ++ [e]).foldlM (overlay isShort) (layout top fs) = .ok t) →
    (∀ d ∈ after, ¬ Writes d names) →
    entry? out.2 (top ++ names) = some (.file e.content e.modified)

/-- A mirror with one file. -/
def smallMirror : FileSystem where
  entries := [(["mirror"], .directory), (["mirror", "a.md"], .file "old".toUTF8 0)]
  workingDir := []
  now := 0

/-- The small mirror is a directory without links. -/
theorem plain_smallMirror : Plain ["mirror"] smallMirror where
  grounded := by
    refine ⟨isTree_of_entries fun x hx => ?_, rfl⟩
    simp only [smallMirror, List.mem_cons, List.not_mem_nil, or_false] at hx
    rcases hx with rfl | rfl <;> rfl
  directory := rfl
  linkFree := by
    apply linkFree_of_entries
    intro x hx t
    simp only [smallMirror, List.mem_cons, List.not_mem_nil, or_false] at hx
    rcases hx with rfl | rfl <;> simp
  short := by
    unfold Short
    decide

/-- The small mirror with the file replaced. -/
def updatedMirror : FileSystem :=
  { smallMirror with
    entries := [(["mirror"], .directory), (["mirror", "a.md"], .file "new".toUTF8 1)] }

/-- That mirror with one more directory. -/
def extendedMirror : FileSystem :=
  { updatedMirror with entries := updatedMirror.entries ++ [(["mirror", "sub"], .directory)] }

/-- An archive that replaces that file, wants a directory in its place, and goes on. -/
def contradictory : Archive where
  entries := [⟨"top/./a.md", .file, "new".toUTF8, 1⟩, ⟨"top/sub/", .directory, ByteArray.empty, 1⟩,
    ⟨"top/a.md/", .directory, ByteArray.empty, 1⟩, ⟨"top/late.md", .file, ByteArray.empty, 1⟩]
  ending := .complete

/-- A name of a length. -/
def nameOf (n : ℕ) : String := String.ofList (List.replicate n 'a')

/-- The length of a name is counted in bytes. -/
theorem utf8ByteSize_nameOf (n : ℕ) : (nameOf n).utf8ByteSize = n := by
  rw [nameOf, String.utf8ByteSize_ofList]
  induction n with
  | zero => rfl
  | succ n ih =>
    rw [List.replicate_succ, String.utf8Len_cons, ih]
    rfl

/-- A name of some length is a component on its own. -/
theorem isPlain_nameOf (n : ℕ) : IsPlain (nameOf (n + 1)) := by
  have hchars : (nameOf (n + 1)).toList = 'a' :: List.replicate n 'a' := String.toList_ofList
  constructor
  · rw [hchars, component?, if_neg (by simp), if_neg (by simp), ← hchars, String.ofList_toList]
  · rw [hchars]
    simp [List.mem_replicate]

/-- A file below a directory that is new. -/
def nested (name : String) : ArchiveEntry := ⟨"top/new/" ++ name, .file, ByteArray.empty, 0⟩

/-- The characters of the path of that file. -/
theorem toList_nested (name : String) :
    (nested name).path.toList = "top/new".toList ++ '/' :: name.toList := by
  rw [nested, String.toList_append]
  rfl

/-- The names that lead to that file. -/
theorem stripped_nested (h : IsPlain x) : stripped (nested x).path = ["new"] ++ [x] := by
  have hpieces : pieces '/' (nested x).path.toList = ["top".toList, "new".toList, x.toList] := by
    rw [toList_nested, pieces_append, pieces_of_not_mem h.whole]
    rfl
  rw [stripped, parts, hpieces, isAbsolute, toList_nested]
  simp [part?, h.ne_nil, h.ne_point]

/-- The path of that file does not end in a slash. -/
theorem getLast?_nested (h : IsPlain x) : (nested x).path.toList.getLast? ≠ some '/' := by
  rw [toList_nested, List.getLast?_append_cons, List.getLast?_cons_of_ne_nil h.ne_nil]
  exact fun hslash => h.whole (List.mem_of_getLast? hslash)

/-- That file is laid if its name is taken. Otherwise only the directory is. -/
theorem overlay_nested {takes : String → Bool} {t : Layout} (h : IsPlain x)
    (htakes : takes "new" = true) (hroot : t [] = some .directory) (hnew : t ["new"] = none)
    (hfree : t ["new", x] = none) :
    overlay takes t (nested x) =
      if takes x = true then .ok (lay t ["new", x] (nested x).result)
      else .error (lay t ["new"] .directory) := by
  have hup : ".." ∉ ["new"] ++ [x] := by
    have hx : x ≠ ".." := fun hx => by simpa [hx, component?] using h.part
    simpa using hx.symm
  have hclear : Clear t ["new"] := by
    rw [← List.nil_append ["new"], clear_concat, List.nil_append, hnew, clear_iff]
    refine ⟨fun front hfront => ?_, rfl⟩
    rw [List.prefix_nil.mp hfront, hroot]
    rfl
  have hend : admits (nested x).isDirectory (t (["new"] ++ [x])) = true := by
    change admits _ (t ["new", x]) = true
    rw [hfree]
    rfl
  have hfirst : ["new"].takeWhile takes = ["new"] := by simp [htakes]
  have hall : (["new"] ++ [x]).all takes = takes x := by simp [htakes]
  rw [overlay_snoc rfl (stripped_nested h) hup, hfirst, if_pos ⟨hclear, fun _ => hend⟩, hall]
  rfl

end Repertoire.Archive
