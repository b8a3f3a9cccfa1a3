import Repertoire.Proofs.Catalog.Unpacking
import Repertoire.Proofs.FileSystem.LinkFree

/-!
# Unpacking as an overlay

Where there are no links, an entry that can be unpacked leaves a trace that does not depend on what
was there before: itself at the end of its names, and directories on the way. So entries in order
lie over what was there like layers, the last one on top, and nothing that was there is taken away.
Whether an entry can be unpacked does depend on what was there. The more there is, the fewer entries
can be.
-/

namespace Repertoire

/-- What becomes of an entry that is unpacked. -/
def ArchiveEntry.result (e : ArchiveEntry) : Entry :=
  if e.isDirectory then .directory else .file e.content e.modified

namespace Archive

open Repertoire.FileSystem

variable {top : Place} {fs fs₁ fs' : FileSystem} {names : List String} {x : String}
  {e : ArchiveEntry} {entries : List ArchiveEntry}

/-- What an entry leaves at names from the target, if it leaves anything there. -/
def trace (e : ArchiveEntry) (names : List String) : Option Entry :=
  if e.isLink = true ∨ names = [] then none
  else
    match target e.path with
    | .error _ => none
    | .ok way =>
      if names = way then some e.result
      else if names <+: way then some .directory
      else none

/-- What entries in order leave at names from the target: what the last one leaves that leaves
anything there. -/
def traces : List ArchiveEntry → List String → Option Entry
  | [], _ => none
  | e :: rest, names => (traces rest names).or (trace e names)

/-- An entry can be unpacked where there are no links. -/
def Fits (top : Place) (e : ArchiveEntry) (fs : FileSystem) : Prop :=
  e.isLink = true ∨ target e.path = .ok [] ∨
    ∃ names x, target e.path = .ok (names ++ [x]) ∧ Short (top ++ (names ++ [x])) ∧
      (∀ q, OnWay top names q → fs.entry? q = none ∨ fs.entry? q = some .directory) ∧
      (e.isDirectory = true → fs.entry? (top ++ (names ++ [x])) = none ∨
        fs.entry? (top ++ (names ++ [x])) = some .directory) ∧
      (e.isDirectory = false → fs.AtMostFile (top ++ (names ++ [x])))

/-! ## Traces -/

/-- The trace of an entry on the way to it. -/
theorem trace_onWay (hlink : e.isLink = false) (htarget : target e.path = .ok (names ++ [x]))
    {front : List String} (h : OnWay top names (top ++ front)) : trace e front = some .directory := by
  obtain ⟨front', hne, hfront, hsame⟩ := h
  obtain rfl := List.append_cancel_left hsame
  have hlen := hfront.length_le
  have hend : front ≠ names ++ [x] := by
    rintro rfl
    simp only [List.length_append, List.length_singleton] at hlen
    omega
  have hlong : front <+: names ++ [x] := hfront.trans (List.prefix_append names [x])
  simp only [trace, hlink, htarget, hne, hend, hlong, or_self, if_false, if_true, Bool.false_eq_true]

/-- The trace of an entry at the end of its names. -/
theorem trace_end (hlink : e.isLink = false) (htarget : target e.path = .ok (names ++ [x])) :
    trace e (names ++ [x]) = some e.result := by
  simp [trace, hlink, htarget]

/-- An entry leaves no trace off its way. -/
theorem trace_offWay (htarget : target e.path = .ok (names ++ [x])) {front : List String}
    (h : ¬ OnWay top (names ++ [x]) (top ++ front)) : trace e front = none := by
  rw [trace]
  split
  · rfl
  · rename_i hsome
    have hne : front ≠ [] := fun hnil => hsome (.inr hnil)
    have hoff : ¬ front <+: names ++ [x] := fun hfront => h ⟨front, hne, hfront, rfl⟩
    have hend : front ≠ names ++ [x] := fun heq => hoff (heq ▸ List.prefix_rfl)
    simp only [htarget, hend, hoff, if_false]

/-- Entries that are left out leave no trace. -/
theorem trace_left (h : e.isLink = true ∨ target e.path = .ok []) (names : List String) :
    trace e names = none := by
  rw [trace]
  split
  · rfl
  · rename_i hsome
    rw [not_or] at hsome
    simp only [h.resolve_left hsome.1, hsome.2, List.prefix_nil, if_false]

/-- No trace is a link. -/
theorem trace_ne_link (e : ArchiveEntry) (names : List String) (t : String) :
    trace e names ≠ some (.link t) := by
  intro h
  rw [trace] at h
  split at h
  · simp at h
  · split at h
    · simp at h
    · split at h
      · rw [ArchiveEntry.result] at h
        split at h <;> simp at h
      · split at h <;> simp at h

/-- A trace leaves no links behind where there were none. -/
theorem linkFree_of_trace (hfree : LinkFree top fs)
    (h : ∀ names, fs'.entry? (top ++ names) = (trace e names).or (fs.entry? (top ++ names))) :
    LinkFree top fs' := by
  intro names t hlink
  rw [h] at hlink
  cases htrace : trace e names with
  | none =>
    rw [htrace, Option.none_or] at hlink
    exact hfree names t hlink
  | some new =>
    rw [htrace, Option.some_or] at hlink
    exact trace_ne_link e names t (htrace.trans hlink)

/-! ## One entry -/

/-- An entry is prepared once the directories on its way were created. -/
theorem prepared_of_createSteps (hfs : fs.Grounded) (hfree : LinkFree top fs)
    (htop : fs.entry? top = some .directory)
    (h : createSteps (placeSteps (top ++ names)) fs = (.ok (), fs₁)) :
    Prepared top names fs fs₁ (top ++ names) :=
  ⟨h, (arrived_of_createSteps hfs hfree htop h).leadsTo, List.prefix_append top names⟩

/-- The way to an entry leads where its names say. -/
theorem Prepared.eq_of_linkFree {q : Place} (hfs : fs.Grounded) (hfree : LinkFree top fs)
    (htop : fs.entry? top = some .directory) (h : Prepared top names fs fs₁ q) :
    q = top ++ names :=
  h.leadsTo.unique (arrived_of_createSteps hfs hfree htop h.created).leadsTo

/-- A directory that was unpacked fits, and all it changed is its trace. -/
theorem fits_directory {q : Place} (hfs : fs.Grounded) (hfree : LinkFree top fs)
    (htop : fs.entry? top = some .directory) (hlink : e.isLink = false)
    (htarget : target e.path = .ok (names ++ [x])) (hprep : Prepared top names fs fs₁ q)
    (hkind : e.isDirectory = true)
    (h : createSteps (placeSteps (top ++ (names ++ [x]))) fs₁ = (.ok (), fs')) :
    Fits top e fs ∧
      ∀ front, fs'.entry? (top ++ front) = (trace e front).or (fs.entry? (top ++ front)) := by
  have hway := laid_of_createSteps hfs hfree htop hprep.created
  obtain ⟨hfs₁, hfree₁, htop₁, -⟩ := arrived_of_createSteps hfs hfree htop hprep.created
  have hall := laid_of_createSteps hfs₁ hfree₁ htop₁ h
  have hend := hall.free _ (onWay_snoc.mpr (.inr rfl))
  rw [hway.rest _ not_onWay_end] at hend
  refine ⟨.inr (.inr ⟨names, x, htarget, hall.short, hway.free, fun _ => hend, fun hfile => ?_⟩),
    fun front => ?_⟩
  · rw [hkind] at hfile
    exact absurd hfile (by simp)
  · by_cases hon : OnWay top (names ++ [x]) (top ++ front)
    · rw [hall.laid _ hon]
      rcases onWay_snoc.mp hon with hbefore | hlast
      · rw [trace_onWay hlink htarget hbefore, Option.some_or]
      · obtain rfl := List.append_cancel_left hlast
        rw [trace_end hlink htarget, ArchiveEntry.result, if_pos hkind, Option.some_or]
    · rw [trace_offWay htarget hon, Option.none_or, hall.rest _ hon]
      exact hway.rest _ fun hbefore => hon (onWay_snoc.mpr (.inl hbefore))

/-- A file that was unpacked fits, and all it changed is its trace. -/
theorem fits_file (hfs : fs.Grounded) (hfree : LinkFree top fs)
    (htop : fs.entry? top = some .directory) (hlink : e.isLink = false)
    (htarget : target e.path = .ok (names ++ [x]))
    (hprep : Prepared top names fs fs₁ (top ++ names)) (hkind : e.isDirectory = false)
    (hshort : x.utf8ByteSize ≤ nameLimit) (hspot : fs₁.AtMostFile (top ++ names ++ [x]))
    (h : Written (top ++ names ++ [x]) (.file e.content e.modified) fs₁ fs') :
    Fits top e fs ∧
      ∀ front, fs'.entry? (top ++ front) = (trace e front).or (fs.entry? (top ++ front)) := by
  have hway := laid_of_createSteps hfs hfree htop hprep.created
  have hwritten := h.entry
  rw [List.append_assoc] at hspot hwritten
  rw [AtMostFile, hway.rest _ not_onWay_end] at hspot
  have hall : Short (top ++ (names ++ [x])) := by
    rw [← List.append_assoc]
    exact short_snoc.mpr ⟨hway.short, hshort⟩
  refine ⟨.inr (.inr ⟨names, x, htarget, hall, hway.free, fun hdir => ?_, fun _ => hspot⟩),
    fun front => ?_⟩
  · rw [hkind] at hdir
    exact absurd hdir (by simp)
  · rw [hwritten]
    -- At the end of the way stands the file, on the way are directories, and off it nothing
    -- changed.
    by_cases hend : top ++ front = top ++ (names ++ [x])
    · obtain rfl := List.append_cancel_left hend
      rw [if_pos rfl, trace_end hlink htarget, ArchiveEntry.result, hkind, if_neg (by simp),
        Option.some_or]
    · rw [if_neg hend]
      by_cases hon : OnWay top names (top ++ front)
      · rw [hway.laid _ hon, trace_onWay hlink htarget hon, Option.some_or]
      · have hoff : ¬ OnWay top (names ++ [x]) (top ++ front) := fun h =>
          (onWay_snoc.mp h).elim hon hend
        rw [hway.rest _ hon, trace_offWay htarget hoff, Option.none_or]

/-- An entry that was unpacked fits, and all it changed is its trace. -/
theorem fits_of_ok (hfs : fs.Grounded) (hfree : LinkFree top fs)
    (htop : fs.entry? top = some .directory) (h : unpackEntry top e fs = (.ok (), fs')) :
    Fits top e fs ∧
      ∀ front, fs'.entry? (top ++ front) = (trace e front).or (fs.entry? (top ++ front)) := by
  have hgo := unpackEntry_unpacking hfs.tree top e
  generalize hout : unpackEntry top e fs = out at hgo
  rw [h] at hout
  cases hgo with
  | left hleft =>
    obtain rfl : fs' = fs := congrArg Prod.snd hout
    refine ⟨hleft.imp_right .inl, fun front => ?_⟩
    rw [trace_left hleft, Option.none_or]
  | refused => cases congrArg Prod.fst hout
  | unprepared => cases congrArg Prod.fst hout
  | blocked => cases congrArg Prod.fst hout
  | @directory names x fs₁ q hlink htarget hprep hkind =>
    refine fits_directory hfs hfree htop hlink htarget hprep hkind ?_
    rcases hcreate : (createSteps (placeSteps (top ++ (names ++ [x]))) fs₁ :
      Except FileFault Unit × FileSystem) with ⟨fault | _, fs₂⟩
    · rw [hcreate] at hout
      cases congrArg Prod.fst hout
    · rw [hcreate] at hout
      rw [show fs' = fs₂ from congrArg Prod.snd hout]
  | file hlink htarget hprep hkind hshort hspot hwritten =>
    obtain rfl : fs' = _ := congrArg Prod.snd hout
    obtain rfl := hprep.eq_of_linkFree hfs hfree htop
    exact fits_file hfs hfree htop hlink htarget hprep hkind hshort hspot hwritten

/-- An entry that fits can be unpacked. -/
theorem ok_of_fits (hfs : fs.Grounded) (hfree : LinkFree top fs)
    (htop : fs.entry? top = some .directory) (h : Fits top e fs) :
    ∃ fs', unpackEntry top e fs = (.ok (), fs') := by
  rcases h with hlink | hnil | ⟨names, x, htarget, hshort, hway, hdir, hfile⟩
  · exact ⟨fs, by simp [unpackEntry, hlink]⟩
  · refine ⟨fs, ?_⟩
    rw [unpackEntry]
    split
    · rfl
    · simp only [hnil]
  have hfront : Short (top ++ names) := by
    rw [← List.append_assoc] at hshort
    exact (short_snoc.mp hshort).1
  -- The way is free, so its directories are created. What stands at its end is as before.
  obtain ⟨fs₁, hcreated⟩ := createSteps_ok hfs hfree htop hfront hway
  have hlaid := laid_of_createSteps hfs hfree htop hcreated
  obtain ⟨hfs₁, hfree₁, htop₁, -⟩ := arrived_of_createSteps hfs hfree htop hcreated
  have hprep : Prepared top names fs fs₁ (top ++ names) :=
    prepared_of_createSteps hfs hfree htop hcreated
  have hopen : ¬ Blocks e fs₁ (top ++ names) x := by
    rw [Blocks, List.append_assoc]
    rintro (hlong | ⟨t, hlink⟩ | ⟨hkind, hentry⟩)
    · rw [← List.append_assoc] at hshort
      exact absurd (short_snoc.mp hshort).2 (Nat.not_le.mpr hlong)
    · exact hfree₁ _ t hlink
    · rw [hlaid.rest _ not_onWay_end] at hentry
      rcases hfile hkind with hnone | ⟨_, _, hold⟩
      · simp [hnone] at hentry
      · simp [hold] at hentry
  -- Every way of failing contradicts what is known about the way or its end.
  have hgo := unpackEntry_unpacking hfs.tree top e
  generalize unpackEntry top e fs = out at hgo ⊢
  cases hgo with
  | left => exact ⟨fs, rfl⟩
  | refused hlink htarget' =>
    rw [htarget] at htarget'
    simp at htarget'
  | unprepared hlink htarget' hno =>
    obtain ⟨rfl, hx⟩ := List.append_inj' (Except.ok.inj (htarget.symm.trans htarget')) rfl
    exact absurd hprep (hno _ _)
  | blocked hlink htarget' hprep' hblocks =>
    obtain ⟨rfl, hx⟩ := List.append_inj' (Except.ok.inj (htarget.symm.trans htarget')) rfl
    obtain rfl := List.singleton_inj.mp hx
    obtain ⟨rfl, rfl⟩ := hprep.unique hprep'
    exact absurd hblocks hopen
  | directory hlink htarget' hprep' hkind =>
    obtain ⟨rfl, hx⟩ := List.append_inj' (Except.ok.inj (htarget.symm.trans htarget')) rfl
    obtain rfl := List.singleton_inj.mp hx
    obtain ⟨rfl, rfl⟩ := hprep.unique hprep'
    obtain ⟨fs₂, hlast⟩ := createSteps_ok hfs₁ hfree₁ htop₁ hshort fun q hq => by
      rcases onWay_snoc.mp hq with hbefore | rfl
      · exact .inr (hlaid.laid q hbefore)
      · rw [hlaid.rest _ not_onWay_end]
        exact hdir hkind
    exact ⟨fs₂, by rw [hlast]; rfl⟩
  | file => exact ⟨_, rfl⟩

/-! ## All entries -/

/-- There is less at a place and below it: where there is nothing, at most a directory, or at most a
file on the other side, there is so on this side too. -/
structure Sparser (top : Place) (fs fs' : FileSystem) : Prop where
  missing : ∀ names, fs'.entry? (top ++ names) = none → fs.entry? (top ++ names) = none
  directory : ∀ names, fs'.entry? (top ++ names) = some .directory →
    fs.entry? (top ++ names) = none ∨ fs.entry? (top ++ names) = some .directory
  file : ∀ names, fs'.AtMostFile (top ++ names) → fs.AtMostFile (top ++ names)

/-- What fits where there is more fits where there is less. -/
theorem Fits.of_sparser (hless : Sparser top fs fs') (h : Fits top e fs') : Fits top e fs := by
  have hdirectory (front : List String) (h : fs'.entry? (top ++ front) = none ∨
      fs'.entry? (top ++ front) = some .directory) :
      fs.entry? (top ++ front) = none ∨ fs.entry? (top ++ front) = some .directory :=
    h.elim (fun hnone => .inl (hless.missing front hnone)) (hless.directory front)
  rcases h with hlink | hnil | ⟨names, x, htarget, hshort, hway, hdir, hfile⟩
  · exact .inl hlink
  · exact .inr (.inl hnil)
  · refine .inr (.inr ⟨names, x, htarget, hshort, fun q hq => ?_,
      fun hkind => hdirectory _ (hdir hkind), fun hkind => hless.file _ (hfile hkind)⟩)
    obtain ⟨front, hne, hfront, rfl⟩ := hq
    exact hdirectory front (hway _ ⟨front, hne, hfront, rfl⟩)

/-- The same trace on both sides leaves less where there was less. -/
theorem Sparser.of_trace {fs₂ fs₂' : FileSystem} (hless : Sparser top fs fs')
    (h : ∀ names, fs₂.entry? (top ++ names) = (trace e names).or (fs.entry? (top ++ names)))
    (h' : ∀ names, fs₂'.entry? (top ++ names) = (trace e names).or (fs'.entry? (top ++ names))) :
    Sparser top fs₂ fs₂' := by
  refine ⟨fun names => ?_, fun names => ?_, fun names => ?_⟩
  · rw [h, h']
    cases trace e names with
    | none => exact hless.missing names
    | some new => exact id
  · rw [h, h']
    cases trace e names with
    | none => exact hless.directory names
    | some new => exact .inr
  · rw [AtMostFile, AtMostFile, h, h']
    cases trace e names with
    | none => exact hless.file names
    | some new => exact id

/-- Entries that were unpacked lie over what was there. -/
theorem unpackEntries_overlay (hfs : fs.Grounded) (hfree : LinkFree top fs)
    (htop : fs.entry? top = some .directory) (h : unpackEntries top entries fs = (.ok (), fs')) :
    LinkFree top fs' ∧ ∀ names,
      fs'.entry? (top ++ names) = (traces entries names).or (fs.entry? (top ++ names)) := by
  induction entries generalizing fs with
  | nil =>
    obtain rfl : fs = fs' := congrArg Prod.snd h
    exact ⟨hfree, fun names => by rw [traces, Option.none_or]⟩
  | cons e rest ih =>
    have hsteady := (unpackEntry_unpacking hfs.tree top e).steady hfs
    rw [unpackEntries] at h
    rcases hentry : unpackEntry top e fs with ⟨err | _, fs₁⟩
    · rw [hentry] at h
      cases congrArg Prod.fst h
    · rw [hentry] at h hsteady
      obtain ⟨-, htrace⟩ := fits_of_ok hfs hfree htop hentry
      obtain ⟨hfree', hrest⟩ := ih hsteady.grounded (linkFree_of_trace hfree htrace)
        (hsteady.directory htop) h
      refine ⟨hfree', fun names => ?_⟩
      rw [hrest, htrace, traces, Option.or_assoc]

/-- Entries that could be unpacked where there was more can be unpacked where there is less. -/
theorem unpackEntries_of_sparser {fs₂ : FileSystem} (hfs : fs.Grounded) (hfree : LinkFree top fs)
    (htop : fs.entry? top = some .directory) (hfs' : fs'.Grounded) (hfree' : LinkFree top fs')
    (htop' : fs'.entry? top = some .directory) (hless : Sparser top fs fs')
    (h : unpackEntries top entries fs' = (.ok (), fs₂)) :
    ∃ fs₁, unpackEntries top entries fs = (.ok (), fs₁) := by
  induction entries generalizing fs fs' with
  | nil => exact ⟨fs, rfl⟩
  | cons e rest ih =>
    rw [unpackEntries] at h
    rcases hentry' : unpackEntry top e fs' with ⟨err | _, fs₁'⟩
    · rw [hentry'] at h
      cases congrArg Prod.fst h
    · obtain ⟨hfits, htrace'⟩ := fits_of_ok hfs' hfree' htop' hentry'
      obtain ⟨fs₁, hentry⟩ := ok_of_fits hfs hfree htop (hfits.of_sparser hless)
      obtain ⟨-, htrace⟩ := fits_of_ok hfs hfree htop hentry
      have hsteady := (unpackEntry_unpacking hfs.tree top e).steady hfs
      have hsteady' := (unpackEntry_unpacking hfs'.tree top e).steady hfs'
      rw [hentry] at hsteady
      rw [hentry'] at h hsteady'
      obtain ⟨fs₃, hrest⟩ := ih hsteady.grounded (linkFree_of_trace hfree htrace)
        (hsteady.directory htop) hsteady'.grounded (linkFree_of_trace hfree' htrace')
        (hsteady'.directory htop') (hless.of_trace htrace htrace') h
      exact ⟨fs₃, by rw [unpackEntries, hentry]; exact hrest⟩

end Archive

end Repertoire
