import Repertoire.Proofs.FileSystem.Creation

/-!
# Creating the directories on any path

A path may start anywhere, run through links, and step up again. Creating the directories on it
does nothing if it leads to a directory already, and otherwise, if it succeeds, makes it lead to
one. That one is empty, with one exception: when a step up stands behind something that is missing,
the path may come out at a directory that was there all along and could not be reached.
-/

namespace Repertoire.FileSystem

open Repertoire.Path

variable {fs fs' : FileSystem} {d d' : Place} {path front : List Component} {c : Component}
  {x : String}

/-- A tree in which relative paths start from a directory. -/
structure Grounded (fs : FileSystem) : Prop where
  tree : fs.IsTree
  home : fs.entry? fs.workingDir = some .directory

/-- A step up, or back to the root, stands behind steps that lead to no directory. -/
def Climbs (fs : FileSystem) (path : List Component) : Prop :=
  ∃ front c rest, path = front ++ c :: rest ∧ (c = .parent ∨ c = .root) ∧
    ∀ d, ¬ fs.StepsTo front d

/-- Nothing stands in a directory. -/
def IsEmptyAt (fs : FileSystem) (d : Place) : Prop := ∀ n, fs.entry? (d ++ [n]) = none

/-- Below an empty directory there is nothing. -/
theorem IsEmptyAt.below {names : List String} (htree : fs.IsTree) (h : fs.IsEmptyAt d)
    (hne : names ≠ []) : fs.entry? (d ++ names) = none := by
  obtain ⟨n, rest, rfl⟩ := List.exists_cons_of_ne_nil hne
  exact htree.missing_below (h n) ⟨rest, by simp⟩

/-! ## Steps -/

/-- Where steps lead is unique. -/
theorem StepsTo.unique (h : fs.StepsTo path d) (h' : fs.StepsTo path d') : d = d' :=
  Except.ok.inj (h.1.symm.trans h'.1)

/-- Steps whose front leads to a directory go on from there. -/
theorem StepsTo.append (hfs : fs.Grounded) (h : fs.StepsTo front d) :
    ∃ j, ∀ followLast rest, rest ≠ [] →
      fs.resolveSteps followLast (front ++ rest) = fs.follow followLast j d rest :=
  follow_append hfs.tree hfs.home h.1 h.2

/-- Steps whose front leads to no directory lead nowhere. -/
theorem resolveSteps_of_not_stepsTo (hfs : fs.Grounded) (h : ∀ d, ¬ fs.StepsTo front d)
    (followLast : Bool) {rest : List Component} (hrest : rest ≠ []) :
    ∃ fault, fs.resolveSteps followLast (front ++ rest) = .error fault :=
  follow_append_error hfs.tree hfs.home (fun d hd hdir => h d ⟨hd, hdir⟩) followLast hrest

/-- Steps whose front leads to no directory lead to none. -/
theorem not_stepsTo_append (hfs : fs.Grounded) (h : ∀ d, ¬ fs.StepsTo front d)
    {rest : List Component} (hrest : rest ≠ []) (d : Place) : ¬ fs.StepsTo (front ++ rest) d := by
  intro hd
  obtain ⟨fault, hfault⟩ := resolveSteps_of_not_stepsTo hfs h true hrest
  rw [hd.1] at hfault
  exact absurd hfault (by simp)

/-- No steps at all stay where relative paths start. -/
theorem stepsTo_nil (hfs : fs.Grounded) : fs.StepsTo [] fs.workingDir := by
  refine ⟨?_, hfs.home⟩
  obtain ⟨onLink, hwalk⟩ := follow_eq_walk fs true linkLimit
  rw [resolveSteps, hwalk, walk]

/-- Where a step that is no name leads from a directory. -/
def turn (d : Place) : Component → Place
  | .root => []
  | .parent => d.dropLast
  | _ => d

/-- A step that is no name leads from a directory to a directory, whether links are followed or
not. -/
theorem StepsTo.turn (hfs : fs.Grounded) (h : fs.StepsTo front d) (hc : ∀ n, c ≠ .name n) :
    fs.resolveSteps false (front ++ [c]) = .ok (turn d c) ∧
      fs.StepsTo (front ++ [c]) (turn d c) := by
  obtain ⟨j, hgo⟩ := h.append hfs
  have hplace (followLast : Bool) :
      fs.resolveSteps followLast (front ++ [c]) = .ok (FileSystem.turn d c) := by
    obtain ⟨onLink, hwalk⟩ := follow_eq_walk fs followLast j
    rw [hgo followLast [c] (by simp), hwalk]
    cases c with
    | name n => exact absurd rfl (hc n)
    | _ => rfl
  refine ⟨hplace false, hplace true, ?_⟩
  cases c with
  | root => exact entry?_nil fs
  | here => exact h.2
  | parent => exact hfs.tree.dropLast h.2
  | name n => exact absurd rfl (hc n)

/-- A name that is missing in a directory leads to no directory. -/
theorem StepsTo.not_missing (hfs : fs.Grounded) (h : fs.StepsTo front d)
    (hmissing : fs.entry? (d ++ [x]) = none) (d' : Place) :
    ¬ fs.StepsTo (front ++ [.name x]) d' := by
  obtain ⟨j, hgo⟩ := h.append hfs
  obtain ⟨onLink, hwalk⟩ := follow_eq_walk fs true j
  intro hd'
  have hend := hd'.1
  rw [hgo true [.name x] (by simp), hwalk, walk, hmissing] at hend
  split at hend
  · simp at hend
  · obtain rfl : d ++ [x] = d' := by simpa using hend
    rw [hd'.2] at hmissing
    exact absurd hmissing (by simp)

/-- Steps lead where they led after growth. -/
theorem StepsTo.of_growsBelow {below : Place} (hgrow : GrowsBelow below fs fs')
    (hhome : fs'.workingDir = fs.workingDir) (h : fs.StepsTo path d) : fs'.StepsTo path d := by
  refine ⟨?_, hgrow.keeps h.2⟩
  rw [resolveSteps, hhome]
  exact follow_of_growsBelow hgrow h.2 h.1

/-- A directory in the directory that steps lead to. -/
theorem StepsTo.snoc (hfs : fs.Grounded) (h : fs.StepsTo front d)
    (hdir : fs.entry? (d ++ [x]) = some .directory) (hshort : x.utf8ByteSize ≤ nameLimit) :
    fs.StepsTo (front ++ [.name x]) (d ++ [x]) := by
  obtain ⟨j, hgo⟩ := h.append hfs
  obtain ⟨onLink, hwalk⟩ := follow_eq_walk fs true j
  refine ⟨?_, hdir⟩
  rw [hgo true [.name x] (by simp), follow_directory hdir hshort, hwalk, walk]

/-! ## The last directory of a path -/

/-- A directory put into a directory where nothing stands is one more directory on the way of
relative and absolute paths alike. -/
theorem Grounded.putDirectory (hfs : fs.Grounded) (hd : fs.entry? d = some .directory)
    (hmissing : fs.entry? (d ++ [x]) = none) : (fs.put (d ++ [x]) .directory).Grounded := by
  refine ⟨hfs.tree.putDirectory hmissing (by rw [List.dropLast_concat]; exact hd), ?_⟩
  rw [put_workingDir]
  exact (growsBelow_put hmissing List.prefix_rfl).keeps hfs.home

/-- What becomes of the last directory of a path whose front leads to a directory: it is there, or
it is missing and gets created, or something stands in its way. -/
inductive LastDirectory (fs : FileSystem) (path : List Component) :
    Except FileFault Unit × FileSystem → Prop
  | there {d : Place} (hd : fs.StepsTo path d) : LastDirectory fs path (.ok (), fs)
  | created {d : Place} {x : String} (hd : fs.entry? d = some .directory)
      (hmissing : fs.entry? (d ++ [x]) = none) (hno : ∀ d, ¬ fs.StepsTo path d)
      (hlast : (fs.put (d ++ [x]) .directory).StepsTo path (d ++ [x])) :
      LastDirectory fs path (.ok (), fs.put (d ++ [x]) .directory)
  | refused {fault : FileFault} (hno : ∀ d, ¬ fs.StepsTo path d) :
      LastDirectory fs path (.error fault, fs)

/-- Where no directory can be created, one is there or something stands in its way. -/
theorem lastDirectory_of_error {fault : FileFault}
    (h : fs.createDirectory path = (.error fault, fs)) :
    LastDirectory fs path (fs.ensureDirectory path) := by
  rw [ensureDirectory_eq h]
  by_cases hdir : fs.isDirectoryAt path = true
  · obtain ⟨d, hd⟩ := (isDirectoryAt_iff fs path).mp hdir
    rw [if_pos hdir]
    exact .there hd
  · rw [if_neg hdir]
    exact .refused fun d hd => hdir ((isDirectoryAt_iff fs path).mpr ⟨d, hd⟩)

/-- Creating the last directory of a path whose front leads to a directory. -/
theorem StepsTo.last (hfs : fs.Grounded) (h : fs.StepsTo front d) (c : Component) :
    (fs.createDirectory (front ++ [c])).1 ≠ .error .missing ∧
      LastDirectory fs (front ++ [c]) (fs.ensureDirectory (front ++ [c])) := by
  -- A step that is no name leads to a directory that stands already.
  by_cases hc : ∀ n, c ≠ .name n
  · obtain ⟨hplace, hthere⟩ := h.turn hfs hc
    have hcreate : fs.createDirectory (front ++ [c]) = (.error .alreadyThere, fs) := by
      rw [createDirectory, hplace]
      simp only [hthere.2]
    exact ⟨by simp [hcreate], lastDirectory_of_error hcreate⟩
  · obtain ⟨x, rfl⟩ : ∃ x, c = .name x := by simpa using hc
    obtain ⟨j, hgo⟩ := h.append hfs
    have hcreate := createDirectory_name (hgo false [.name x] (by simp))
    by_cases hlong : nameLimit < x.utf8ByteSize
    · rw [if_pos hlong] at hcreate
      exact ⟨by simp [hcreate], lastDirectory_of_error hcreate⟩
    · rw [if_neg hlong] at hcreate
      cases hentry : fs.entry? (d ++ [x]) with
      | some e =>
        rw [hentry] at hcreate
        exact ⟨by simp [hcreate], lastDirectory_of_error hcreate⟩
      | none =>
        rw [hentry] at hcreate
        refine ⟨by simp [hcreate], ?_⟩
        have hout : fs.ensureDirectory (front ++ [.name x]) =
            (.ok (), fs.put (d ++ [x]) .directory) := by rw [ensureDirectory, hcreate]
        rw [hout]
        have hgrow : GrowsBelow (d ++ [x]) fs (fs.put (d ++ [x]) .directory) :=
          growsBelow_put hentry List.prefix_rfl
        have hdir : entry? (fs.put (d ++ [x]) .directory) (d ++ [x]) = some .directory := by
          rw [entry?_put fs (by simp), if_pos rfl]
        refine .created h.2 hentry (h.not_missing hfs hentry) ?_
        exact (h.of_growsBelow hgrow (put_workingDir ..)).snoc (hfs.putDirectory h.2 hentry) hdir
          (Nat.not_lt.mp hlong)

/-! ## All directories -/

/-- What creating the directories on a path comes to. -/
structure Making (fs : FileSystem) (path : List Component)
    (out : Except FileFault Unit × FileSystem) : Prop where
  grounded : out.2.Grounded
  now : out.2.now = fs.now
  there : ∀ d, fs.StepsTo path d → out = (.ok (), fs)
  made : out.1 = .ok () → (∀ d, ¬ fs.StepsTo path d) →
    ∃ d, out.2.StepsTo path d ∧ (¬ fs.Climbs path → out.2.IsEmptyAt d)
  failed : out.1 ≠ .ok () → ∀ d, ¬ out.2.StepsTo path d

/-- What stands behind a climb is one too. -/
theorem Climbs.append (h : fs.Climbs front) (rest : List Component) :
    fs.Climbs (front ++ rest) := by
  obtain ⟨before, c, behind, rfl, hc, hno⟩ := h
  exact ⟨before, c, behind ++ rest, by simp, hc, hno⟩

/-- A directory that was just put where nothing stood is empty. -/
theorem isEmptyAt_put (htree : fs.IsTree) (hmissing : fs.entry? (d ++ [x]) = none) :
    (fs.put (d ++ [x]) .directory).IsEmptyAt (d ++ [x]) := by
  intro n
  rw [entry?_put fs (by simp), if_neg (by simp)]
  exact htree.missing_below hmissing (List.prefix_append _ _)

/-- The last directory of a path whose front leads to a directory. -/
theorem making_of_lastDirectory (hfs : fs.Grounded) {out : Except FileFault Unit × FileSystem}
    (h : LastDirectory fs path out) : Making fs path out := by
  cases h with
  | there hd =>
    exact ⟨hfs, rfl, fun _ _ => rfl, fun _ hno => absurd hd (hno _), fun hfail => absurd rfl hfail⟩
  | created hd hmissing hno hlast =>
    exact ⟨hfs.putDirectory hd hmissing, put_now .., fun d hthere => absurd hthere (hno d),
      fun _ _ => ⟨_, hlast, fun _ => isEmptyAt_put hfs.tree hmissing⟩,
      fun hfail => absurd rfl hfail⟩
  | refused hno =>
    exact ⟨hfs, rfl, fun d hthere => absurd hthere (hno d), fun hok => by simp at hok,
      fun _ => hno⟩

/-- One more directory, after the front of the path was made to lead to a directory. It can only be
there already if the last step leads up, or stays. -/
theorem making_after_front (hmake : Making fs front (.ok (), fs'))
    (hno : ∀ d, ¬ fs.StepsTo front d) (hnever : ∀ d, ¬ fs.StepsTo (front ++ [c]) d)
    {out : Except FileFault Unit × FileSystem} (h : LastDirectory fs' (front ++ [c]) out) :
    Making fs (front ++ [c]) out := by
  obtain ⟨d₀, hd₀, hempty⟩ := hmake.made rfl hno
  have hfs' : fs'.Grounded := hmake.grounded
  have hlater := making_of_lastDirectory hfs' h
  refine ⟨hlater.grounded, hlater.now.trans hmake.now, fun d hd => absurd hd (hnever d),
    fun hok _ => ?_, hlater.failed⟩
  cases h with
  | there hd =>
    refine ⟨_, hd, fun hclimbs => ?_⟩
    have hfront : fs'.IsEmptyAt d₀ := hempty fun hup => hclimbs (hup.append [c])
    cases c with
    | root => exact absurd ⟨front, .root, [], rfl, .inr rfl, hno⟩ hclimbs
    | parent => exact absurd ⟨front, .parent, [], rfl, .inl rfl, hno⟩ hclimbs
    | here =>
      have hstay := (hd₀.turn hfs' (c := .here) (by simp)).2
      exact hd.unique hstay ▸ hfront
    | name x => exact absurd hd (hd₀.not_missing hfs' (hfront x) _)
  | created hd hmissing _ hlast =>
    exact ⟨_, hlast, fun _ => isEmptyAt_put hfs'.tree hmissing⟩
  | refused => simp at hok

/-- Creating the directories on a path. The induction takes steps off the end of the path, as the
creation does. -/
theorem createSteps_making (hfs : fs.Grounded) (path : List Component) :
    Making fs path (createSteps path fs) := by
  induction path using List.reverseRecOn with
  | nil => exact making_of_lastDirectory hfs (.there (stepsTo_nil hfs))
  | append_singleton path c ih =>
    by_cases hlead : ∃ d, fs.StepsTo path d
    · obtain ⟨d, hd⟩ := hlead
      obtain ⟨hnot, hlast⟩ := hd.last hfs c
      rw [createSteps_concat_of_not_missing hnot]
      exact making_of_lastDirectory hfs hlast
    · have hno (d : Place) : ¬ fs.StepsTo path d := fun hd => hlead ⟨d, hd⟩
      have hnever := not_stepsTo_append hfs hno (List.cons_ne_nil c [])
      obtain ⟨fault, hfault⟩ := resolveSteps_of_not_stepsTo hfs hno false (List.cons_ne_nil c [])
      have hcreate : fs.createDirectory (path ++ [c]) = (.error fault, fs) := by
        rw [createDirectory, hfault]
      -- The front leads nowhere. It is created first if something on it is missing, and nothing is
      -- created otherwise.
      by_cases hmissing : fault = .missing
      · subst hmissing
        rw [createSteps_concat_of_missing hcreate]
        rcases hout : (createSteps path fs : Except FileFault Unit × FileSystem) with
          ⟨fault | _, fs'⟩
        · rw [hout] at ih
          have hfailed := ih.failed (by simp)
          exact ⟨ih.grounded, ih.now, fun d hd => absurd hd (hnever d), fun hok => by simp at hok,
            fun _ => not_stepsTo_append ih.grounded hfailed (List.cons_ne_nil c [])⟩
        · rw [hout] at ih
          obtain ⟨d, hd, -⟩ := ih.made rfl hno
          exact making_after_front ih hno hnever (hd.last ih.grounded c).2
      · rw [createSteps_concat_of_not_missing (by simpa [hcreate] using hmissing)]
        exact making_of_lastDirectory hfs (lastDirectory_of_error hcreate)

end Repertoire.FileSystem
