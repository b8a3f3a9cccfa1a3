import Repertoire.Proofs.FileSystem.Changes
import Repertoire.Proofs.FileSystem.Writing

/-!
# Creating directories where there are no links

Below a directory without links a way leads where its names say. Creating the directories on it then
adds exactly those that are missing, and fails exactly when a name is too long or something other
than a directory stands on the way.
-/

namespace Repertoire.FileSystem

open Repertoire.Path

variable {fs fs' : FileSystem} {top p q d : Place} {way names : List String} {x : String}

/-- No name is too long to be followed. -/
def Short (names : List String) : Prop := ∀ n ∈ names, n.utf8ByteSize ≤ nameLimit

/-- Neither at a place nor below it is there a link. -/
def LinkFree (top : Place) (fs : FileSystem) : Prop :=
  ∀ names t, fs.entry? (top ++ names) ≠ some (.link t)

/-- There are no links where none is among the entries. -/
theorem linkFree_of_entries (h : ∀ x ∈ fs.entries, ∀ t, x.2 ≠ .link t) : LinkFree top fs := by
  intro names t hlink
  rw [FileSystem.entry?] at hlink
  split at hlink
  · cases hlink
  · obtain ⟨x, hfound, hx⟩ := Option.map_eq_some_iff.mp hlink
    exact h x (List.mem_of_find?_eq_some hfound) t hx

/-- A place lies on the way that names take from a directory, at its end included. -/
def OnWay (top : Place) (names : List String) (q : Place) : Prop :=
  ∃ front, front ≠ [] ∧ front <+: names ∧ q = top ++ front

/-- No names make no way. -/
theorem not_onWay_nil : ¬ OnWay top [] q := by
  rintro ⟨front, hne, hfront, -⟩
  exact hne (List.prefix_nil.mp hfront)

/-- One more name adds the end of the way. -/
theorem onWay_snoc : OnWay top (names ++ [x]) q ↔ OnWay top names q ∨ q = top ++ (names ++ [x]) := by
  constructor
  · rintro ⟨front, hne, hfront, rfl⟩
    rcases List.prefix_concat_iff.mp hfront with rfl | hbefore
    · exact .inr rfl
    · exact .inl ⟨front, hne, hbefore, rfl⟩
  · rintro (⟨front, hne, hfront, rfl⟩ | rfl)
    · exact ⟨front, hne, hfront.trans (List.prefix_append names [x]), rfl⟩
    · exact ⟨names ++ [x], by simp, List.prefix_rfl, rfl⟩

/-- The end of a longer way does not lie on the way before it. -/
theorem not_onWay_end : ¬ OnWay top names (top ++ (names ++ [x])) := by
  rintro ⟨front, -, hfront, hend⟩
  have hlen := hfront.length_le
  rw [← List.append_cancel_left hend] at hlen
  simp only [List.length_append, List.length_singleton] at hlen
  omega

/-- Names are short if those before the last are, and the last. -/
theorem short_snoc : Short (way ++ [x]) ↔ Short way ∧ x.utf8ByteSize ≤ nameLimit := by
  simp only [Short, List.mem_append, List.mem_singleton]
  exact ⟨fun h => ⟨fun n hn => h n (.inl hn), h x (.inr rfl)⟩, fun h n hn =>
    hn.elim (h.1 n) fun hx => hx ▸ h.2⟩

/-! ## Where short names lead -/

/-- A walk passes short names only. -/
theorem short_of_walk {onLink : Place → List Component → Except FileFault Place}
    {followLast : Bool} {cs : List Component}
    (hlink : ∀ p cs, Short p → onLink p cs = .ok d → Short d) (hp : Short p)
    (h : fs.walk onLink followLast p cs = .ok d) : Short d := by
  induction cs generalizing p with
  | nil => exact Except.ok.inj h ▸ hp
  | cons c cs ih =>
    cases c with
    | root => exact ih (by simp [Short]) h
    | here => exact ih hp h
    | parent => exact ih (fun n hn => hp n (List.mem_of_mem_dropLast hn)) h
    | name n =>
      rw [walk] at h
      split at h
      · cases h
      · rename_i hn
        -- Whatever stands under the name, the walk goes on or ends there, or goes on behind a link.
        have hnext : Short (p ++ [n]) := short_snoc.mpr ⟨hp, Nat.not_lt.mp hn⟩
        split at h
        · exact ih hnext h
        · split at h
          · exact Except.ok.inj h ▸ hnext
          · cases h
        · split at h
          · exact Except.ok.inj h ▸ hnext
          · split at h
            · cases h
            · exact hlink _ _ hp h
        · split at h
          · exact Except.ok.inj h ▸ hnext
          · cases h

/-- From a place with short names, links or not, a path leads to a place with short names. -/
theorem short_of_follow {followLast : Bool} {k : ℕ} {cs : List Component} (hp : Short p)
    (h : fs.follow followLast k p cs = .ok d) : Short d := by
  induction k generalizing p cs with
  | zero =>
    apply short_of_walk _ hp h
    intro p cs hp hfault
    cases hfault
  | succ k ih => exact short_of_walk (fun p cs hp hgo => ih hp hgo) hp h

/-- The names on the way of a directory that a path leads to are short, as they are on the way of
the one that relative paths start from. -/
theorem short_of_canonical (hhome : Short fs.workingDir) {dir : String}
    (h : fs.canonical dir = .ok top) : Short top := by
  rw [canonical] at h
  cases hlook : fs.lookUp? dir with
  | error fault =>
    rw [hlook] at h
    cases h
  | ok found =>
    obtain ⟨place, e⟩ := found
    rw [hlook] at h
    obtain rfl : place = top := Except.ok.inj h
    obtain ⟨-, -, hsteps⟩ := (resolve_eq_ok_iff fs true dir _).mp (lookUp?_eq_ok_iff.mp hlook).1
    exact short_of_follow hhome hsteps

/-! ## Where ways lead -/

/-- A longer way leads on from a directory. -/
theorem LeadsTo.front (htree : fs.IsTree) (h : fs.LeadsTo (way ++ [x]) d) :
    ∃ d', fs.LeadsTo way d' := by
  by_contra hno
  obtain ⟨fault, hfault⟩ := resolve_of_not_leadsTo htree (fun d' hd' => hno ⟨d', hd'⟩) true
    (List.cons_ne_nil x [])
  rw [h.1] at hfault
  simp at hfault

/-- What comes of one more name behind a way: it is short, and a directory or a link bears it. -/
theorem LeadsTo.last (htree : fs.IsTree) (hp : fs.LeadsTo way p) (h : fs.LeadsTo (way ++ [x]) d) :
    x.utf8ByteSize ≤ nameLimit ∧
      (fs.entry? (p ++ [x]) = some .directory ∨ ∃ t, fs.entry? (p ++ [x]) = some (.link t)) := by
  obtain ⟨j, hgo⟩ := hp.append htree
  obtain ⟨onLink, hwalk⟩ := follow_eq_walk fs true j
  have hend := h.1
  rw [hgo true [x] (by simp), List.map_singleton, hwalk] at hend
  by_cases hlong : nameLimit < x.utf8ByteSize
  · rw [walk, if_pos hlong] at hend
    simp at hend
  · refine ⟨Nat.not_lt.mp hlong, ?_⟩
    by_cases hspot : fs.AtMostFile (p ++ [x])
    · obtain ⟨-, rfl⟩ := (walk_atMostFile hspot hlong).mp hend
      rcases hspot with hnone | ⟨_, _, hfile⟩
      · exact .inl (absurd hnone (by simp [h.2]))
      · exact .inl (absurd hfile (by simp [h.2]))
    · rcases hentry : fs.entry? (p ++ [x]) with _ | _ | _ | t
      · exact absurd (.inl hentry) hspot
      · exact absurd (.inr ⟨_, _, hentry⟩) hspot
      · exact .inl rfl
      · exact .inr ⟨t, rfl⟩

/-- The way of a directory leads to that directory exactly when its names are short. -/
theorem leadsTo_directory_iff (htree : fs.IsTree) (hp : fs.entry? p = some .directory) :
    fs.LeadsTo p d ↔ d = p ∧ Short p := by
  constructor
  · intro h
    refine ⟨h.eq_of_directory htree hp, ?_⟩
    induction p using List.reverseRecOn generalizing d with
    | nil => simp [Short]
    | append_singleton p x ih =>
      obtain ⟨d', hd'⟩ := h.front htree
      have hparent := htree.dropLast hp
      rw [List.dropLast_concat] at hparent
      exact short_snoc.mpr ⟨ih hparent hd', (hd'.last htree h).1⟩
  · rintro ⟨rfl, hshort⟩
    induction d using List.reverseRecOn with
    | nil => exact leadsTo_nil fs
    | append_singleton p x ih =>
      have hparent := htree.dropLast hp
      rw [List.dropLast_concat] at hparent
      obtain ⟨hfront, hlast⟩ := short_snoc.mp hshort
      exact (ih hparent hfront).snoc htree hp hlast

/-- Without links, a way leads to a directory only if that stands where its names say. -/
theorem LeadsTo.directory (htree : fs.IsTree) (hfree : LinkFree top fs)
    (htop : fs.entry? top = some .directory) (h : fs.LeadsTo (top ++ names) d) :
    fs.entry? (top ++ names) = some .directory := by
  induction names using List.reverseRecOn generalizing d with
  | nil => rwa [List.append_nil]
  | append_singleton names x ih =>
    rw [← List.append_assoc] at h ⊢
    obtain ⟨d', hd'⟩ := h.front htree
    obtain ⟨rfl, -⟩ := (leadsTo_directory_iff htree (ih hd')).mp hd'
    rcases (hd'.last htree h).2 with hdir | ⟨t, hlink⟩
    · exact hdir
    · rw [List.append_assoc] at hlink
      exact absurd hlink (hfree _ t)

/-- Without links, the end of a way is where its names say. -/
theorem LeadsTo.eq_of_linkFree (htree : fs.IsTree) (hfree : LinkFree top fs)
    (htop : fs.entry? top = some .directory) (h : fs.LeadsTo (top ++ names) d) :
    d = top ++ names := h.eq_of_directory htree (h.directory htree hfree htop)

/-- Nothing is missing on the way of a directory. -/
theorem not_firstMissing_of_directory (htree : fs.IsTree)
    (htop : fs.entry? top = some .directory) (p : Place) : ¬ fs.FirstMissing top p := by
  rintro ⟨front, next, rest, d, rfl, hfront, rfl, hmissing, -⟩
  have hdir := htree.above (List.cons_ne_nil next rest) htop
  obtain ⟨rfl, -⟩ := (leadsTo_directory_iff htree hdir).mp hfront
  have hbelow : d ++ [next] <+: d ++ next :: rest := ⟨rest, by simp⟩
  rw [htree.missing_below hmissing hbelow] at htop
  simp at htop

/-- Growth adds no links. -/
theorem LinkFree.of_grown (hgrown : Grown fs fs') (hfree : LinkFree top fs) : LinkFree top fs' := by
  intro names t hlink
  rcases hgrown.grows (top ++ names) with hsame | ⟨-, -, hdir⟩
  · exact hfree names t (hsame.symm.trans hlink)
  · rw [hlink] at hdir
    simp at hdir

/-! ## One more directory -/

/-- Once the directories on a way could be created, one more name asks for one more directory. -/
theorem createSteps_snoc (hfs : fs.Grounded) (h : createSteps (placeSteps way) fs = (.ok (), fs'))
    (x : String) :
    createSteps (placeSteps (way ++ [x])) fs = fs'.ensureDirectory (placeSteps (way ++ [x])) := by
  by_cases hlead : ∃ d, fs.LeadsTo way d
  · obtain ⟨d, hd⟩ := hlead
    have hthere := (createSteps_making hfs (placeSteps way)).there d hd
    have hsame : fs' = fs := congrArg Prod.snd (h.symm.trans hthere)
    have hlast := (StepsTo.last hfs hd (.name x)).1
    rw [← placeSteps_snoc] at hlast
    rw [createSteps_of_not_missing hlast, hsame]
  · have hno (d : Place) : ¬ fs.LeadsTo way d := fun hd => hlead ⟨d, hd⟩
    obtain ⟨fault, hcreate, hfault⟩ := createDirectory_of_not_leadsTo hfs.tree hno x
    have hspec := createSteps_spec hfs.tree way
    rw [h] at hspec
    have hmissing : fault = .missing := by
      by_contra hne
      have hsame : fs' = fs := hspec.unchanged fun p hp => hne (hfault p hp)
      obtain ⟨d, hd⟩ := hspec.leadsTo rfl
      exact hno d (hsame ▸ hd)
    subst hmissing
    rw [createSteps_of_missing hcreate, h]

/-- The directories on a way can be created if those on a longer one can. -/
theorem createSteps_of_snoc (hfs : fs.Grounded)
    (h : createSteps (placeSteps (way ++ [x])) fs = (.ok (), fs')) :
    ∃ fs₁, createSteps (placeSteps way) fs = (.ok (), fs₁) := by
  by_cases hlead : ∃ d, fs.LeadsTo way d
  · obtain ⟨d, hd⟩ := hlead
    exact ⟨fs, (createSteps_making hfs (placeSteps way)).there d hd⟩
  · have hno (d : Place) : ¬ fs.LeadsTo way d := fun hd => hlead ⟨d, hd⟩
    obtain ⟨fault, hcreate, -⟩ := createDirectory_of_not_leadsTo hfs.tree hno x
    by_cases hmissing : fault = .missing
    · subst hmissing
      rw [createSteps_of_missing hcreate] at h
      rcases hout : (createSteps (placeSteps way) fs : Except FileFault Unit × FileSystem) with
        ⟨fault | _, fs₁⟩
      · rw [hout] at h
        cases congrArg Prod.fst h
      · exact ⟨fs₁, rfl⟩
    · rw [createSteps_of_not_missing (by simpa [hcreate] using hmissing)] at h
      obtain ⟨d, hd⟩ := (ensureDirectory_of_error hcreate).2 (by rw [h])
      obtain ⟨d', hd'⟩ := hd.front hfs.tree
      exact absurd hd' (hno d')

/-- Once the creation of the directories on a way failed, more names change nothing about it. -/
theorem createSteps_append_of_error (hfs : fs.Grounded) {fault : FileFault}
    (h : createSteps (placeSteps way) fs = (.error fault, fs')) (rest : List String) :
    ∃ fault', createSteps (placeSteps (way ++ rest)) fs = (.error fault', fs') := by
  induction rest using List.reverseRecOn with
  | nil => exact ⟨fault, by rwa [List.append_nil]⟩
  | append_singleton rest x ih =>
    obtain ⟨fault₁, hfront⟩ := ih
    rw [← List.append_assoc]
    have hno (d : Place) : ¬ fs.LeadsTo (way ++ rest) d := by
      intro hd
      have hthere := (createSteps_making hfs (placeSteps (way ++ rest))).there d hd
      rw [hfront] at hthere
      cases congrArg Prod.fst hthere
    obtain ⟨fault₂, hcreate, hfault⟩ := createDirectory_of_not_leadsTo hfs.tree hno x
    -- If something is missing, the front is tried first and fails as before. Otherwise nothing was
    -- created on the front, and the name is not tried again.
    by_cases hmissing : fault₂ = .missing
    · subst hmissing
      exact ⟨fault₁, by rw [createSteps_of_missing hcreate, hfront]⟩
    · have hspec := createSteps_spec hfs.tree (way ++ rest)
      rw [hfront] at hspec
      obtain rfl : fs' = fs := hspec.unchanged fun p hp => hmissing (hfault p hp)
      have hnot : (fs'.createDirectory (placeSteps (way ++ rest ++ [x]))).1 ≠ .error .missing := by
        rw [hcreate]
        simpa using hmissing
      rw [createSteps_of_not_missing hnot, ensureDirectory_eq hcreate, if_neg]
      · exact ⟨fault₂, rfl⟩
      · intro hdir
        obtain ⟨d, hd⟩ : ∃ d, fs'.LeadsTo (way ++ rest ++ [x]) d :=
          (isDirectoryAt_iff fs' _).mp hdir
        obtain ⟨d', hd'⟩ := hd.front hfs.tree
        exact hno d' hd'

/-! ## All directories -/

/-- What is known where the directories on a way without links were created. -/
structure Arrived (top : Place) (names : List String) (fs' : FileSystem) : Prop where
  grounded : fs'.Grounded
  linkFree : LinkFree top fs'
  directory : fs'.entry? top = some .directory
  leadsTo : fs'.LeadsTo (top ++ names) (top ++ names)

/-- Creating the directories on a way without links adds no links, and then the way leads where its
names say. -/
theorem arrived_of_createSteps (hfs : fs.Grounded) (hfree : LinkFree top fs)
    (htop : fs.entry? top = some .directory)
    (h : createSteps (placeSteps (top ++ names)) fs = (.ok (), fs')) : Arrived top names fs' := by
  have hgrown := createSteps_grown fs (placeSteps (top ++ names))
  have hmake := createSteps_making hfs (placeSteps (top ++ names))
  have hspec := createSteps_spec hfs.tree (top ++ names)
  rw [h] at hgrown hmake hspec
  have hfree' := hfree.of_grown hgrown
  have htop' := hgrown.grows.keeps htop
  obtain ⟨d, hd⟩ := hspec.leadsTo rfl
  obtain rfl := hd.eq_of_linkFree hmake.grounded.tree hfree' htop'
  exact ⟨hmake.grounded, hfree', htop', hd⟩

/-- What creating the directories on a way without links comes to: on the way there are directories
afterwards, and nothing else changed. -/
theorem createSteps_linkFree (hfs : fs.Grounded) (hfree : LinkFree top fs)
    (htop : fs.entry? top = some .directory)
    (h : createSteps (placeSteps (top ++ names)) fs = (.ok (), fs')) :
    Short (top ++ names) ∧ (∀ q, OnWay top names q → fs'.entry? q = some .directory) ∧
      ∀ q, ¬ OnWay top names q → fs'.entry? q = fs.entry? q := by
  -- On the names from the end, as directories are created from the top down: those in front stand
  -- when the last one is created.
  induction names using List.reverseRecOn generalizing fs' with
  | nil =>
    rw [List.append_nil] at h ⊢
    have hspec := createSteps_spec hfs.tree top
    rw [h] at hspec
    obtain rfl : fs' = fs := hspec.unchanged (not_firstMissing_of_directory hfs.tree htop)
    obtain ⟨d, hd⟩ := hspec.leadsTo rfl
    exact ⟨((leadsTo_directory_iff hfs.tree htop).mp hd).2, fun q hq => absurd hq not_onWay_nil,
      fun q _ => rfl⟩
  | append_singleton names x ih =>
    rw [← List.append_assoc] at h ⊢
    obtain ⟨fs₁, hfront⟩ := createSteps_of_snoc hfs h
    obtain ⟨hshort, hdirs, hrest⟩ := ih hfront
    rw [createSteps_snoc hfs hfront] at h
    obtain ⟨⟨htree₁, -⟩, hfree₁, htop₁, hd⟩ := arrived_of_createSteps hfs hfree htop hfront
    -- The last directory is new, or nothing changes because something stands there already.
    rcases ensureDirectory_of_leadsTo htree₁ hd x with
      ⟨hnone, hlast, hout, -⟩ | ⟨-, hsame, hlast⟩
    · obtain rfl : fs₁.put (top ++ names ++ [x]) .directory = fs' :=
        congrArg Prod.snd (hout.symm.trans h)
      refine ⟨short_snoc.mpr ⟨hshort, hlast⟩, fun q hq => ?_, fun q hq => ?_⟩
      · rw [entry?_put fs₁ (by simp)]
        rcases onWay_snoc.mp hq with hq | rfl
        · rw [hdirs q hq, ite_self]
        · rw [if_pos (List.append_assoc ..).symm]
      · rw [onWay_snoc, not_or, ← List.append_assoc] at hq
        rw [entry?_put fs₁ (by simp), if_neg hq.2, hrest q hq.1]
    · rw [h] at hsame hlast
      obtain rfl : fs' = fs₁ := hsame
      obtain ⟨d, hd'⟩ := hlast rfl
      have hend : fs'.entry? (top ++ (names ++ [x])) = some .directory := by
        rw [List.append_assoc] at hd'
        exact hd'.directory htree₁ hfree₁ htop₁
      refine ⟨short_snoc.mpr ⟨hshort, (hd.last htree₁ hd').1⟩, fun q hq => ?_, fun q hq => ?_⟩
      · rcases onWay_snoc.mp hq with hq | rfl
        · exact hdirs q hq
        · exact hend
      · rw [onWay_snoc, not_or] at hq
        exact hrest q hq.1

/-- The directories on a way without links were created. -/
structure Laid (top : Place) (names : List String) (fs fs' : FileSystem) : Prop where
  short : Short (top ++ names)
  free : ∀ q, OnWay top names q → fs.entry? q = none ∨ fs.entry? q = some .directory
  laid : ∀ q, OnWay top names q → fs'.entry? q = some .directory
  rest : ∀ q, ¬ OnWay top names q → fs'.entry? q = fs.entry? q

/-- What was not created was there, and there can have been directories only. -/
theorem laid_of_createSteps (hfs : fs.Grounded) (hfree : LinkFree top fs)
    (htop : fs.entry? top = some .directory)
    (h : createSteps (placeSteps (top ++ names)) fs = (.ok (), fs')) : Laid top names fs fs' := by
  obtain ⟨hshort, hdirs, hrest⟩ := createSteps_linkFree hfs hfree htop h
  have hgrown := createSteps_grown fs (placeSteps (top ++ names))
  rw [h] at hgrown
  refine ⟨hshort, fun q hq => ?_, hdirs, hrest⟩
  rcases hgrown.grows q with hsame | ⟨-, hnone, -⟩
  · exact .inr (hsame ▸ hdirs q hq)
  · exact .inl hnone

/-- The directories on a way without links can be created if its names are short and nothing but
directories stands on it. -/
theorem createSteps_ok (hfs : fs.Grounded) (hfree : LinkFree top fs)
    (htop : fs.entry? top = some .directory) (hshort : Short (top ++ names))
    (hway : ∀ q, OnWay top names q → fs.entry? q = none ∨ fs.entry? q = some .directory) :
    ∃ fs', createSteps (placeSteps (top ++ names)) fs = (.ok (), fs') := by
  induction names using List.reverseRecOn with
  | nil =>
    rw [List.append_nil] at hshort ⊢
    have hself := (leadsTo_directory_iff hfs.tree htop).mpr ⟨rfl, hshort⟩
    exact ⟨fs, (createSteps_making hfs (placeSteps top)).there top hself⟩
  | append_singleton names x ih =>
    rw [← List.append_assoc] at hshort ⊢
    obtain ⟨hfrontShort, hlast⟩ := short_snoc.mp hshort
    obtain ⟨fs₁, hfront⟩ := ih hfrontShort fun q hq => hway q (onWay_snoc.mpr (.inl hq))
    have hkept := (createSteps_linkFree hfs hfree htop hfront).2.2 (top ++ (names ++ [x]))
      not_onWay_end
    obtain ⟨⟨htree₁, -⟩, -, -, hd⟩ := arrived_of_createSteps hfs hfree htop hfront
    have hcreate := createDirectory_of_leadsTo htree₁ hd x
    rw [if_neg (Nat.not_lt.mpr hlast)] at hcreate
    have hend := hway (top ++ (names ++ [x])) (onWay_snoc.mpr (.inr rfl))
    rw [← hkept, ← List.append_assoc] at hend
    rw [createSteps_snoc hfs hfront]
    rcases hend with hnone | hdir
    · rw [hnone] at hcreate
      exact ⟨_, by rw [ensureDirectory, hcreate]⟩
    · rw [hdir] at hcreate
      have hthere := (isDirectoryAt_iff fs₁ _).mpr ⟨_, hd.snoc htree₁ hdir hlast⟩
      exact ⟨fs₁, by rw [ensureDirectory_eq hcreate, if_pos hthere]⟩

/-- The creation of the directories on a way without links stops at a name that is too long and at
one where something else stands. Those in front of it are there then. -/
theorem createSteps_stops (hfs : fs.Grounded) (hfree : LinkFree top fs)
    (htop : fs.entry? top = some .directory)
    (h : createSteps (placeSteps (top ++ names)) fs = (.ok (), fs'))
    (hx : x.utf8ByteSize ≤ nameLimit → fs.entry? (top ++ (names ++ [x])) ≠ none ∧
      fs.entry? (top ++ (names ++ [x])) ≠ some .directory) (rest : List String) :
    ∃ fault, createSteps (placeSteps (top ++ (names ++ x :: rest))) fs = (.error fault, fs') := by
  have hkept := (createSteps_linkFree hfs hfree htop h).2.2 (top ++ (names ++ [x])) not_onWay_end
  obtain ⟨⟨htree, -⟩, hfree', -, hd⟩ := arrived_of_createSteps hfs hfree htop h
  rw [← hkept, ← List.append_assoc] at hx
  -- It stops at the first of these names, and the others change nothing about that.
  have hlast : ∃ fault, createSteps (placeSteps (top ++ names ++ [x])) fs = (.error fault, fs') := by
    rw [createSteps_snoc hfs h]
    rcases ensureDirectory_of_leadsTo htree hd x with ⟨hnone, hshort, -, -⟩ | ⟨-, hsame, hok⟩
    · exact absurd hnone (hx hshort).1
    · rcases hout : fs'.ensureDirectory (placeSteps (top ++ names ++ [x])) with ⟨fault | _, fs₁⟩
      · rw [hout] at hsame
        obtain rfl : fs₁ = fs' := hsame
        exact ⟨fault, rfl⟩
      · rw [hout] at hok
        obtain ⟨d', hd'⟩ := hok rfl
        obtain ⟨hshort, hentry⟩ := hd.last htree hd'
        rcases hentry with hdir | ⟨t, hlink⟩
        · exact absurd hdir (hx hshort).2
        · rw [List.append_assoc] at hlink
          exact absurd hlink (hfree' _ t)
  obtain ⟨fault, hlast⟩ := hlast
  obtain ⟨fault', hout⟩ := createSteps_append_of_error hfs hlast rest
  refine ⟨fault', ?_⟩
  rw [← hout]
  simp only [List.append_assoc, List.singleton_append]

end Repertoire.FileSystem
