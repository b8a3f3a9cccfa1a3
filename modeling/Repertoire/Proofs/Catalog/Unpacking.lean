import Repertoire.Proofs.Catalog.Containment
import Repertoire.Proofs.FileSystem.Changes

/-!
# What unpacking an entry comes to

An entry is left out, or it is refused for its path, or else the directories on its way are created
first. It may still be refused after that, and otherwise becomes a directory or a file in the
directory that its way leads to. What unpacking changes is read off these cases. Here that is done
for the names right in the target: which entries put something there, and what.

Links may stand anywhere, so the way to an entry may lead back to the target through any number of
them.
-/

namespace Repertoire.Archive

open Repertoire.FileSystem

variable {top q : Place} {fs fs₁ : FileSystem} {names : List String} {x n : String}
  {e : ArchiveEntry} {out : Fetched}

/-- The directories on the way to an entry could be created, and the way leads inside the target. -/
structure Prepared (top : Place) (names : List String) (fs fs₁ : FileSystem) (q : Place) :
    Prop where
  created : createSteps (placeSteps (top ++ names)) fs = (.ok (), fs₁)
  leadsTo : fs₁.LeadsTo (top ++ names) q
  inside : top <+: q

/-- An entry cannot take a name in a directory: the name is too long, or a link bears it, or a
directory that would have to be a file. -/
def Blocks (e : ArchiveEntry) (fs : FileSystem) (q : Place) (x : String) : Prop :=
  nameLimit < x.utf8ByteSize ∨ (∃ t, fs.entry? (q ++ [x]) = some (.link t)) ∨
    (e.isDirectory = false ∧ fs.entry? (q ++ [x]) = some .directory)

/-- The ways in which the unpacking of an entry can go. -/
inductive Unpacking (top : Place) (e : ArchiveEntry) (fs : FileSystem) : Fetched → Prop
  | left (h : e.isLink = true ∨ target e.path = .ok []) : Unpacking top e fs (.ok (), fs)
  | refused {err : Error} (hlink : e.isLink = false) (htarget : target e.path = .error err) :
      Unpacking top e fs (.error err, fs)
  | unprepared {err : Error} {names : List String} {x : String} (hlink : e.isLink = false)
      (htarget : target e.path = .ok (names ++ [x]))
      (hno : ∀ fs₁ q, ¬ Prepared top names fs fs₁ q) :
      Unpacking top e fs (.error err, (createSteps (placeSteps (top ++ names)) fs).2)
  | blocked {err : Error} {names : List String} {x : String} {fs₁ : FileSystem} {q : Place}
      (hlink : e.isLink = false) (htarget : target e.path = .ok (names ++ [x]))
      (hprep : Prepared top names fs fs₁ q) (hblocks : Blocks e fs₁ q x) :
      Unpacking top e fs (.error err, fs₁)
  | directory {names : List String} {x : String} {fs₁ : FileSystem} {q : Place}
      (hlink : e.isLink = false) (htarget : target e.path = .ok (names ++ [x]))
      (hprep : Prepared top names fs fs₁ q) (hdir : e.isDirectory = true)
      (hfree : ¬ Blocks e fs₁ q x) :
      Unpacking top e fs
        (Fetched.ofFiles (createSteps (placeSteps (top ++ (names ++ [x]))) fs₁))
  | file {names : List String} {x : String} {fs₁ fs₂ : FileSystem} {q : Place}
      (hlink : e.isLink = false) (htarget : target e.path = .ok (names ++ [x]))
      (hprep : Prepared top names fs fs₁ q) (hfile : e.isDirectory = false)
      (hshort : x.utf8ByteSize ≤ nameLimit) (hspot : fs₁.AtMostFile (q ++ [x]))
      (hwritten : Written (q ++ [x]) (.file e.content e.modified) fs₁ fs₂) :
      Unpacking top e fs (.ok (), fs₂)

/-! ## The cases -/

/-- An entry is prepared exactly when preparing it succeeds. -/
theorem prepare_cases (htree : fs.IsTree) (top : Place) (names : List String) (x : String) :
    (∃ fs₁ q, prepare top (names ++ [x]) fs = (.ok (), fs₁) ∧ Prepared top names fs fs₁ q) ∨
      (∃ err, prepare top (names ++ [x]) fs =
          (.error err, (createSteps (placeSteps (top ++ names)) fs).2)) ∧
        ∀ fs₁ q, ¬ Prepared top names fs fs₁ q := by
  have hspec := createSteps_spec htree (top ++ names)
  simp only [prepare, List.dropLast_concat]
  rcases hout : (createSteps (placeSteps (top ++ names)) fs :
    Except FileFault Unit × FileSystem) with ⟨fault | _, fs₁⟩
  · refine .inr ⟨⟨_, rfl⟩, fun fs' q hprep => ?_⟩
    have hcreated := hprep.created
    rw [hout] at hcreated
    cases congrArg Prod.fst hcreated
  · rw [hout] at hspec
    obtain ⟨q, hq⟩ := hspec.leadsTo rfl
    simp only [hq.1]
    by_cases hin : top <+: q
    · rw [if_pos (isWithin_iff.mpr hin)]
      exact .inl ⟨fs₁, q, rfl, hout, hq, hin⟩
    · rw [if_neg fun h => hin (isWithin_iff.mp h)]
      refine .inr ⟨⟨_, rfl⟩, fun fs' q' hprep => hin ?_⟩
      have hcreated := hprep.created
      rw [hout] at hcreated
      have hsame : fs₁ = fs' := congrArg Prod.snd hcreated
      have hleads := hprep.leadsTo
      rw [← hsame] at hleads
      exact hq.unique hleads ▸ hprep.inside

/-- An entry is looked for at its name in the directory that its way leads to. -/
theorem resolveSteps_of_leadsTo (htree : fs.IsTree) (hq : fs.LeadsTo (top ++ names) q) :
    fs.resolveSteps false (placeSteps (top ++ (names ++ [x]))) =
      if nameLimit < x.utf8ByteSize then .error .nameTooLong else .ok (q ++ [x]) := by
  obtain ⟨j, hgo⟩ := hq.append htree
  have hthere := hgo false [x] (by simp)
  rwa [List.map_singleton, follow_false_name, List.append_assoc] at hthere

/-- Placing an entry at a short name that is no link. -/
theorem place_of_leadsTo (htree : fs.IsTree) (hq : fs.LeadsTo (top ++ names) q)
    (hshort : ¬ nameLimit < x.utf8ByteSize) (hlinked : ¬ ∃ t, fs.entry? (q ++ [x]) = some (.link t)) :
    place top (names ++ [x]) e fs =
      if e.isDirectory then Fetched.ofFiles (createSteps (placeSteps (top ++ (names ++ [x]))) fs)
      else Fetched.ofFiles (replaceFile (q ++ [x]) e.content e.modified fs) := by
  have hthere := (resolveSteps_of_leadsTo htree hq).trans (if_neg hshort)
  simp only [place, hthere]
  split
  · rename_i t ht
    exact absurd ⟨t, ht⟩ hlinked
  · rfl

/-- Placing an entry that is prepared. -/
theorem place_unpacking (hfs₁ : fs₁.IsTree) (hlink : e.isLink = false)
    (htarget : target e.path = .ok (names ++ [x])) (hprep : Prepared top names fs fs₁ q) :
    Unpacking top e fs (place top (names ++ [x]) e fs₁) := by
  have hthere : fs₁.resolveSteps false (placeSteps (top ++ (names ++ [x]))) =
      if nameLimit < x.utf8ByteSize then .error .nameTooLong else .ok (q ++ [x]) :=
    resolveSteps_of_leadsTo hfs₁ hprep.leadsTo
  -- In the order of the checks: the name is too long, a link stands there, and then by the kind of
  -- the entry and what it finds in its place.
  by_cases hlong : nameLimit < x.utf8ByteSize
  · rw [if_pos hlong] at hthere
    simp only [place, hthere]
    exact .blocked hlink htarget hprep (.inl hlong)
  by_cases hlinked : ∃ t, fs₁.entry? (q ++ [x]) = some (.link t)
  · obtain ⟨t, ht⟩ := hlinked
    rw [if_neg hlong] at hthere
    simp only [place, hthere, ht]
    exact .blocked hlink htarget hprep (.inr (.inl ⟨t, ht⟩))
  rw [place_of_leadsTo hfs₁ hprep.leadsTo hlong hlinked]
  cases hdir : e.isDirectory with
  | true =>
    refine .directory hlink htarget hprep hdir ?_
    rintro (h | h | ⟨hfile, -⟩)
    · exact hlong h
    · exact hlinked h
    · rw [hdir] at hfile
      exact Bool.false_ne_true hfile.symm
  | false =>
    simp only [Bool.false_eq_true, if_false]
    by_cases hspot : fs₁.AtMostFile (q ++ [x])
    · obtain ⟨fs₂, hreplace, hwritten⟩ := replaceFile_written hfs₁ hspot e.content e.modified
      rw [hreplace]
      exact .file hlink htarget hprep hdir (Nat.not_lt.mp hlong) hspot hwritten
    · have hentry : fs₁.entry? (q ++ [x]) = some .directory := by
        rcases hentry : fs₁.entry? (q ++ [x]) with _ | _ | _ | t
        · exact absurd (.inl hentry) hspot
        · exact absurd (.inr ⟨_, _, hentry⟩) hspot
        · rfl
        · exact absurd ⟨t, hentry⟩ hlinked
      have hreplace : replaceFile (q ++ [x]) e.content e.modified fs₁ =
          (.error .isDirectory, fs₁) := by simp only [replaceFile, hentry]
      rw [hreplace]
      exact .blocked hlink htarget hprep (.inr (.inr ⟨hdir, hentry⟩))

/-- The unpacking of an entry goes in one of the ways. -/
theorem unpackEntry_unpacking (htree : fs.IsTree) (top : Place) (e : ArchiveEntry) :
    Unpacking top e fs (unpackEntry top e fs) := by
  rw [unpackEntry]
  cases hlink : e.isLink with
  | true => exact .left (.inl hlink)
  | false =>
    simp only [Bool.false_eq_true, if_false]
    cases htarget : target e.path with
    | error err => exact .refused hlink htarget
    | ok names =>
      rcases List.eq_nil_or_concat' names with rfl | ⟨names, x, rfl⟩
      · exact .left (.inr htarget)
      · obtain ⟨name, rest, hcons⟩ : ∃ name rest, names ++ [x] = name :: rest :=
          List.exists_cons_of_ne_nil (by simp)
        simp only [hcons]
        rw [← hcons]
        rcases prepare_cases htree top names x with
          ⟨fs₁, q, hprepare, hprep⟩ | ⟨⟨err, hprepare⟩, hno⟩
        · have htree₁ : fs₁.IsTree := by
            have hspec := (createSteps_spec htree (top ++ names)).tree htree
            rwa [hprep.created] at hspec
          rw [hprepare]
          exact place_unpacking htree₁ hlink htarget hprep
        · rw [hprepare]
          exact .unprepared hlink htarget hno

/-- The file system after the directories on the way to an entry were created. -/
theorem Prepared.steady (hfs : fs.Grounded) (h : Prepared top names fs fs₁ q) :
    Steady fs fs₁ := by
  have hgrown := createSteps_grown fs (placeSteps (top ++ names))
  have hmake := createSteps_making hfs (placeSteps (top ++ names))
  rw [h.created] at hgrown hmake
  exact hgrown.steady hfs hmake.grounded.tree

/-- Directories and links stay where they are, whatever is unpacked. -/
theorem Unpacking.steady (hfs : fs.Grounded) (h : Unpacking top e fs out) : Steady fs out.2 := by
  have hcreate {fs : FileSystem} (hfs : fs.Grounded) (way : List String) :
      Steady fs (createSteps (placeSteps way) fs).2 :=
    (createSteps_grown fs _).steady hfs (createSteps_making hfs _).grounded.tree
  cases h with
  | left => exact .refl hfs
  | refused => exact .refl hfs
  | unprepared => exact hcreate hfs _
  | blocked hlink htarget hprep => exact hprep.steady hfs
  | directory hlink htarget hprep =>
    have hfirst := hprep.steady hfs
    rw [ofFiles_state]
    exact hfirst.trans (hcreate hfirst.grounded _)
  | file hlink htarget hprep hfile hshort hspot hwritten =>
    have hfirst := hprep.steady hfs
    exact hfirst.trans (hwritten.steady hfirst.grounded hprep.leadsTo.2 hspot)

/-- The unpacking of any number of entries keeps directories and links. -/
theorem unpackEntries_steady (hfs : fs.Grounded) (top : Place) (entries : List ArchiveEntry) :
    Steady fs (unpackEntries top entries fs).2 := by
  induction entries generalizing fs with
  | nil => exact .refl hfs
  | cons e rest ih =>
    have hfirst := (unpackEntry_unpacking hfs.tree top e).steady hfs
    rw [unpackEntries]
    rcases hentry : unpackEntry top e fs with ⟨err | _, fs₁⟩
    · rwa [hentry] at hfirst
    · rw [hentry] at hfirst
      exact hfirst.trans (ih hfirst.grounded)

/-! ## Names right in the target -/

/-- The first missing place on the way to an entry is a name right in the target exactly when the
names before that one lead back to the target. -/
theorem firstMissing_child_iff (htree : fs.IsTree) (htop : fs.entry? top = some .directory) :
    fs.FirstMissing (top ++ names) (top ++ [n]) ↔
      ∃ before after, names = before ++ n :: after ∧ fs.LeadsTo (top ++ before) top ∧
        fs.entry? (top ++ [n]) = none ∧ n.utf8ByteSize ≤ nameLimit := by
  constructor
  · rintro ⟨front, next, rest, d, hway, hfront, hplace, hmissing, hshort⟩
    obtain ⟨rfl, hnext⟩ := List.append_inj' hplace rfl
    obtain rfl : n = next := List.singleton_inj.mp hnext
    rcases List.append_eq_append_iff.mp hway with ⟨before, rfl, hnames⟩ | ⟨middle, hsplit, hnames⟩
    · exact ⟨before, rest, hnames, hfront, hmissing, hshort⟩
    · cases middle with
      | nil =>
        rw [List.append_nil] at hsplit
        subst hsplit
        exact ⟨[], rest, hnames.symm, by rwa [List.append_nil], hmissing, hshort⟩
      | cons m middle =>
        -- The name would be missing on the way to the target itself.
        have hfrontDir : fs.entry? front = some .directory :=
          htree.above (List.cons_ne_nil m middle) (hsplit ▸ htop)
        have hself := congrArg List.length (hfront.eq_of_directory htree hfrontDir)
        have hlen := congrArg List.length hsplit
        simp only [List.length_append, List.length_cons] at hlen
        omega
  · rintro ⟨before, after, rfl, hlead, hmissing, hshort⟩
    exact ⟨top ++ before, n, after, top, by simp, hlead, rfl, hmissing, hshort⟩

/-- What an entry puts at a name right in the target. The names before that one lead back to the
target. A file takes the place of at most a file; a directory is created where nothing stands, be it
for the entry itself or on the way to it. -/
def Puts (top : Place) (n : String) (e : ArchiveEntry) (fs : FileSystem) (new : Entry) : Prop :=
  e.isLink = false ∧ n.utf8ByteSize ≤ nameLimit ∧
    ∃ before after, target e.path = .ok (before ++ n :: after) ∧ fs.LeadsTo (top ++ before) top ∧
      ((after = [] ∧ e.isDirectory = false ∧ fs.AtMostFile (top ++ [n]) ∧
          new = .file e.content e.modified) ∨
        ((after ≠ [] ∨ e.isDirectory = true) ∧ fs.entry? (top ++ [n]) = none ∧ new = .directory))

/-- Where the way to an entry leads to the target, nothing has to be created on it. -/
theorem prepared_of_leadsTo (hfs : fs.Grounded) (h : fs.LeadsTo (top ++ names) top) :
    Prepared top names fs fs top :=
  ⟨(createSteps_making hfs (placeSteps (top ++ names))).there top h, h, List.prefix_rfl⟩

/-- Preparation has one result. -/
theorem Prepared.unique {fs' : FileSystem} {q' : Place} (h : Prepared top names fs fs₁ q)
    (h' : Prepared top names fs fs' q') : fs₁ = fs' ∧ q = q' := by
  have hsame : fs₁ = fs' := congrArg Prod.snd (h.created.symm.trans h'.created)
  subst hsame
  exact ⟨rfl, h.leadsTo.unique h'.leadsTo⟩

/-- If the way to an entry leads to the target in the end, it did so before. -/
theorem Prepared.eq_of_top (hfs : fs.Grounded) (htop : fs.entry? top = some .directory)
    (h : Prepared top names fs fs₁ top) : fs₁ = fs := by
  have hspec := createSteps_spec hfs.tree (top ++ names)
  rw [h.created] at hspec
  refine hspec.unchanged fun p hp => ?_
  obtain ⟨hgrow, hdir, htree⟩ := hspec.grows p hp
  have hbelow := hp.prefix_of_leadsTo hfs.tree htree hgrow hdir h.leadsTo
  obtain ⟨front, next, rest, d, -, -, -, hmissing, -⟩ := hp
  rw [hfs.tree.missing_below hmissing hbelow] at htop
  simp at htop

/-- An entry puts something at a name right in the target in one of two ways: on its way, where the
name is missing, or at its end, which is that name. -/
theorem Puts.cases {new : Entry} (htarget : target e.path = .ok (names ++ [x]))
    (htree : fs.IsTree) (htop : fs.entry? top = some .directory) (h : Puts top n e fs new) :
    fs.FirstMissing (top ++ names) (top ++ [n]) ∨
      (x = n ∧ fs.LeadsTo (top ++ names) top ∧ n.utf8ByteSize ≤ nameLimit ∧
        ((e.isDirectory = false ∧ fs.AtMostFile (top ++ [n])) ∨
          (e.isDirectory = true ∧ fs.entry? (top ++ [n]) = none))) := by
  obtain ⟨-, hshort, before, after, htarget', hlead, hput⟩ := h
  rw [htarget] at htarget'
  have hnames := Except.ok.inj htarget'
  rcases List.eq_nil_or_concat' after with rfl | ⟨after, y, rfl⟩
  · obtain ⟨rfl, hx⟩ := List.append_inj' hnames rfl
    refine .inr ⟨List.singleton_inj.mp hx, hlead, hshort, ?_⟩
    rcases hput with ⟨-, hfile, hspot, -⟩ | ⟨hdir, hmissing, -⟩
    · exact .inl ⟨hfile, hspot⟩
    · exact .inr ⟨hdir.resolve_left fun hne => hne rfl, hmissing⟩
  · have hsplit : names ++ [x] = (before ++ n :: after) ++ [y] := by simpa using hnames
    obtain ⟨rfl, -⟩ := List.append_inj' hsplit rfl
    rcases hput with ⟨hnil, -⟩ | ⟨-, hmissing, -⟩
    · simp at hnil
    · exact .inl ((firstMissing_child_iff htree htop).mpr
        ⟨before, after, rfl, hlead, hmissing, hshort⟩)

/-- A name that is missing on the way to an entry becomes a directory. -/
theorem puts_of_firstMissing (hlink : e.isLink = false) (htarget : target e.path = .ok (names ++ [x]))
    (htree : fs.IsTree) (htop : fs.entry? top = some .directory)
    (h : fs.FirstMissing (top ++ names) (top ++ [n])) : Puts top n e fs .directory := by
  obtain ⟨before, after, rfl, hlead, hmissing, hshort⟩ := (firstMissing_child_iff htree htop).mp h
  exact ⟨hlink, hshort, before, after ++ [x], by simpa using htarget, hlead,
    .inr ⟨.inl (by simp), hmissing, rfl⟩⟩

/-- What is asked of the unpacking of an entry at a name right in the target: there stands what the
entry puts there, or what stood there before if the entry puts nothing there. -/
def Settles (top : Place) (n : String) (e : ArchiveEntry) (fs fs' : FileSystem) : Prop :=
  (∃ new, Puts top n e fs new ∧ fs'.entry? (top ++ [n]) = some new) ∨
    ((∀ new, ¬ Puts top n e fs new) ∧ fs'.entry? (top ++ [n]) = fs.entry? (top ++ [n]))

/-- Entries that are left out or refused put nothing anywhere. -/
theorem settles_self (h : e.isLink = true ∨ ∀ names x, target e.path ≠ .ok (names ++ [x])) :
    Settles top n e fs fs := by
  refine .inr ⟨fun new hput => ?_, rfl⟩
  obtain ⟨hlink, -, before, after, htarget, -⟩ := hput
  rcases h with h | h
  · rw [hlink] at h
    exact Bool.false_ne_true h
  · rcases List.eq_nil_or_concat' (before ++ n :: after) with hnil | ⟨names, x, hnames⟩
    · simp at hnil
    · exact h names x (hnames ▸ htarget)

/-- What is missing on the way to an entry is settled by its preparation, and stays settled. -/
theorem settles_of_firstMissing {fs' : FileSystem} (hfs : fs.Grounded)
    (htop : fs.entry? top = some .directory) (hlink : e.isLink = false)
    (htarget : target e.path = .ok (names ++ [x]))
    (hmissing : fs.FirstMissing (top ++ names) (top ++ [n]))
    (hsteady : Steady (createSteps (placeSteps (top ++ names)) fs).2 fs') :
    Settles top n e fs fs' := by
  refine .inl ⟨_, puts_of_firstMissing hlink htarget hfs.tree htop hmissing, ?_⟩
  exact hsteady.directory ((createSteps_spec hfs.tree (top ++ names)).grows _ hmissing).2.1

/-- What is not missing on the way to an entry stays what it is during its preparation. -/
theorem child_of_not_firstMissing (hfs : fs.Grounded) (htop : fs.entry? top = some .directory)
    (hthere : ¬ fs.FirstMissing (top ++ names) (top ++ [n])) :
    entry? (createSteps (placeSteps (top ++ names)) fs).2 (top ++ [n]) =
      fs.entry? (top ++ [n]) := by
  rcases (createSteps_spec hfs.tree (top ++ names)).child hfs.tree htop n with
    ⟨hmissing, -⟩ | ⟨-, hsame⟩
  · exact absurd hmissing hthere
  · exact hsame

/-- An entry that cannot be prepared settles every name right in the target. -/
theorem settles_unprepared (hfs : fs.Grounded) (htop : fs.entry? top = some .directory)
    (hlink : e.isLink = false) (htarget : target e.path = .ok (names ++ [x]))
    (hno : ∀ fs₁ q, ¬ Prepared top names fs fs₁ q) (n : String) :
    Settles top n e fs (createSteps (placeSteps (top ++ names)) fs).2 := by
  by_cases hmissing : fs.FirstMissing (top ++ names) (top ++ [n])
  · exact settles_of_firstMissing hfs htop hlink htarget hmissing
      (.refl (createSteps_making hfs _).grounded)
  · refine .inr ⟨fun new hput => ?_, child_of_not_firstMissing hfs htop hmissing⟩
    rcases hput.cases htarget hfs.tree htop with h | ⟨-, hlead, -⟩
    · exact hmissing h
    · exact hno fs top (prepared_of_leadsTo hfs hlead)

/-- An entry that is blocked settles every name right in the target. -/
theorem settles_blocked (hfs : fs.Grounded) (htop : fs.entry? top = some .directory)
    (hlink : e.isLink = false) (htarget : target e.path = .ok (names ++ [x]))
    (hprep : Prepared top names fs fs₁ q) (hblocks : Blocks e fs₁ q x) (n : String) :
    Settles top n e fs fs₁ := by
  have hcreated : (createSteps (placeSteps (top ++ names)) fs).2 = fs₁ := by rw [hprep.created]
  by_cases hmissing : fs.FirstMissing (top ++ names) (top ++ [n])
  · refine settles_of_firstMissing hfs htop hlink htarget hmissing ?_
    rw [hcreated]
    exact .refl (hprep.steady hfs).grounded
  · have hsame := child_of_not_firstMissing hfs htop hmissing
    rw [hcreated] at hsame
    refine .inr ⟨fun new hput => ?_, hsame⟩
    rcases hput.cases htarget hfs.tree htop with h | ⟨rfl, hlead, hshort, hspot⟩
    · exact hmissing h
    · obtain ⟨rfl, rfl⟩ := hprep.unique (prepared_of_leadsTo hfs hlead)
      rcases hblocks with hlong | ⟨t, hentry⟩ | ⟨hkind, hentry⟩
      · exact absurd hshort (Nat.not_le.mpr hlong)
      · rcases hspot with ⟨-, hnone | ⟨_, _, hfile⟩⟩ | ⟨-, hnone⟩ <;> simp_all
      · rcases hspot with ⟨-, hnone | ⟨_, _, hfile⟩⟩ | ⟨hkind', -⟩ <;> simp_all

/-- An entry that becomes a directory settles every name right in the target. -/
theorem settles_directory (hfs : fs.Grounded) (htop : fs.entry? top = some .directory)
    (hlink : e.isLink = false) (htarget : target e.path = .ok (names ++ [x]))
    (hprep : Prepared top names fs fs₁ q) (hkind : e.isDirectory = true) (n : String) :
    Settles top n e fs (createSteps (placeSteps (top ++ (names ++ [x]))) fs₁).2 := by
  have hcreated : (createSteps (placeSteps (top ++ names)) fs).2 = fs₁ := by rw [hprep.created]
  have hfs₁ := (hprep.steady hfs).grounded
  have htop₁ := (hprep.steady hfs).directory htop
  by_cases hmissing : fs.FirstMissing (top ++ names) (top ++ [n])
  · refine settles_of_firstMissing hfs htop hlink htarget hmissing ?_
    rw [hcreated]
    exact (createSteps_grown fs₁ _).steady hfs₁ (createSteps_making hfs₁ _).grounded.tree
  · have hsame := child_of_not_firstMissing hfs htop hmissing
    rw [hcreated] at hsame
    rcases (createSteps_spec hfs₁.tree (top ++ (names ++ [x]))).child hfs₁.tree htop₁ n with
      ⟨hlast, hdir⟩ | ⟨hlast, hkept⟩
    · rw [← List.append_assoc] at hlast
      rcases hlast.snoc_cases with hbefore | ⟨d, hd, hplace, hnone, hshort⟩
      · exact absurd hprep.leadsTo (hbefore.not_leadsTo hfs₁.tree q)
      · obtain ⟨rfl, hx⟩ := List.append_inj' hplace rfl
        obtain rfl : n = x := List.singleton_inj.mp hx
        obtain rfl := hprep.leadsTo.unique hd
        obtain rfl := hprep.eq_of_top hfs htop
        exact .inl ⟨_, ⟨hlink, hshort, names, [], htarget, hd, .inr ⟨.inr hkind, hnone, rfl⟩⟩, hdir⟩
    · refine .inr ⟨fun new hput => ?_, hkept.trans hsame⟩
      rcases hput.cases htarget hfs.tree htop with
        h | ⟨rfl, hlead, hshort, ⟨hfile, -⟩ | ⟨-, hnone⟩⟩
      · exact hmissing h
      · rw [hkind] at hfile
        exact Bool.false_ne_true hfile.symm
      · obtain ⟨rfl, rfl⟩ := hprep.unique (prepared_of_leadsTo hfs hlead)
        exact hlast ⟨_, x, [], _, by simp, hlead, rfl, hnone, hshort⟩

/-- An entry that becomes a file settles every name right in the target. -/
theorem settles_file {fs₂ : FileSystem} (hfs : fs.Grounded)
    (htop : fs.entry? top = some .directory) (hlink : e.isLink = false)
    (htarget : target e.path = .ok (names ++ [x])) (hprep : Prepared top names fs fs₁ q)
    (hkind : e.isDirectory = false) (hshort : x.utf8ByteSize ≤ nameLimit)
    (hspot : fs₁.AtMostFile (q ++ [x]))
    (hwritten : Written (q ++ [x]) (.file e.content e.modified) fs₁ fs₂) (n : String) :
    Settles top n e fs fs₂ := by
  have hcreated : (createSteps (placeSteps (top ++ names)) fs).2 = fs₁ := by rw [hprep.created]
  by_cases hmissing : fs.FirstMissing (top ++ names) (top ++ [n])
  · refine settles_of_firstMissing hfs htop hlink htarget hmissing ?_
    rw [hcreated]
    exact hwritten.steady (hprep.steady hfs).grounded hprep.leadsTo.2 hspot
  · have hsame := child_of_not_firstMissing hfs htop hmissing
    rw [hcreated] at hsame
    by_cases hplace : top ++ [n] = q ++ [x]
    · obtain ⟨rfl, hx⟩ := List.append_inj' hplace rfl
      obtain rfl : n = x := List.singleton_inj.mp hx
      obtain rfl := hprep.eq_of_top hfs htop
      refine .inl ⟨_, ⟨hlink, hshort, names, [], htarget, hprep.leadsTo,
        .inl ⟨rfl, hkind, hspot, rfl⟩⟩, ?_⟩
      rw [hwritten.entry, if_pos rfl]
    · refine .inr ⟨fun new hput => ?_, by rw [hwritten.entry, if_neg hplace, hsame]⟩
      rcases hput.cases htarget hfs.tree htop with h | ⟨rfl, hlead, -, ⟨-, -⟩ | ⟨hdir, -⟩⟩
      · exact hmissing h
      · exact hplace (by rw [(hprep.unique (prepared_of_leadsTo hfs hlead)).2])
      · rw [hkind] at hdir
        exact Bool.false_ne_true hdir

/-- Whichever way the unpacking of an entry goes, it settles every name right in the target. -/
theorem Unpacking.settles (hfs : fs.Grounded) (htop : fs.entry? top = some .directory)
    (h : Unpacking top e fs out) (n : String) : Settles top n e fs out.2 := by
  cases h with
  | left h =>
    refine settles_self (h.imp_right fun hnil names x htarget => ?_)
    rw [hnil] at htarget
    simp at htarget
  | refused hlink htarget =>
    refine settles_self (.inr fun names x hok => ?_)
    rw [htarget] at hok
    simp at hok
  | unprepared hlink htarget hno => exact settles_unprepared hfs htop hlink htarget hno n
  | blocked hlink htarget hprep hblocks =>
    exact settles_blocked hfs htop hlink htarget hprep hblocks n
  | directory hlink htarget hprep hkind =>
    rw [ofFiles_state]
    exact settles_directory hfs htop hlink htarget hprep hkind n
  | file hlink htarget hprep hkind hshort hspot hwritten =>
    exact settles_file hfs htop hlink htarget hprep hkind hshort hspot hwritten n

/-- What stands at a name right in the target after entries were unpacked: what stood there before,
if no entry that was reached puts anything there, and otherwise what one of them put there. -/
theorem unpackEntries_settles (hfs : fs.Grounded) (htop : fs.entry? top = some .directory)
    (entries : List ArchiveEntry) (n : String) :
    ((∀ e fs' new, Reached top entries fs e fs' → ¬ Puts top n e fs' new) ∧
        entry? (unpackEntries top entries fs).2 (top ++ [n]) = fs.entry? (top ++ [n])) ∨
      ∃ e fs' new, Reached top entries fs e fs' ∧ Puts top n e fs' new ∧
        entry? (unpackEntries top entries fs).2 (top ++ [n]) = some new := by
  -- On the entries from the first one on. The entries behind it decide, and only where they put
  -- nothing the first one does.
  induction entries generalizing fs with
  | nil =>
    refine .inl ⟨fun e fs' new hreached => ?_, rfl⟩
    obtain ⟨done, rest, hsplit, -⟩ := hreached
    simp at hsplit
  | cons first rest ih =>
    have hgo := unpackEntry_unpacking hfs.tree top first
    have hsteady := hgo.steady hfs
    have hsettles := hgo.settles hfs htop n
    have hhere : Reached top (first :: rest) fs first fs := reached_cons.mpr (.inl ⟨rfl, rfl⟩)
    rw [unpackEntries]
    rcases hentry : unpackEntry top first fs with ⟨err | _, fs₁⟩
    · rw [hentry] at hsettles
      rcases hsettles with ⟨new, hput, hnew⟩ | ⟨hnone, hsame⟩
      · exact .inr ⟨first, fs, new, hhere, hput, hnew⟩
      · refine .inl ⟨fun e fs' new hreached => ?_, hsame⟩
        rcases reached_cons.mp hreached with ⟨rfl, rfl⟩ | ⟨fs₂, hok, -⟩
        · exact hnone new
        · rw [hentry] at hok
          cases congrArg Prod.fst hok
    · rw [hentry] at hsteady hsettles
      rcases ih hsteady.grounded (hsteady.directory htop) with
        ⟨hlater, hkept⟩ | ⟨e, fs', new, hreached, hput, hnew⟩
      · rcases hsettles with ⟨new, hput, hnew⟩ | ⟨hnone, hsame⟩
        · exact .inr ⟨first, fs, new, hhere, hput, hkept.trans hnew⟩
        · refine .inl ⟨fun e fs' new hreached => ?_, hkept.trans hsame⟩
          rcases reached_cons.mp hreached with ⟨rfl, rfl⟩ | ⟨fs₂, hok, hreached⟩
          · exact hnone new
          · rw [hentry] at hok
            obtain rfl : fs₁ = fs₂ := congrArg Prod.snd hok
            exact hlater e fs' new hreached
      · exact .inr ⟨e, fs', new, reached_cons.mpr (.inr ⟨fs₁, hentry, hreached⟩), hput, hnew⟩

end Repertoire.Archive
