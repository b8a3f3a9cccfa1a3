import Repertoire.Catalog.Archive
import Repertoire.Proofs.FileSystem.Creation

/-!
# What unpacking does outside the target

Unpacking writes nothing and removes nothing outside the canonical target, but it can create
directories there: the directories on the way to an entry are created before it is looked at where
they lie, so a link inside the target that leads out of it is followed. The main statement says that
nothing outside differs exactly when no entry that is reached strays in this way, and that an
unpacking in which one does fails.

File systems are assumed to be trees. Links may stand anywhere and point anywhere, and earlier
entries may have changed what stands inside the target.
-/

namespace Repertoire.Archive

open Repertoire.FileSystem

variable {top q : Place} {fs fs' fs'' : FileSystem} {names : List String} {e : ArchiveEntry}

/-- Nothing that lies outside a place differs. -/
def SameOutside (top : Place) (fs fs' : FileSystem) : Prop :=
  ∀ p, ¬ top <+: p → fs'.entry? p = fs.entry? p

/-- A tree that holds something at the place that is unpacked to. -/
structure Ready (top : Place) (fs : FileSystem) : Prop where
  tree : fs.IsTree
  top : ∃ e, fs.entry? top = some e

/-- The first directory that is missing on the way to an entry lies outside. -/
def Strays (top : Place) (e : ArchiveEntry) (fs : FileSystem) : Prop :=
  e.isLink = false ∧ ∃ name names, target e.path = .ok (name :: names) ∧
    ∃ p, fs.FirstMissing (top ++ (name :: names).dropLast) p ∧ ¬ top <+: p

/-- An entry strays that is reached because all entries before it could be unpacked. -/
def StraysAmong (top : Place) (entries : List ArchiveEntry) (fs : FileSystem) : Prop :=
  ∃ done e rest, entries = done ++ e :: rest ∧ (unpackEntries top done fs).1 = .ok () ∧
    Strays top e (unpackEntries top done fs).2

/-- Nothing differs outside after two steps in which nothing did. -/
theorem SameOutside.trans (h : SameOutside top fs fs') (h' : SameOutside top fs' fs'') :
    SameOutside top fs fs'' := fun p hp => (h' p hp).trans (h p hp)

/-- Growth inside changes nothing outside. -/
theorem sameOutside_of_growsBelow {p : Place} (h : GrowsBelow p fs fs') (hin : top <+: p) :
    SameOutside top fs fs' := by
  intro x hx
  rcases h x with hsame | ⟨hbelow, -, -⟩
  · exact hsame
  · exact absurd (hin.trans hbelow) hx

/-- Growth keeps what is needed for unpacking. -/
theorem Ready.of_growsBelow {p : Place} (h : Ready top fs) (hgrow : GrowsBelow p fs fs')
    (htree : fs'.IsTree) : Ready top fs' := by
  obtain ⟨e, he⟩ := h.top
  exact ⟨htree, e, hgrow.keeps he⟩

/-! ## The directories on the way to an entry -/

/-- Preparing an entry creates the directories on its way, whatever it answers. -/
theorem prepare_state (top : Place) (names : List String) (fs : FileSystem) :
    (prepare top names fs).2 = (createSteps (placeSteps (top ++ names.dropLast)) fs).2 := by
  simp only [prepare]
  rcases createSteps (placeSteps (top ++ names.dropLast)) fs with ⟨fault | _, fs₁⟩
  · rfl
  · simp only
    split <;> rfl

/-- Preparing an entry succeeds only if the way to it leads to a directory inside. -/
theorem leadsTo_of_prepare (htree : fs.IsTree) (h : (prepare top names fs).1 = .ok ()) :
    ∃ q, (prepare top names fs).2.LeadsTo (top ++ names.dropLast) q ∧ top <+: q := by
  rw [prepare_state]
  have hspec := createSteps_spec htree (top ++ names.dropLast)
  simp only [prepare] at h
  rcases hout : (createSteps (placeSteps (top ++ names.dropLast)) fs :
    Except FileFault Unit × FileSystem) with ⟨fault | _, fs₁⟩
  · simp [hout] at h
  · rw [hout] at hspec
    obtain ⟨q, hq⟩ := hspec.leadsTo rfl
    refine ⟨q, hq, ?_⟩
    simp only [hout, hq.1] at h
    by_cases hin : isWithin top q = true
    · exact isWithin_iff.mp hin
    · simp [hin] at h

/-- Creating directories on a way whose first missing place lies inside, or on which none is
missing, changes nothing outside. -/
theorem createSteps_inside {way : List String} (hready : Ready top fs)
    (hin : ∀ p, fs.FirstMissing way p → top <+: p) :
    SameOutside top fs (createSteps (placeSteps way) fs).2 ∧
      Ready top (createSteps (placeSteps way) fs).2 := by
  have hspec := createSteps_spec hready.tree way
  by_cases hsome : ∃ p, fs.FirstMissing way p
  · obtain ⟨p, hp⟩ := hsome
    obtain ⟨hgrow, -, htree⟩ := hspec.grows p hp
    exact ⟨sameOutside_of_growsBelow hgrow (hin p hp), hready.of_growsBelow hgrow htree⟩
  · rw [hspec.unchanged fun p hp => hsome ⟨p, hp⟩]
    exact ⟨fun _ _ => rfl, hready⟩

/-- Preparing an entry whose first missing directory lies outside creates that directory and fails:
what was created leads further down outside, where the target cannot be. -/
theorem prepare_outside {p : Place} (hready : Ready top fs)
    (hp : fs.FirstMissing (top ++ names.dropLast) p) (hout : ¬ top <+: p) :
    (∃ err, (prepare top names fs).1 = .error err) ∧ GrowsBelow p fs (prepare top names fs).2 ∧
      entry? (prepare top names fs).2 p = some .directory := by
  obtain ⟨hgrow, hdir, htree⟩ := (createSteps_spec hready.tree _).grows p hp
  rw [← prepare_state] at hgrow hdir htree
  refine ⟨?_, hgrow, hdir⟩
  cases hresult : (prepare top names fs).1 with
  | error err => exact ⟨err, rfl⟩
  | ok _ =>
    obtain ⟨q, hq, hin⟩ := leadsTo_of_prepare hready.tree hresult
    have hbelow : p <+: q := hp.prefix_of_leadsTo hready.tree htree hgrow hdir hq
    rcases List.prefix_or_prefix_of_prefix hin hbelow with htop | htop
    · exact absurd htop hout
    · obtain ⟨e, he⟩ := hready.top
      obtain ⟨front, next, rest, d, -, -, -, hmissing, -⟩ := hp
      rw [hready.tree.missing_below hmissing htop] at he
      exact absurd he.symm (Option.some_ne_none e)

/-! ## The entry itself -/

/-- What stands where after a file was written at a name in a directory. -/
theorem replaceFile_spec (htree : fs.IsTree) (hq : fs.entry? q = some .directory) (n : String)
    (content : ByteArray) (time : Int) :
    (replaceFile (q ++ [n]) content time fs).2.IsTree ∧
      ∀ p, ¬ (q ++ [n]) <+: p →
        entry? (replaceFile (q ++ [n]) content time fs).2 p = fs.entry? p := by
  have hne : q ++ [n] ≠ [] := by simp
  have hparent : ¬ (q ++ [n]) <+: q := fun hin => by
    have hlen := hin.length_le
    simp only [List.length_append, List.length_singleton] at hlen
    omega
  have hother {p : Place} (hp : ¬ (q ++ [n]) <+: p) : p ≠ q ++ [n] := fun heq =>
    hp (heq ▸ List.prefix_rfl)
  cases hentry : fs.entry? (q ++ [n]) with
  | none =>
    simp only [replaceFile, hentry]
    refine ⟨htree.put hne (by rwa [List.dropLast_concat]) (.inr fun m => ?_), fun p hp => ?_⟩
    · exact htree.missing_below hentry (List.prefix_append _ [m])
    · rw [entry?_put fs hne, if_neg (hother hp)]
  | some old =>
    -- A file or a link is erased first, with what could be below it, and then the file is put
    -- there.
    have herase : ((fs.erase (q ++ [n])).put (q ++ [n]) (.file content time)).IsTree ∧
        ∀ p, ¬ (q ++ [n]) <+: p →
          entry? ((fs.erase (q ++ [n])).put (q ++ [n]) (.file content time)) p = fs.entry? p := by
      refine ⟨(htree.erase hne).put hne ?_ (.inr fun m => ?_), fun p hp => ?_⟩
      · rw [List.dropLast_concat, entry?_erase fs hne, if_neg hparent, hq]
      · rw [entry?_erase fs hne, if_pos (List.prefix_append _ [m])]
      · rw [entry?_put _ hne, if_neg (hother hp), entry?_erase fs hne, if_neg hp]
    cases old with
    | directory =>
      simp only [replaceFile, hentry]
      exact ⟨htree, fun _ _ => trivial⟩
    | file _ _ =>
      simp only [replaceFile, hentry]
      exact herase
    | link _ =>
      simp only [replaceFile, hentry]
      exact herase

/-- A file is written inside when its directory lies inside. -/
theorem replaceFile_inside (hready : Ready top fs) (hq : fs.entry? q = some .directory)
    (hin : top <+: q) (n : String) (content : ByteArray) (time : Int) :
    SameOutside top fs (replaceFile (q ++ [n]) content time fs).2 ∧
      Ready top (replaceFile (q ++ [n]) content time fs).2 := by
  obtain ⟨htree, hsame⟩ := replaceFile_spec hready.tree hq n content time
  refine ⟨fun p hp => hsame p fun hbelow => ?_, htree, ?_⟩
  · exact hp (hin.trans ((List.prefix_append q [n]).trans hbelow))
  · obtain ⟨old, hold⟩ := hready.top
    refine ⟨old, (hsame top fun hbelow => ?_).trans hold⟩
    have hlen := hbelow.length_le.trans hin.length_le
    simp only [List.length_append, List.length_singleton] at hlen
    omega

/-- The file system after an operation on files is that of the fetch. -/
theorem ofFiles_state {α : Type} (run : Except FileFault α × FileSystem) :
    (Fetched.ofFiles run).2 = run.2 := by
  rcases run with ⟨_ | _, _⟩ <;> rfl

/-- An entry whose directory lies inside is placed inside. -/
theorem place_inside (hready : Ready top fs) {n : String} (hq : fs.LeadsTo (top ++ names) q)
    (hin : top <+: q) :
    SameOutside top fs (place top (names ++ [n]) e fs).2 ∧
      Ready top (place top (names ++ [n]) e fs).2 := by
  obtain ⟨j, hgo⟩ := hq.append hready.tree
  have hthere := hgo false [n] (by simp)
  rw [List.map_singleton, follow_false_name, List.append_assoc] at hthere
  have hmissing (p : Place) (hp : fs.FirstMissing (top ++ (names ++ [n])) p) : top <+: p := by
    rw [← List.append_assoc] at hp
    rcases hp.snoc_cases with hp | ⟨d, hd, rfl, -⟩
    · exact absurd hq (hp.not_leadsTo hready.tree q)
    · exact hq.unique hd ▸ hin.trans (List.prefix_append q [n])
  simp only [place, hthere]
  by_cases hlong : nameLimit < n.utf8ByteSize
  · rw [if_pos hlong]
    exact ⟨fun _ _ => rfl, hready⟩
  · simp only [if_neg hlong]
    split
    · exact ⟨fun _ _ => rfl, hready⟩
    · split
      · rw [ofFiles_state]
        exact createSteps_inside hready hmissing
      · rw [ofFiles_state]
        exact replaceFile_inside hready hq.2 hin n e.content e.modified

/-- An entry that does not stray changes nothing outside. -/
theorem unpackEntry_inside (hready : Ready top fs) (h : ¬ Strays top e fs) :
    SameOutside top fs (unpackEntry top e fs).2 ∧ Ready top (unpackEntry top e fs).2 := by
  have hunchanged : SameOutside top fs fs ∧ Ready top fs := ⟨fun _ _ => rfl, hready⟩
  rw [unpackEntry]
  cases hlink : e.isLink with
  | true => exact hunchanged
  | false =>
    rcases htarget : target e.path with err | _ | ⟨name, names⟩
    · exact hunchanged
    · exact hunchanged
    · have hin (p : Place) (hp : fs.FirstMissing (top ++ (name :: names).dropLast) p) :
          top <+: p := by
        by_contra hout
        exact h ⟨hlink, name, names, htarget, p, hp, hout⟩
      have hprepare : SameOutside top fs (prepare top (name :: names) fs).2 ∧
          Ready top (prepare top (name :: names) fs).2 := by
        rw [prepare_state]
        exact createSteps_inside hready hin
      have hleads (hok : (prepare top (name :: names) fs).1 = .ok ()) :=
        leadsTo_of_prepare hready.tree hok
      rcases hout : prepare top (name :: names) fs with ⟨err | _, fs₁⟩
      · simpa [hout] using hprepare
      · rw [hout] at hprepare hleads
        obtain ⟨q, hq, hinside⟩ := hleads rfl
        have hplace := place_inside (e := e) hprepare.2
          (n := (name :: names).getLast (by simp)) hq hinside
        rw [List.dropLast_append_getLast] at hplace
        simpa [hout] using ⟨hprepare.1.trans hplace.1, hplace.2⟩

/-- An entry that strays fails, and before it does only adds directories, the first of them
outside. -/
theorem unpackEntry_outside (hready : Ready top fs) (h : Strays top e fs) :
    (∃ err, (unpackEntry top e fs).1 = .error err) ∧
      ∃ p, ¬ top <+: p ∧ fs.entry? p = none ∧ GrowsBelow p fs (unpackEntry top e fs).2 ∧
        entry? (unpackEntry top e fs).2 p = some .directory := by
  obtain ⟨hlink, name, names, htarget, p, hp, hout⟩ := h
  obtain ⟨⟨err, herr⟩, hgrow, hdir⟩ := prepare_outside hready hp hout
  obtain ⟨front, next, rest, d, -, -, -, hmissing, -⟩ := hp
  have hstop : unpackEntry top e fs = (.error err, (prepare top (name :: names) fs).2) := by
    rcases hprepare : prepare top (name :: names) fs with ⟨result, fs₁⟩
    rw [hprepare] at herr
    obtain rfl : result = .error err := herr
    simp [unpackEntry, hlink, htarget, hprepare]
  rw [hstop]
  exact ⟨⟨err, rfl⟩, p, hout, hmissing, hgrow, hdir⟩

/-! ## All entries -/

/-- An entry is reached, with the file system that it finds, when all entries before it could be
unpacked. -/
def Reached (top : Place) (entries : List ArchiveEntry) (fs : FileSystem) (e : ArchiveEntry)
    (fs' : FileSystem) : Prop :=
  ∃ done rest, entries = done ++ e :: rest ∧ unpackEntries top done fs = (.ok (), fs')

/-- The first entry is reached, and what is reached after it if it can be unpacked. -/
theorem reached_cons {first : ArchiveEntry} {rest : List ArchiveEntry} :
    Reached top (first :: rest) fs e fs' ↔ (e = first ∧ fs' = fs) ∨
      ∃ fs₁, unpackEntry top first fs = (.ok (), fs₁) ∧ Reached top rest fs₁ e fs' := by
  constructor
  · rintro ⟨_ | ⟨x, done⟩, later, hsplit, hdone⟩
    · obtain ⟨rfl, rfl⟩ := List.cons.inj hsplit
      exact .inl ⟨rfl, (congrArg Prod.snd hdone).symm⟩
    · obtain ⟨rfl, rfl⟩ := List.cons.inj hsplit
      rw [unpackEntries] at hdone
      rcases hentry : unpackEntry top first fs with ⟨err | _, fs₁⟩
      · rw [hentry] at hdone
        cases congrArg Prod.fst hdone
      · rw [hentry] at hdone
        exact .inr ⟨fs₁, rfl, done, later, rfl, hdone⟩
  · rintro (⟨rfl, rfl⟩ | ⟨fs₁, hentry, done, later, rfl, hdone⟩)
    · exact ⟨[], rest, rfl, rfl⟩
    · refine ⟨first :: done, later, rfl, ?_⟩
      rw [unpackEntries, hentry]
      exact hdone

/-- Among entries one strays if one that is reached does. -/
theorem straysAmong_iff {entries : List ArchiveEntry} :
    StraysAmong top entries fs ↔ ∃ e fs', Reached top entries fs e fs' ∧ Strays top e fs' := by
  constructor
  · rintro ⟨done, e, rest, hsplit, hok, hstray⟩
    exact ⟨e, _, ⟨done, rest, hsplit, Prod.ext hok rfl⟩, hstray⟩
  · rintro ⟨e, fs', ⟨done, rest, hsplit, hdone⟩, hstray⟩
    refine ⟨done, e, rest, hsplit, by rw [hdone], ?_⟩
    rw [hdone]
    exact hstray

/-- Among entries one strays if the first does, or if the first can be unpacked and one strays
after it. -/
theorem straysAmong_cons (top : Place) (e : ArchiveEntry) (rest : List ArchiveEntry)
    (fs : FileSystem) :
    StraysAmong top (e :: rest) fs ↔ Strays top e fs ∨
      (unpackEntry top e fs).1 = .ok () ∧ StraysAmong top rest (unpackEntry top e fs).2 := by
  simp only [straysAmong_iff, reached_cons]
  constructor
  · rintro ⟨e', fs', ⟨rfl, rfl⟩ | ⟨fs₁, hentry, hreached⟩, hstray⟩
    · exact .inl hstray
    · rw [hentry]
      exact .inr ⟨rfl, e', fs', hreached, hstray⟩
  · rintro (hstray | ⟨hok, e', fs', hreached, hstray⟩)
    · exact ⟨e, fs, .inl ⟨rfl, rfl⟩, hstray⟩
    · exact ⟨e', fs', .inr ⟨_, Prod.ext hok rfl, hreached⟩, hstray⟩

/-- Entries of which none strays change nothing outside. -/
theorem unpackEntries_inside {entries : List ArchiveEntry} (hready : Ready top fs)
    (h : ¬ StraysAmong top entries fs) :
    SameOutside top fs (unpackEntries top entries fs).2 ∧
      Ready top (unpackEntries top entries fs).2 := by
  induction entries generalizing fs with
  | nil => exact ⟨fun _ _ => rfl, hready⟩
  | cons e rest ih =>
    rw [straysAmong_cons, not_or, not_and] at h
    have hfirst := unpackEntry_inside hready h.1
    have hrest := h.2
    rw [unpackEntries]
    rcases hentry : unpackEntry top e fs with ⟨err | _, fs₁⟩
    · simpa [hentry] using hfirst
    · rw [hentry] at hfirst hrest
      obtain ⟨hsame, hready'⟩ := ih hfirst.2 (hrest rfl)
      exact ⟨hfirst.1.trans hsame, hready'⟩

/-- Once an entry strays that is reached, the unpacking fails, and all that differs outside are the
directories that were added for it. -/
theorem unpackEntries_outside {entries : List ArchiveEntry} (hready : Ready top fs)
    (h : StraysAmong top entries fs) :
    (∃ err, (unpackEntries top entries fs).1 = .error err) ∧
      ∃ fs₁ p, SameOutside top fs fs₁ ∧ ¬ top <+: p ∧ fs₁.entry? p = none ∧
        GrowsBelow p fs₁ (unpackEntries top entries fs).2 ∧
        entry? (unpackEntries top entries fs).2 p = some .directory := by
  induction entries generalizing fs with
  | nil =>
    obtain ⟨done, e, rest, hsplit, -⟩ := h
    simp at hsplit
  | cons e rest ih =>
    rw [unpackEntries]
    by_cases hstray : Strays top e fs
    · obtain ⟨⟨err, herr⟩, p, hout, hmissing, hgrow, hdir⟩ := unpackEntry_outside hready hstray
      rcases hentry : unpackEntry top e fs with ⟨result, fs₁⟩
      rw [hentry] at herr hgrow hdir
      obtain rfl : result = .error err := herr
      exact ⟨⟨err, rfl⟩, fs, p, fun _ _ => rfl, hout, hmissing, hgrow, hdir⟩
    · obtain ⟨hthere, hlater⟩ := ((straysAmong_cons top e rest fs).mp h).resolve_left hstray
      obtain ⟨hsame, hready₁⟩ := unpackEntry_inside hready hstray
      rcases hentry : unpackEntry top e fs with ⟨result, fs₁⟩
      rw [hentry] at hthere hlater hsame hready₁
      obtain rfl : result = .ok () := hthere
      obtain ⟨herr, fs₂, p, hsame₂, houtside⟩ := ih hready₁ hlater
      exact ⟨herr, fs₂, p, hsame.trans hsame₂, houtside⟩

/-! ## The archive -/

/-- The entries that an archive has, the one at which it is cut short included. -/
def offered (a : Archive) : List ArchiveEntry :=
  match a.ending with
  | .brokenWithin e => a.entries ++ [e]
  | _ => a.entries

/-- Unpacking entries and then one more. -/
theorem unpackEntries_concat (top : Place) (entries : List ArchiveEntry) (e : ArchiveEntry)
    (fs : FileSystem) :
    unpackEntries top (entries ++ [e]) fs =
      match unpackEntries top entries fs with
      | (.error err, fs) => (.error err, fs)
      | (.ok (), fs) => unpackEntry top e fs := by
  induction entries generalizing fs with
  | nil =>
    simp only [List.nil_append, unpackEntries]
    rcases unpackEntry top e fs with ⟨_ | _, _⟩ <;> rfl
  | cons first rest ih =>
    simp only [List.cons_append, unpackEntries]
    rcases unpackEntry top first fs with ⟨_ | _, fs₁⟩
    · rfl
    · exact ih fs₁

/-- An archive is unpacked entry by entry: where it is cut short matters for the answer alone. -/
theorem unpack_entries (a : Archive) {dir : String} (h : fs.canonical dir = .ok top) :
    (a.unpack dir fs).2 = (unpackEntries top a.offered fs).2 ∧
      ∀ err, (unpackEntries top a.offered fs).1 = .error err →
        (a.unpack dir fs).1 = .error err := by
  obtain ⟨entries, ending⟩ := a
  simp only [unpack, h, offered]
  cases ending with
  | complete =>
    rcases unpackEntries top entries fs with ⟨_ | _, _⟩ <;> simp [unpackRest]
  | broken =>
    rcases unpackEntries top entries fs with ⟨_ | _, _⟩ <;> simp [unpackRest]
  | brokenWithin e =>
    simp only [unpackEntries_concat]
    rcases unpackEntries top entries fs with ⟨_ | _, fs₁⟩
    · simp
    · simp only [unpackRest]
      rcases unpackEntry top e fs₁ with ⟨_ | _, _⟩ <;> simp

/-- What a path leads to is there. -/
theorem ready_of_canonical (htree : fs.IsTree) {dir : String} (h : fs.canonical dir = .ok top) :
    Ready top fs := by
  refine ⟨htree, ?_⟩
  simp only [canonical, lookUp?] at h
  cases hplace : fs.resolve true dir with
  | error fault => simp [hplace, bind, Except.bind] at h
  | ok place =>
    cases hentry : fs.entry? place with
    | none => simp [hplace, hentry, bind, Except.bind] at h
    | some e =>
      obtain rfl : place = top := by simpa [hplace, hentry, bind, Except.bind] using h
      exact ⟨e, hentry⟩

/-- A mirror with a link in it that leads to an empty directory next to it. -/
def linkedMirror : FileSystem where
  entries := [(["mirror"], .directory), (["out"], .directory), (["mirror", "link"], .link "/out")]
  workingDir := []
  now := 0

/-- An archive with one file, two directories below the name of that link. -/
def nestedFile : Archive := ⟨[⟨"top/link/new/file", .file, ByteArray.empty, 0⟩], .complete⟩

end Repertoire.Archive
