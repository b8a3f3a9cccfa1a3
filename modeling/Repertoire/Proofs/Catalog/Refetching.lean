import Repertoire.Proofs.Catalog.Fetching
import Repertoire.Proofs.Catalog.Overlay
import Repertoire.Proofs.Catalog.Schedule

/-!
# Fetching archives one after the other

Syncs of archives into a local copy that starts out empty leave the archives lying over each other:
at every place stands what the last archive has there that has anything there. The copy is then
what a fresh clone of the last archive would be exactly when that archive still has something
wherever an earlier one had; what was removed or renamed in between stays behind under its old name.
The watermark is left out of the comparison, as a clone does not write it.

The directory of the copy may be missing at the start. No archive can bring in links, so there are
none below it.
-/

namespace Repertoire

namespace Watermark

open Repertoire.FileSystem

variable {fs fs' : FileSystem} {dir : String} {d : Place}

/-- A watermark that was written stands at its place, where at most a file stood, and nothing else
changed. There must have been no link in its place. -/
theorem mark_written (hfs : fs.Grounded) (hd : fs.Reaches dir d)
    (hlink : ∀ t, fs.entry? (d ++ [fileName]) ≠ some (.link t))
    (h : mark dir fs = (.ok (), fs')) :
    fs.AtMostFile (d ++ [fileName]) ∧
      Written (d ++ [fileName]) (.file (content fs.now).toUTF8 fs.now) fs fs' := by
  rw [mark_eq, (createDirectories_preparation hfs dir).there d hd] at h
  simp only [writeFile] at h
  cases hplace : fs.resolve true (path dir) with
  | error fault =>
    simp only [hplace] at h
    cases congrArg Prod.fst h
  | ok r =>
    obtain ⟨-, hsteps⟩ := (resolve_path fs dir r).mp hplace
    obtain ⟨j, hgo⟩ := hd.2.append hfs
    obtain ⟨onLink, hwalk⟩ := follow_eq_walk fs true j
    rw [hgo true [.name fileName] (by simp), hwalk] at hsteps
    simp only [hplace] at h
    have hshort : ¬ nameLimit < fileName.utf8ByteSize := by decide
    by_cases hspot : fs.AtMostFile (d ++ [fileName])
    -- Nothing or a file there is written over; a directory there fails, and a link is ruled out.
    · obtain ⟨-, rfl⟩ := (walk_atMostFile hspot hshort).mp hsteps
      have hput : fs.put (d ++ [fileName]) (.file (content fs.now).toUTF8 fs.now) = fs' := by
        rcases hspot with hnone | ⟨_, _, hfile⟩
        · simp only [hnone] at h
          exact congrArg Prod.snd h
        · simp only [hfile] at h
          exact congrArg Prod.snd h
      subst hput
      exact ⟨hspot, fun q => entry?_put fs (by simp) _ q, put_workingDir ..⟩
    · rw [walk, if_neg hshort] at hsteps
      rcases hentry : fs.entry? (d ++ [fileName]) with _ | _ | _ | t
      · exact absurd (.inl hentry) hspot
      · exact absurd (.inr ⟨_, _, hentry⟩) hspot
      · rw [hentry] at hsteps
        obtain rfl : d ++ [fileName] = r := Except.ok.inj hsteps
        simp only [hentry] at h
        cases congrArg Prod.fst h
      · exact absurd hentry (hlink t)

end Watermark

namespace Tarball

open Repertoire.Archive (unpackEntries traces Sparser unpackEntries_overlay unpackEntries_of_sparser
  unpackEntries_steady)
open Repertoire.FileSystem
open Repertoire.LocalCopy (SyncCall Turn turn turns clone sync grounded_atTime)
open Watermark (fileName mark)

variable {remote : CatalogSource → RemoteAnswer} {url dir : String}
  {fs fs' made empty : FileSystem} {top : Place} {a : Archive}
  {standing : List String → Option Entry} {c : SyncCall} {calls : List SyncCall}

/-! ## Fetches that succeed -/

/-- An archive is unpacked successfully exactly when it is complete and all of its entries are. -/
theorem unpack_ok_iff (h : fs.canonical dir = .ok top) :
    a.unpack dir fs = (.ok (), fs') ↔
      a.ending = .complete ∧ unpackEntries top a.entries fs = (.ok (), fs') := by
  obtain ⟨entries, ending⟩ := a
  simp only [Archive.unpack, h]
  rcases unpackEntries top entries fs with ⟨err | _, fs₁⟩
  · simp
  · cases ending with
    | complete => simp [Archive.unpackRest]
    | broken => simp [Archive.unpackRest]
    | brokenWithin e =>
      simp only [Archive.unpackRest, reduceCtorEq, false_and, iff_false]
      rcases Archive.unpackEntry top e fs₁ with ⟨err | _, fs₂⟩ <;> simp

/-- A fetch into a directory that is reached succeeds exactly when the archive that is served can be
unpacked there. -/
theorem fetch_ok_iff (hfs : fs.Grounded) (htop : fs.Reaches dir top) :
    fetch remote url dir fs = (.ok (), fs') ↔
      dir ≠ "" ∧ ∃ a, Serves remote url a ∧ a.ending = .complete ∧
        unpackEntries top a.entries fs = (.ok (), fs') := by
  constructor
  · intro h
    rcases fetch_cases hfs htop remote url with ⟨a, hserves, hfetch⟩ | ⟨-, err, hfetch⟩
    · rw [hfetch] at h
      cases hcanon : fs.canonical dir with
      | error fault =>
        simp only [Archive.unpack, hcanon] at h
        cases congrArg Prod.fst h
      | ok place =>
        obtain ⟨hne, rfl⟩ := (htop.canonical_iff hfs).mp hcanon
        exact ⟨hne, a, hserves, (unpack_ok_iff hcanon).mp h⟩
    · rw [hfetch] at h
      cases congrArg Prod.fst h
  · rintro ⟨hne, a, hserves, hunpack⟩
    have hcanon := (htop.canonical_iff hfs).mpr ⟨hne, rfl⟩
    rcases fetch_cases hfs htop remote url with ⟨a', hserves', hfetch⟩ | ⟨hno, -⟩
    · obtain rfl := hserves.unique hserves'
      rw [hfetch]
      exact (unpack_ok_iff hcanon).mpr hunpack
    · exact absurd hserves (hno a)

/-! ## What stands in the local copy -/

/-- A local copy without links, and what stands in it, the watermark aside. -/
structure Mirror (dir : String) (top : Place) (standing : List String → Option Entry)
    (fs : FileSystem) : Prop where
  grounded : fs.Grounded
  reaches : fs.Reaches dir top
  free : LinkFree top fs
  stands : ∀ names, names ≠ [] → names ≠ [fileName] → fs.entry? (top ++ names) = standing names

/-- In an empty directory nothing stands. -/
theorem mirror_of_isEmptyAt (hfs : fs.Grounded) (htop : fs.Reaches dir top)
    (hempty : fs.IsEmptyAt top) : Mirror dir top (fun _ => none) fs := by
  refine ⟨hfs, htop, fun names t hlink => ?_, fun names hne _ => hempty.below hfs.tree hne⟩
  by_cases hnil : names = []
  · rw [hnil, List.append_nil, htop.2.2] at hlink
    simp at hlink
  · rw [hempty.below hfs.tree hnil] at hlink
    simp at hlink

/-- What stands in a local copy can be said in other words. -/
theorem Mirror.congr {standing' : List String → Option Entry} (h : Mirror dir top standing fs)
    (hsame : ∀ names, names ≠ [] → standing names = standing' names) :
    Mirror dir top standing' fs :=
  ⟨h.grounded, h.reaches, h.free, fun names hne hname =>
    (h.stands names hne hname).trans (hsame names hne)⟩

/-- Time does not change what stands in a local copy. -/
theorem Mirror.atTime (h : Mirror dir top standing fs) (time : ℤ) :
    Mirror dir top standing (fs.atTime time) := by
  refine ⟨grounded_atTime h.grounded time, ⟨h.reaches.1, ?_, h.reaches.2.2⟩, h.free, h.stands⟩
  rw [resolveSteps_atTime]
  exact h.reaches.2.1

/-- A fetch that succeeds and the watermark after it lay an archive over what stood there. -/
theorem Mirror.fetched (h : Mirror dir top standing made)
    (hunpack : unpackEntries top a.entries made = (.ok (), fs))
    (hmark : mark dir fs = (.ok (), fs')) :
    Mirror dir top (fun names => (traces a.entries names).or (standing names)) fs' := by
  have hsteady := unpackEntries_steady h.grounded top a.entries
  rw [hunpack] at hsteady
  obtain ⟨hfree, hover⟩ := unpackEntries_overlay h.grounded h.free h.reaches.2.2 hunpack
  have hreached := h.reaches.of_steady hsteady
  obtain ⟨hspot, hwritten⟩ := Watermark.mark_written hsteady.grounded hreached (hfree _) hmark
  have hsteady' := hwritten.steady hsteady.grounded hreached.2.2 hspot
  refine ⟨hsteady'.grounded, hreached.of_steady hsteady', fun names t hlink => ?_,
    fun names hne hname => ?_⟩
  · rw [hwritten.entry] at hlink
    split at hlink
    · simp at hlink
    · exact hfree names t hlink
  · rw [hwritten.entry, if_neg fun heq => hname (List.append_cancel_left heq), hover,
      h.stands names hne hname]

/-- There is less in an empty directory than in any local copy. -/
theorem Mirror.sparser (h : Mirror dir top standing fs) (hempty : empty.Grounded)
    (hreached : empty.Reaches dir top) (hbare : empty.IsEmptyAt top) : Sparser top empty fs := by
  refine ⟨fun names hmissing => ?_, fun names _ => ?_, fun names hfile => ?_⟩
  · refine hbare.below hempty.tree fun hnil => ?_
    rw [hnil, List.append_nil, h.reaches.2.2] at hmissing
    simp at hmissing
  · by_cases hnil : names = []
    · rw [hnil, List.append_nil]
      exact .inr hreached.2.2
    · exact .inl (hbare.below hempty.tree hnil)
  · refine .inl (hbare.below hempty.tree fun hnil => ?_)
    rw [hnil, List.append_nil, AtMostFile, h.reaches.2.2] at hfile
    rcases hfile with hfile | ⟨_, _, hfile⟩ <;> simp at hfile

/-! ## One sync and one clone -/

/-- A sync that succeeded unpacked the archive that was served, and laid it over what stood in the
local copy once its directory was there. -/
theorem turn_overlay (hfs : fs.Grounded) (hmade : (createDirectories dir fs).2 = made)
    (h : Mirror dir top standing made)
    (hplain : Watermark.isPopulated made dir = true → Watermark.isPopulated fs dir = true)
    (hkind : c.fetcher = fetcher remote) (hdone : (turn dir c fs).Succeeded) :
    dir ≠ "" ∧ ∃ a, Serves remote c.url a ∧ a.ending = .complete ∧
      (∃ fs', unpackEntries top a.entries (made.atTime c.time) = (.ok (), fs')) ∧
      Mirror dir top (fun names => (traces a.entries names).or (standing names))
        (turn dir c fs).run.files := by
  obtain ⟨o, hok, hne⟩ := hdone
  have hnow := h.atTime c.time
  have hmade' : (createDirectories dir (fs.atTime c.time)).2 = made.atTime c.time := by
    rw [createDirectories_atTime, hmade]
  simp only [LocalCopy.turn, hkind] at hok ⊢
  obtain ⟨fs', hfetch, hmark⟩ := sync_ok_files (grounded_atTime hfs c.time) hmade' hnow.reaches
    (by simpa only [Watermark.isPopulated_atTime] using hplain) hok hne
  obtain ⟨hdir, a, hserves, hcomplete, hunpack⟩ :=
    (fetch_ok_iff hnow.grounded hnow.reaches).mp hfetch
  exact ⟨hdir, a, hserves, hcomplete, ⟨fs', hunpack⟩, hnow.fetched hunpack hmark⟩

/-- A fresh clone. -/
def freshClone (dir : String) (c : SyncCall) (fs : FileSystem) : SyncRun Bool :=
  clone c.fetcher c.url dir fs

/-- What a fresh clone has at names from the target. -/
def cloned (dir : String) (top : Place) (fs : FileSystem) (c : SyncCall) (names : List String) :
    Option Entry :=
  entry? (freshClone dir c fs).files (top ++ names)

/-- An archive that could be unpacked into some local copy can be cloned into an empty directory,
and is all that stands there then. -/
theorem freshClone_traces (hfs : fs.Grounded) (hempty : (createDirectories dir fs).2 = empty)
    (hreached : empty.Reaches dir top) (hbare : empty.IsEmptyAt top)
    (h : Mirror dir top standing made) (hkind : c.fetcher = fetcher remote) (hdir : dir ≠ "")
    (hserves : Serves remote c.url a) (hcomplete : a.ending = .complete)
    (hunpack : unpackEntries top a.entries made = (.ok (), fs')) :
    (freshClone dir c fs).outcome = .ok true ∧ ∀ names, names ≠ [] →
      cloned dir top fs c names = traces a.entries names := by
  have hgrounded : empty.Grounded := hempty ▸ (createDirectories_preparation hfs dir).grounded
  have hmirror := mirror_of_isEmptyAt hgrounded hreached hbare
  obtain ⟨fs₁, hunpack₁⟩ := unpackEntries_of_sparser hgrounded hmirror.free hreached.2.2
    h.grounded h.free h.reaches.2.2 (h.sparser hgrounded hreached hbare) hunpack
  obtain ⟨-, hover⟩ := unpackEntries_overlay hgrounded hmirror.free hreached.2.2 hunpack₁
  have hfetch := (fetch_ok_iff hgrounded hreached).mpr ⟨hdir, a, hserves, hcomplete, hunpack₁⟩
  obtain ⟨houtcome, hfiles⟩ := clone_run remote c.url (createDirectories_ok hfs hempty hreached)
    (Watermark.isPopulated_of_isEmptyAt hgrounded hreached hbare)
  simp only [cloned, freshClone, hkind, houtcome, hfiles, hfetch]
  refine ⟨rfl, fun names hne => ?_⟩
  rw [hover, hbare.below hgrounded.tree hne, Option.or_none]

/-- A sync that succeeded lays a fresh clone over what stood in the local copy. -/
theorem turn_clone {cur : FileSystem} (hfs : fs.Grounded)
    (hempty : (createDirectories dir fs).2 = empty) (hreached : empty.Reaches dir top)
    (hbare : empty.IsEmptyAt top) (hcur : cur.Grounded)
    (hmade : (createDirectories dir cur).2 = made) (h : Mirror dir top standing made)
    (hplain : Watermark.isPopulated made dir = true → Watermark.isPopulated cur dir = true)
    (hkind : ∃ remote, c.fetcher = fetcher remote) (hdone : (turn dir c cur).Succeeded) :
    (freshClone dir c fs).outcome = .ok true ∧
      Mirror dir top
        (fun names => (cloned dir top fs c names).or (standing names))
        (turn dir c cur).run.files := by
  obtain ⟨remote, hremote⟩ := hkind
  obtain ⟨hdir, a, hserves, hcomplete, ⟨fs', hunpack⟩, hover⟩ :=
    turn_overlay hcur hmade h hplain hremote hdone
  obtain ⟨hfresh, htraces⟩ := freshClone_traces hfs hempty hreached hbare (h.atTime c.time)
    hremote hdir hserves hcomplete hunpack
  exact ⟨hfresh, hover.congr fun names hne => by rw [htraces names hne]⟩

/-! ## Syncs in order -/

/-- The files after calls in order. -/
def after (dir : String) : List SyncCall → FileSystem → FileSystem
  | [], fs => fs
  | c :: rest, fs => after dir rest (turn dir c fs).run.files

/-- What the last of the calls has in a fresh clone at names from the target, among those that have
anything there. -/
def newest (dir : String) (top : Place) (fs : FileSystem) :
    List SyncCall → List String → Option Entry
  | [], _ => none
  | c :: rest, names =>
    (newest dir top fs rest names).or (cloned dir top fs c names)

/-- What is asked of syncs into a local copy that starts out empty. Each archive could be cloned
afresh. What stands in the copy at the end is what the last clone has that has anything there. The
copy agrees with the clone of the last archive exactly when every place at which an earlier clone
has something is one at which the last one has. -/
structure OverlaysClones (dir : String) (top : Place) (calls : List SyncCall)
    (fs final : FileSystem) : Prop where
  fresh : ∀ c ∈ calls, (freshClone dir c fs).outcome = .ok true
  layered : ∀ names, names ≠ [] → names ≠ [fileName] →
    final.entry? (top ++ names) = newest dir top fs calls names
  agrees : ∀ earlier last, calls = earlier ++ [last] →
    ((∀ names, names ≠ [] → names ≠ [fileName] →
        final.entry? (top ++ names) = cloned dir top fs last names) ↔
      ∀ c ∈ earlier, ∀ names, names ≠ [] → names ≠ [fileName] →
        cloned dir top fs last names = none →
        cloned dir top fs c names = none)

/-- The newest of more calls. -/
theorem newest_concat (earlier : List SyncCall) (last : SyncCall) (names : List String) :
    newest dir top fs (earlier ++ [last]) names =
      (cloned dir top fs last names).or
        (newest dir top fs earlier names) := by
  induction earlier with
  | nil => simp only [List.nil_append, newest, Option.none_or, Option.or_none]
  | cons c rest ih => rw [List.cons_append, newest, newest, ih, Option.or_assoc]

/-- No call has anything at a place exactly when each of them has nothing there. -/
theorem newest_eq_none (calls : List SyncCall) (names : List String) :
    newest dir top fs calls names = none ↔
      ∀ c ∈ calls, cloned dir top fs c names = none := by
  induction calls with
  | nil => simp [newest]
  | cons c rest ih => simp [newest, ih, and_comm]

/-- Syncs that succeed lay their archives over what stands in a local copy. -/
theorem turns_mirror {cur : FileSystem} (hfs : fs.Grounded)
    (hempty : (createDirectories dir fs).2 = empty) (hreached : empty.Reaches dir top)
    (hbare : empty.IsEmptyAt top) (h : Mirror dir top standing cur)
    (hkind : ∀ c ∈ calls, ∃ remote, c.fetcher = fetcher remote)
    (hdone : ∀ t ∈ turns dir calls cur, t.Succeeded) :
    (∀ c ∈ calls, (freshClone dir c fs).outcome = .ok true) ∧
      Mirror dir top (fun names => (newest dir top fs calls names).or (standing names))
        (after dir calls cur) := by
  induction calls generalizing cur standing with
  | nil => exact ⟨by simp, h.congr fun names _ => by rw [newest, Option.none_or]⟩
  | cons c rest ih =>
    have hthere : (createDirectories dir cur).2 = cur := by
      rw [(createDirectories_preparation h.grounded dir).there top h.reaches]
    obtain ⟨hfresh, hover⟩ := turn_clone hfs hempty hreached hbare h.grounded hthere h id
      (hkind c List.mem_cons_self) (hdone _ List.mem_cons_self)
    obtain ⟨hrest, hmirror⟩ := ih hover (fun c hc => hkind c (List.mem_cons_of_mem _ hc))
      fun t ht => hdone t (List.mem_cons_of_mem _ ht)
    refine ⟨List.forall_mem_cons.mpr ⟨hfresh, hrest⟩, hmirror.congr fun names _ => ?_⟩
    rw [newest, Option.or_assoc]

/-- Syncs of archives that succeed, into a directory that is empty at first, leave the fresh clones
of these archives lying over each other. -/
theorem turns_overlayClones (hfs : fs.Grounded)
    (hreached : (createDirectories dir fs).2.Reaches dir top)
    (hbare : (createDirectories dir fs).2.IsEmptyAt top) (hne : calls ≠ [])
    (hkind : ∀ c ∈ calls, ∃ remote, c.fetcher = fetcher remote)
    (hdone : ∀ t ∈ turns dir calls fs, t.Succeeded) :
    OverlaysClones dir top calls fs (after dir calls fs) := by
  have hgrounded := (createDirectories_preparation hfs dir).grounded
  have hmirror := mirror_of_isEmptyAt hgrounded hreached hbare
  have hunpopulated := Watermark.isPopulated_of_isEmptyAt hgrounded hreached hbare
  obtain ⟨first, rest, rfl⟩ := List.exists_cons_of_ne_nil hne
  obtain ⟨hfresh, hover⟩ := turn_clone hfs rfl hreached hbare hfs rfl hmirror
    (fun h => absurd (hunpopulated.symm.trans h) Bool.false_ne_true)
    (hkind first List.mem_cons_self) (hdone _ List.mem_cons_self)
  obtain ⟨hrest, hfinal⟩ := turns_mirror hfs rfl hreached hbare hover
    (fun c hc => hkind c (List.mem_cons_of_mem _ hc))
    fun t ht => hdone t (List.mem_cons_of_mem _ ht)
  have hlayered (names : List String) (hne : names ≠ []) (hname : names ≠ [fileName]) :
      entry? (after dir (first :: rest) fs) (top ++ names) =
        newest dir top fs (first :: rest) names := by
    rw [after, hfinal.stands names hne hname, newest, Option.or_none]
  -- The last clone lies on top. So the copy is that clone alone exactly where the clones in front
  -- of it have nothing that it has not.
  refine ⟨List.forall_mem_cons.mpr ⟨hfresh, hrest⟩, hlayered, fun earlier last hsplit => ?_⟩
  rw [hsplit] at hlayered ⊢
  constructor
  · intro hagree c hc names hne hname hnone
    have hlast := hlayered names hne hname
    rw [newest_concat, hagree names hne hname, hnone, Option.none_or, eq_comm,
      newest_eq_none] at hlast
    exact hlast c hc
  · intro hcover names hne hname
    rw [hlayered names hne hname, newest_concat]
    cases hentry : cloned dir top fs last names with
    | some e => rw [Option.some_or]
    | none =>
      rw [Option.none_or, newest_eq_none]
      exact fun c hc => hcover c hc names hne hname hentry

/-- An empty local copy. -/
def emptyCopy : FileSystem where
  entries := [(["mirror"], .directory)]
  workingDir := []
  now := 0

/-- A sync from a remote that serves files right below the top of an archive. -/
def syncOf (names : List String) : SyncCall where
  fetcher := fetcher fun _ => .answered 200
    ⟨names.map fun n => ⟨"top/" ++ n, .file, "A community skill.\n".toUTF8, 0⟩, .complete⟩
  url := "owner/repo"
  force := true
  time := 0

/-- Two syncs of a catalog from which a file was removed in between. -/
def removal : List SyncCall := [syncOf ["a.md", "b.md"], syncOf ["a.md"]]

/-- After the second sync the local copy still has the file that was removed, which a fresh clone
does not have. -/
theorem turns_overlayClones_removal :
    emptyCopy.Grounded ∧ (∀ t ∈ turns "mirror" removal emptyCopy, t.Succeeded) ∧
      OverlaysClones "mirror" ["mirror"] removal emptyCopy (after "mirror" removal emptyCopy) ∧
      entry? (after "mirror" removal emptyCopy) ["mirror", "b.md"] =
        some (.file "A community skill.\n".toUTF8 0) ∧
      cloned "mirror" ["mirror"] emptyCopy (syncOf ["a.md"]) ["b.md"] = none := by
  have hgrounded : emptyCopy.Grounded := by
    refine ⟨isTree_of_entries fun x hx => ?_, rfl⟩
    obtain rfl := List.mem_singleton.mp hx
    rfl
  have hmade : (createDirectories "mirror" emptyCopy).2 = emptyCopy := rfl
  have hreached : emptyCopy.Reaches "mirror" ["mirror"] := ⟨by decide, rfl, rfl⟩
  have hbare : emptyCopy.IsEmptyAt ["mirror"] := fun n => by
    simp [FileSystem.entry?, emptyCopy]
  have hdone : ∀ t ∈ turns "mirror" removal emptyCopy, t.Succeeded := by
    intro t ht
    simp only [turns, removal, List.mem_cons, List.not_mem_nil, or_false] at ht
    rcases ht with rfl | rfl
    · exact ⟨.cloned, rfl, by simp⟩
    · exact ⟨.pulled, rfl, by simp⟩
  have hkind : ∀ c ∈ removal, ∃ remote, c.fetcher = fetcher remote := by
    intro c hc
    simp only [removal, List.mem_cons, List.not_mem_nil, or_false] at hc
    rcases hc with rfl | rfl <;> exact ⟨_, rfl⟩
  exact ⟨hgrounded, hdone, turns_overlayClones hgrounded (hmade ▸ hreached) (hmade ▸ hbare)
    (by simp [removal]) hkind hdone, rfl, rfl⟩

end Tarball

end Repertoire
