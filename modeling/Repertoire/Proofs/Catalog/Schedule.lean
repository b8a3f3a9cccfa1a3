import Repertoire.Catalog.Tarball
import Repertoire.Proofs.Catalog.Policy

/-!
# Calls that keep a local copy in step, one after the other

Calls on one local copy come at times of their own, each when the one before it is over, and nothing
else touches the files in between. Each call may use a fetcher of its own, so that fetches may fail
or succeed in any order. Once a call has brought the copy in step, calls that are not forced are
skipped until the interval is over; after a call that failed, the next one tries again.

What is said about a run is proved by cutting it at any of its calls. The clock never goes back
during a run, without which a call that comes later could find an older watermark.
-/

namespace Repertoire.LocalCopy

open Watermark (Fresh entryAt? interval)

/-- A call on a local copy. -/
structure SyncCall where
  fetcher : Fetcher
  url : String
  force : Bool
  time : Int

/-- A call with the files it found and what it came to. -/
structure Turn where
  call : SyncCall
  before : FileSystem
  run : SyncRun SyncOutcome

variable {dir : String} {fs : FileSystem} {c : SyncCall} {calls : List SyncCall} {a : Turn}

/-- What a call comes to. -/
def turn (dir : String) (c : SyncCall) (fs : FileSystem) : Turn :=
  ⟨c, fs.atTime c.time, sync c.fetcher c.url dir c.force (fs.atTime c.time)⟩

/-- Calls in order, each finding the files that the one before left. -/
def turns (dir : String) : List SyncCall → FileSystem → List Turn
  | [], _ => []
  | c :: rest, fs => turn dir c fs :: turns dir rest (turn dir c fs).run.files

/-- Calls whose fetchers leave the watermark alone, each at a time when the one before is over. The
watermark can be written whenever a call gets to that. -/
def Orderly (dir : String) : List SyncCall → FileSystem → Prop
  | [], _ => True
  | c :: rest, fs => c.fetcher.Sound dir ∧ fs.now ≤ c.time ∧
      Markable c.fetcher c.url dir (fs.atTime c.time) ∧ Orderly dir rest (turn dir c fs).run.files

/-- The call brought the local copy in step. -/
def Turn.Succeeded (a : Turn) : Prop := ∃ o, a.run.outcome = .ok o ∧ o ≠ .skipped

/-- The call failed. -/
def Turn.Failed (a : Turn) : Prop := ∃ e, a.run.outcome = .error e

/-- What is asked of calls in order. Each of them follows the policy. After one that succeeded,
calls that are not forced are skipped for the length of the interval. After one that failed without
being forced, the next one is not skipped, unless the path stepped up behind something missing. -/
structure KeepsInStep (dir : String) (log : List Turn) : Prop where
  each : ∀ a ∈ log,
    FollowsPolicy a.call.fetcher a.call.url dir a.call.force a.before a.run
  quiet : ∀ earlier a later, log = earlier ++ a :: later → a.Succeeded →
    (∀ b ∈ later, b.call.force = false) →
      ∀ b ∈ later, b.before.now - a.run.files.now ≤ interval →
        b.run.outcome = .ok .skipped ∧ b.run.calls = []
  retried : ∀ earlier a b later, log = earlier ++ a :: b :: later → a.Failed →
    a.call.force = false → ¬ a.before.StepsUp dir → b.run.outcome ≠ .ok .skipped

/-! ## Files at another time -/

/-- Time does not change what stands where. -/
theorem grounded_atTime (h : fs.Grounded) (time : Int) : (fs.atTime time).Grounded :=
  ⟨h.tree, h.home⟩

/-- Time does not change the watermark. -/
theorem entryAt?_atTime (fs : FileSystem) (dir : String) (time : Int) :
    entryAt? (fs.atTime time) dir = entryAt? fs dir := by
  rw [entryAt?, entryAt?, FileSystem.lookUp?_atTime]

/-! ## Single calls -/

/-- What any course leaves is a tree of files, and no time before. -/
theorem Course.leaves {f : Fetcher} {url : String} {force : Bool} {run : SyncRun SyncOutcome}
    (hfs : fs.Grounded) (h : Course f url dir force fs run) :
    run.files.Grounded ∧ fs.now ≤ run.files.now := by
  have hprepared := FileSystem.createDirectories_preparation hfs dir
  cases h with
  | skipped => exact ⟨hfs, Int.le_refl fs.now⟩
  | unprepared _ hprep =>
    rw [hprep] at hprepared
    exact ⟨hprepared.grounded, Int.le_of_eq hprepared.now.symm⟩
  | failed _ hprep _ _ hleft =>
    rw [hprep] at hprepared
    exact ⟨hleft.grounded, hprepared.now ▸ hleft.now⟩
  | fetched _ hprep _ _ hleft hstamped =>
    rw [hprep] at hprepared
    exact ⟨hstamped.grounded, hstamped.now ▸ hprepared.now ▸ hleft.now⟩
  | surfaced _ hprep _ hstamped =>
    rw [hprep] at hprepared
    exact ⟨hstamped.grounded, Int.le_of_eq (hstamped.now.trans hprepared.now).symm⟩

/-- A call that succeeded wrote the watermark. -/
theorem Course.stamped {f : Fetcher} {url : String} {force : Bool} {run : SyncRun SyncOutcome}
    {o : SyncOutcome} (h : Course f url dir force fs run) (hok : run.outcome = .ok o)
    (hdone : o ≠ .skipped) : run.files.modified? (Watermark.path dir) = some run.files.now := by
  cases h with
  | skipped => exact absurd (Except.ok.inj hok).symm hdone
  | unprepared => simp at hok
  | failed => simp at hok
  | fetched _ _ _ _ _ hstamped => exact hstamped.time
  | surfaced _ _ _ hstamped => exact hstamped.time

/-- A call that failed and was not forced leaves the watermark as stale as it was. -/
theorem Course.stale {f : Fetcher} {url : String} {run : SyncRun SyncOutcome} {e : Error}
    (hfs : fs.Grounded) (h : Course f url dir false fs run) (herror : run.outcome = .error e)
    (hup : ¬ fs.StepsUp dir) :
    ¬ Fresh fs dir ∧ entryAt? run.files dir = entryAt? fs dir := by
  have hfresh (hdue : false = true ∨ ¬ Fresh fs dir) : ¬ Fresh fs dir :=
    hdue.resolve_left Bool.false_ne_true
  cases h with
  | skipped => simp at herror
  | unprepared hdue hprep => exact ⟨hfresh hdue, Watermark.entryAt?_of_failure hfs hprep⟩
  | failed hdue hprep _ _ hleft =>
    exact ⟨hfresh hdue,
      hleft.watermark.trans (Watermark.entryAt?_of_success hfs hup hprep)⟩
  | fetched => simp at herror
  | surfaced => simp at herror

/-- A watermark that was just written stays fresh for the length of the interval. -/
theorem fresh_of_stamp {time : Int} (h : fs.modified? (Watermark.path dir) = some fs.now)
    (htime : time - fs.now ≤ interval) : Fresh (fs.atTime time) dir := by
  rw [Watermark.modified?_path] at h
  rw [Fresh, Watermark.modified?_path, entryAt?_atTime, FileSystem.atTime_now]
  cases hentry : entryAt? fs dir with
  | none => simp [hentry] at h
  | some e =>
    rw [hentry] at h
    cases e with
    | file content written =>
      have hwritten : written = fs.now := Option.some.inj h
      exact ⟨written, rfl, hwritten ▸ htime⟩
    | directory =>
      have hpositive : (0 : Int) ≤ interval := by decide
      exact ⟨time, rfl, by omega⟩
    | link target => simp at h

/-- A call that is not forced is skipped while the watermark is fresh. -/
theorem turn_of_fresh (hforce : c.force = false) (hfresh : Fresh (fs.atTime c.time) dir) :
    (turn dir c fs).run = ⟨.ok .skipped, [], fs.atTime c.time⟩ := by
  have hdue : Watermark.isDue (fs.atTime c.time) dir = false := by
    rw [Bool.eq_false_iff, Ne, Watermark.isDue_iff, not_not]
    exact hfresh
  simp only [turn, sync, hforce, hdue]
  rfl

/-! ## Calls in order -/

/-- The course of a call in an orderly run. -/
theorem course_of_orderly (hfs : fs.Grounded) (h : Orderly dir (c :: calls) fs) :
    Course c.fetcher c.url dir c.force (fs.atTime c.time) (turn dir c fs).run :=
  sync_course h.1 (grounded_atTime hfs c.time) h.2.2.1

/-- A run cut at one of its calls: what comes from there on is an orderly run too. -/
theorem turns_cut {earlier later : List Turn} (hfs : fs.Grounded) (h : Orderly dir calls fs)
    (hcut : turns dir calls fs = earlier ++ a :: later) :
    ∃ (c : SyncCall) (rest : List SyncCall) (fs' : FileSystem), fs'.Grounded ∧
      Orderly dir (c :: rest) fs' ∧ a = turn dir c fs' ∧ later = turns dir rest a.run.files := by
  induction calls generalizing fs earlier with
  | nil => simp [turns] at hcut
  | cons c rest ih =>
    cases earlier with
    | nil =>
      obtain ⟨hfirst, hrest⟩ := List.cons.inj hcut
      exact ⟨c, rest, fs, hfs, h, hfirst.symm, by rw [← hfirst, hrest]⟩
    | cons first earlier =>
      have hleft := (course_of_orderly hfs h).leaves (grounded_atTime hfs c.time)
      exact ih hleft.1 h.2.2.2 (List.cons.inj hcut).2

/-- No call of a run comes before its start. -/
theorem now_le_of_mem_turns (hfs : fs.Grounded) (h : Orderly dir calls fs)
    (ha : a ∈ turns dir calls fs) : fs.now ≤ a.before.now := by
  induction calls generalizing fs with
  | nil => simp [turns] at ha
  | cons c rest ih =>
    rcases List.mem_cons.mp ha with rfl | ha
    · exact h.2.1
    · have hleft := (course_of_orderly hfs h).leaves (grounded_atTime hfs c.time)
      calc
        fs.now ≤ c.time := h.2.1
        _ ≤ (turn dir c fs).run.files.now := hleft.2
        _ ≤ a.before.now := ih hleft.1 h.2.2.2 ha

/-- While the watermark would be fresh at the time of a call, all calls up to it are skipped. The
induction carries the files at all times, since a call that is skipped leaves nothing but its
time. -/
theorem skipped_of_fresh (limit : Int) (hfs : fs.Grounded) (h : Orderly dir calls fs)
    (hfresh : ∀ time ≤ limit, Fresh (fs.atTime time) dir)
    (hforce : ∀ b ∈ turns dir calls fs, b.call.force = false) :
    ∀ b ∈ turns dir calls fs, b.before.now ≤ limit →
      b.run.outcome = .ok .skipped ∧ b.run.calls = [] := by
  induction calls generalizing fs with
  | nil => simp [turns]
  | cons c rest ih =>
    intro b hb htime
    have hfirst : c.time ≤ limit → (turn dir c fs).run = ⟨.ok .skipped, [], fs.atTime c.time⟩ :=
      fun hc => turn_of_fresh (hforce _ List.mem_cons_self) (hfresh c.time hc)
    rcases List.mem_cons.mp hb with rfl | hb
    · rw [hfirst htime]
      exact ⟨rfl, rfl⟩
    · have hleft := (course_of_orderly hfs h).leaves (grounded_atTime hfs c.time)
      have hc : c.time ≤ limit := calc
        c.time ≤ (turn dir c fs).run.files.now := hleft.2
        _ ≤ b.before.now := now_le_of_mem_turns hleft.1 h.2.2.2 hb
        _ ≤ limit := htime
      have hrest := h.2.2.2
      have hlater (x : Turn) (hx : x ∈ turns dir rest (turn dir c fs).run.files) :
          x.call.force = false := hforce x (List.mem_cons_of_mem _ hx)
      rw [hfirst hc] at hb hrest hlater
      exact ih (grounded_atTime hfs c.time) hrest hfresh hlater b hb htime

/-- A fetcher whose remote cannot be reached. -/
def offline : Fetcher := Tarball.fetcher fun _ => .unreachable

/-- A fetcher that gets nothing from its remote changes nothing. -/
theorem fetch_offline (url dir : String) (fs : FileSystem) :
    ∃ e, Tarball.fetch (fun _ => .unreachable) url dir fs = (.error e, fs) := by
  rw [Tarball.fetch]
  cases CatalogSource.parse url with
  | error e => exact ⟨e, rfl⟩
  | ok source => exact ⟨.http, rfl⟩

/-- A fetcher that gets nothing from its remote leaves every watermark alone. -/
theorem sound_offline (dir : String) : offline.Sound dir := by
  have hleft (url : String) (fs : FileSystem) (hfs : fs.Grounded) :
      LeavesWatermark dir fs (Tarball.fetch (fun _ => .unreachable) url dir fs).2 := by
    obtain ⟨e, hfetch⟩ := fetch_offline url dir fs
    rw [hfetch]
    exact ⟨hfs, rfl, Int.le_refl fs.now⟩
  exact ⟨fun fs h => Watermark.exists_name_of_isPopulated h, hleft, hleft⟩

/-- A local copy with one file in it. -/
def populated : FileSystem where
  entries := [(["mirror"], .directory),
    (["mirror", "community.md"], .file "A community skill.\n".toUTF8 0)]
  workingDir := []
  now := 0

/-- Two calls on consecutive days. -/
def consecutiveDays : List SyncCall :=
  [⟨offline, "u", false, 0⟩, ⟨offline, "u", false, 24 * 60 * 60 * Watermark.second⟩]

end Repertoire.LocalCopy
