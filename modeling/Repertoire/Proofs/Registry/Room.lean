import Mathlib.Algebra.Group.Nat.Defs
import Mathlib.Order.Bounds.Basic
import Mathlib.Order.MinMax
import Repertoire.Proofs.Registry.OneByOne
import Repertoire.Proofs.Registry.Refusal

/-!
# The room of a registry

The room that a registry sets aside is the least that could have held all skills at the moment when
there were most of them, counted from the time when it was new or was last shut down. Rooms are
nothing and eight times the powers of two, so a full registry moves on to the next one. What the
registry holds now does not tell its room: skills that were removed, by name or by a reload that
failed, leave their room behind.

The proofs carry a number for the most skills that were held. Only an addition raises it, and only
in a registry that is as full as it ever was does the room grow with it. A batch is looked at after
each of its skills; scans are batches of the skills that were loaded. A reload empties a skill in
its place, which leaves the number of skills as it is, so it has no moments of its own.
-/

namespace Repertoire.Registry

/-- The sizes that the room of a registry can have. -/
def IsRoom (c : ℕ) : Prop := c = 0 ∨ ∃ k, c = 8 * 2 ^ k

/-- A registry that a call passes through, the one that it leaves among them. -/
inductive During (r : Registry) : Operation → Registry → Prop
  | batch (front back : List Skill) :
      During r (.registerBatch (front ++ back)) (r.registerBatch front).2
  | scan {fs : FileSystem} {dir : String} {front back : List Skill}
      (hoffers : Discovery.offers fs [dir] = front ++ back) :
      During r (.scan fs dir) (r.registerBatch front).2
  | scanAll {fs : FileSystem} {dirs : List String} {front back : List Skill}
      (hoffers : Discovery.offers fs dirs = front ++ back) :
      During r (.scanAll fs dirs) (r.registerBatch front).2
  | done (op : Operation) : During r op (op.apply r)

/-- A registry that a run passed through since it was new or was last shut down. -/
inductive PassedThrough : List Operation → Registry → Prop
  | new : PassedThrough [] new
  | during {ops : List Operation} {op : Operation} {m : Registry}
      (hduring : During (new.run ops) op m) : PassedThrough (ops ++ [op]) m
  | kept {ops : List Operation} {op : Operation} {m : Registry} (hop : op ≠ .shutdown)
      (hpassed : PassedThrough ops m) : PassedThrough (ops ++ [op]) m

/-- The most skills that were held since the registry was new or was last shut down. -/
def IsPeak (ops : List Operation) (p : ℕ) : Prop :=
  IsGreatest {n | ∃ m, PassedThrough ops m ∧ m.size = n} p

/-- The room is the least that holds a number of skills. -/
def IsRoomFor (p c : ℕ) : Prop := IsLeast {c | IsRoom c ∧ p ≤ c} c

/-- The room after a run is the least for the most skills that were held. Calls that do not add
skills leave it as it is, a batch changes it as its skills do one by one, and only shutting down
gives it up. -/
structure RoomFollowsPeak (ops : List Operation) : Prop where
  least : ∃ p, IsPeak ops p ∧ IsRoomFor p (new.run ops).capacity
  fits : (new.run ops).size ≤ (new.run ops).capacity
  refused : ∀ s e, ((new.run ops).register s).1 = .error e →
    ((new.run ops).register s).2.capacity = (new.run ops).capacity
  unregister : ∀ n, ((new.run ops).unregister n).2.capacity = (new.run ops).capacity
  reload : ∀ fs n, ((new.run ops).reload fs n).2.capacity = (new.run ops).capacity
  batch : ∀ skills, ((new.run ops).registerBatch skills).2.capacity =
    ((new.run ops).run (skills.map .register)).capacity
  givenUp : (new.run ops).shutdown.capacity = 0
  lasting : ∀ op : Operation, op ≠ .shutdown →
    (new.run ops).capacity ≤ (op.apply (new.run ops)).capacity

variable {r : Registry} {p : ℕ}

/-! ## Rooms -/

/-- Twice a room that holds skills is the next one. -/
theorem two_mul_room (k : ℕ) : 2 * (8 * 2 ^ k) = 8 * 2 ^ (k + 1) := by
  rw [Nat.pow_succ, Nat.mul_left_comm, Nat.mul_comm 2 (2 ^ k)]

/-- Twice a room is a room, and so is the least that holds skills. -/
theorem IsRoom.next {c : ℕ} (hc : IsRoom c) : IsRoom (max (2 * c) minCapacity) := by
  rcases hc with rfl | ⟨k, rfl⟩
  · exact .inr ⟨0, rfl⟩
  · have hle : minCapacity ≤ 8 * 2 ^ (k + 1) :=
      Nat.le_mul_of_pos_right _ (Nat.two_pow_pos _)
    rw [two_mul_room, max_eq_left hle]
    exact .inr ⟨k + 1, rfl⟩

/-- There is no room between a room and the next one. -/
theorem IsRoom.next_le {c d : ℕ} (hc : IsRoom c) (hd : IsRoom d) (hlt : c < d) :
    max (2 * c) minCapacity ≤ d := by
  rcases hd with rfl | ⟨j, rfl⟩
  · exact absurd hlt (Nat.not_lt_zero c)
  · refine max_le ?_ (Nat.le_mul_of_pos_right _ (Nat.two_pow_pos j))
    rcases hc with rfl | ⟨k, rfl⟩
    · exact Nat.zero_le _
    · have hk : k < j := by
        by_contra hle
        have hpow : 2 ^ j ≤ 2 ^ k := Nat.pow_le_pow_right Nat.two_pos (Nat.le_of_not_lt hle)
        exact absurd hlt (Nat.not_lt.mpr (Nat.mul_le_mul_left _ hpow))
      rw [two_mul_room]
      exact Nat.mul_le_mul_left _ (Nat.pow_le_pow_right Nat.two_pos hk)

/-- A room that is full makes way for the next one. -/
theorem IsRoomFor.next {c : ℕ} (h : IsRoomFor c c) :
    IsRoomFor (c + 1) (max (2 * c) minCapacity) := by
  refine ⟨⟨h.1.1.next, ?_⟩, fun d hd => h.1.1.next_le hd.1 hd.2⟩
  rw [minCapacity]
  omega

/-- A room that is the least for a number is the least for more, as long as it holds them. -/
theorem IsRoomFor.mono {q c : ℕ} (h : IsRoomFor p c) (hle : p ≤ q) (hfits : q ≤ c) :
    IsRoomFor q c :=
  ⟨⟨h.1.1, hfits⟩, fun _ hd => h.2 ⟨hd.1, hle.trans hd.2⟩⟩

/-! ## What a call does to the number of skills -/

/-- Registering a skill is refused and leaves the registry as it is, or adds the skill. -/
theorem register_cases (r : Registry) (s : Skill) :
    (∃ e, r.register s = (.error e, r)) ∨ r.register s = (.ok (), r.added s) := by
  cases hopen : r.initialized with
  | false => exact .inl ⟨.notInitialized, by simp [register, hopen]⟩
  | true =>
    rw [register_eq hopen]
    cases refusal? r.skills s with
    | some e => exact .inl ⟨e, rfl⟩
    | none => exact .inr rfl

/-- Unregistering a name is refused and leaves the registry as it is, or takes out its skill. -/
theorem unregister_cases (r : Registry) (name : String) :
    (∃ e, r.unregister name = (.error e, r)) ∨ ∃ front s back,
      r.skills = front ++ s :: back ∧ s.name = name ∧
        r.unregister name = (.ok (), { r with skills := front ++ back }) := by
  cases hopen : r.initialized with
  | false => exact .inl ⟨.notInitialized, by simp [unregister, hopen]⟩
  | true =>
    cases hcut : cutAt? name r.skills with
    | none => exact .inl ⟨.notFound .skill name, by simp [unregister, hopen, hcut]⟩
    | some cut =>
      obtain ⟨front, s, back⟩ := cut
      obtain ⟨hskills, hname, -⟩ := cutAt?_eq_some hcut
      exact .inr ⟨front, s, back, hskills, hname, by simp [unregister, hopen, hcut]⟩

/-- A batch registers its first skill, and then the others. -/
theorem registerBatch_cons (r : Registry) (s : Skill) (rest : List Skill) :
    (r.registerBatch (s :: rest)).2 = ((r.register s).2.registerBatch rest).2 := by
  cases hopen : r.initialized with
  | false => simp [registerBatch, register, hopen]
  | true =>
    rw [registerBatch_eq hopen, insertAll_cons, register_eq hopen]
    cases refusal? r.skills s with
    | some e => simp [registerBatch_eq hopen]
    | none => simp [registerBatch_eq (r := r.added s) hopen]

/-- A batch does what calls for its skills do. -/
theorem registerBatch_eq_run (r : Registry) (skills : List Skill) :
    (r.registerBatch skills).2 = r.run (skills.map .register) := by
  induction skills generalizing r with
  | nil => exact registerBatch_nil r
  | cons s rest ih => rw [registerBatch_cons, ih]; rfl

/-- Registering a skill leaves no fewer skills than before. -/
theorem size_le_register (r : Registry) (s : Skill) : r.size ≤ (r.register s).2.size := by
  rcases register_cases r s with ⟨e, h⟩ | h <;> simp [h, size]

/-- A batch leaves no fewer skills than before. -/
theorem size_le_registerBatch (r : Registry) (skills : List Skill) :
    r.size ≤ (r.registerBatch skills).2.size := by
  induction skills generalizing r with
  | nil => rw [registerBatch_nil]
  | cons s rest ih =>
    rw [registerBatch_cons]
    exact (size_le_register r s).trans (ih _)

/-- Unregistering a name keeps the room and leaves no more skills than before. -/
theorem unregister_keepsRoom (r : Registry) (name : String) :
    (r.unregister name).2.capacity = r.capacity ∧ (r.unregister name).2.size ≤ r.size := by
  rcases unregister_cases r name with ⟨e, h⟩ | ⟨front, s, back, hskills, -, h⟩
  · simp [h]
  · simp [h, size, hskills]

/-- Reloading a name keeps the room and leaves no more skills than before. -/
theorem reload_keepsRoom (fs : FileSystem) (r : Registry) (name : String) :
    (r.reload fs name).2.capacity = r.capacity ∧ (r.reload fs name).2.size ≤ r.size := by
  cases hopen : r.initialized with
  | false => simp [reload_of_shut hopen]
  | true =>
    cases hcut : cutAt? name r.skills with
    | none => simp [reload, hopen, hcut]
    | some cut =>
      obtain ⟨before, s, after⟩ := cut
      have hsize : r.size = (before ++ s :: after).length := by
        rw [size, (cutAt?_eq_some hcut).1]
      rw [hsize]
      rcases hreload : s.reload fs with ⟨e | _, fresh⟩
      · simp [reload, hopen, hcut, hreload, size]
      · cases haccept : accept (before ++ after) fresh <;>
          simp [reload, hopen, hcut, hreload, haccept, size]

/-- Scanning a directory registers a batch of the skills that are loaded. -/
theorem scan_eq_registerBatch (fs : FileSystem) (r : Registry) (dir : String) :
    (Discovery.scan fs r dir).2 = (r.registerBatch (Discovery.offers fs [dir])).2 := by
  cases hdir : fs.isDirectory dir with
  | false =>
    have hnone : Discovery.offers fs [dir] = [] := by
      rw [Discovery.offers, Discovery.met_missing hdir, List.filterMap_nil]
    rw [hnone, registerBatch_nil]
    simp [Discovery.scan, hdir]
  | true =>
    cases hopen : r.initialized with
    | false => simp [scan_of_shut hopen hdir, registerBatch, hopen]
    | true => rw [Discovery.scan_eq hopen hdir, registerBatch_eq hopen]

/-- Scanning directories registers a batch of the skills that are loaded. -/
theorem scanAll_eq_registerBatch (fs : FileSystem) (r : Registry) (dirs : List String) :
    (Discovery.scanAll fs r dirs).2 = (r.registerBatch (Discovery.offers fs dirs)).2 := by
  cases hopen : r.initialized with
  | false => simp [scanAll_of_shut hopen, registerBatch, hopen]
  | true =>
    obtain ⟨found, hscan, -, -⟩ := Discovery.scanAll_eq fs hopen dirs
    rw [hscan, registerBatch_eq hopen]

/-- No moment of a call sees more skills than its end. -/
theorem During.size_le {op : Operation} {m : Registry} (h : During r op m) :
    m.size ≤ (op.apply r).size := by
  have hbatch (front back : List Skill) :
      (r.registerBatch front).2.size ≤ (r.registerBatch (front ++ back)).2.size := by
    rw [← registerBatch_append]
    exact size_le_registerBatch _ back
  cases h with
  | batch front back => exact hbatch front back
  | scan hoffers =>
    rw [Operation.apply, scan_eq_registerBatch, hoffers]
    exact hbatch _ _
  | scanAll hoffers =>
    rw [Operation.apply, scanAll_eq_registerBatch, hoffers]
    exact hbatch _ _
  | done => exact le_refl _

/-! ## What a call does to the room -/

/-- A registry that held a number of skills at most, and has the least room for as many. -/
structure Roomy (p : ℕ) (r : Registry) : Prop where
  size_le : r.size ≤ p
  room : IsRoomFor p r.capacity

/-- A registry with the same room and no more skills is as roomy. -/
theorem Roomy.of_le {r' : Registry} (h : Roomy p r) (hsize : r'.size ≤ r.size)
    (hcapacity : r'.capacity = r.capacity) : Roomy (max p r'.size) r' := by
  have hmax : max p r'.size = p := max_eq_left (hsize.trans h.size_le)
  rw [hmax]
  exact ⟨hsize.trans h.size_le, hcapacity ▸ h.room⟩

/-- One more skill may need the next room. -/
theorem Roomy.added (h : Roomy p r) (s : Skill) : Roomy (max p (r.added s).size) (r.added s) := by
  have hsize : (r.added s).size = r.size + 1 := by simp [size]
  have hfits : r.size ≤ r.capacity := h.size_le.trans h.room.1.2
  refine ⟨le_max_right _ _, ?_⟩
  rw [hsize, Registry.added, grown]
  by_cases hlt : r.skills.length < r.capacity
  · rw [if_pos hlt]
    exact h.room.mono (le_max_left _ _) (max_le h.room.1.2 hlt)
  · -- The registry is full, and so it was never fuller.
    have hle : r.capacity ≤ r.size := Nat.le_of_not_lt hlt
    have hfull : r.size = r.capacity := le_antisymm hfits hle
    have hpeak : p = r.capacity := le_antisymm h.room.1.2 (hle.trans h.size_le)
    have hmax : max p (r.size + 1) = r.capacity + 1 := by omega
    rw [if_neg hlt, hmax]
    exact (hpeak ▸ h.room).next

/-- Registering a skill needs room for it if it enters. -/
theorem Roomy.register (h : Roomy p r) (s : Skill) :
    Roomy (max p (r.register s).2.size) (r.register s).2 := by
  rcases register_cases r s with ⟨e, hout⟩ | hout
  · rw [hout]
    exact h.of_le (le_refl _) rfl
  · rw [hout]
    exact h.added s

/-- A batch needs room for the skills that enter. -/
theorem Roomy.registerBatch (h : Roomy p r) (skills : List Skill) :
    Roomy (max p (r.registerBatch skills).2.size) (r.registerBatch skills).2 := by
  induction skills generalizing p r with
  | nil =>
    rw [registerBatch_nil]
    exact h.of_le (le_refl _) rfl
  | cons s rest ih =>
    rw [registerBatch_cons]
    have hlater := ih (h.register s)
    rwa [max_assoc, max_eq_right (size_le_registerBatch _ rest)] at hlater

/-- After a call the registry has the least room for the skills that it held before or holds now,
unless it was shut down. -/
theorem Roomy.apply (h : Roomy p r) {op : Operation} (hop : op ≠ .shutdown) :
    Roomy (max p (op.apply r).size) (op.apply r) := by
  cases op with
  | register s => exact h.register s
  | registerBatch skills => exact h.registerBatch skills
  | unregister name =>
    have hkept := unregister_keepsRoom r name
    exact h.of_le hkept.2 hkept.1
  | reload fs name =>
    have hkept := reload_keepsRoom fs r name
    exact h.of_le hkept.2 hkept.1
  | scan fs dir =>
    rw [Operation.apply, scan_eq_registerBatch]
    exact h.registerBatch _
  | scanAll fs dirs =>
    rw [Operation.apply, scanAll_eq_registerBatch]
    exact h.registerBatch _
  | shutdown => exact absurd rfl hop
  | reopen => exact h.of_le (le_refl _) rfl

/-- A registry without skills and room is as roomy as can be. -/
theorem roomy_empty (opened : Bool) : Roomy 0 ⟨[], opened, 0⟩ :=
  ⟨le_refl _, ⟨.inl rfl, le_refl _⟩, fun _ _ => Nat.zero_le _⟩

/-- Only shutting down makes the room smaller. -/
theorem Roomy.capacity_le (h : Roomy p r) {op : Operation} (hop : op ≠ .shutdown) :
    r.capacity ≤ (op.apply r).capacity := by
  have hafter := (h.apply hop).room.1
  exact h.room.2 ⟨hafter.1, (le_max_left _ _).trans hafter.2⟩

/-! ## Runs -/

/-- The moments of a run and one more call are those of the call, and those of the run unless the
call shuts the registry down. -/
theorem passedThrough_concat_iff {ops : List Operation} {op : Operation} {m : Registry} :
    PassedThrough (ops ++ [op]) m ↔
      During (new.run ops) op m ∨ op ≠ .shutdown ∧ PassedThrough ops m := by
  constructor
  · intro h
    generalize hall : ops ++ [op] = all at h
    cases h with
    | new => exact absurd hall (by simp)
    | during hduring =>
      obtain ⟨rfl, rfl⟩ := List.append_singleton_inj.mp hall
      exact .inl hduring
    | kept hop hpassed =>
      obtain ⟨rfl, rfl⟩ := List.append_singleton_inj.mp hall
      exact .inr ⟨hop, hpassed⟩
  · rintro (hduring | ⟨hop, hpassed⟩)
    · exact .during hduring
    · exact .kept hop hpassed

/-- The run and one more call. -/
theorem run_concat (r : Registry) (ops : List Operation) (op : Operation) :
    r.run (ops ++ [op]) = op.apply (r.run ops) := by
  simp [run]

/-- A call that shuts the registry down starts the count anew. -/
theorem isPeak_shutdown (ops : List Operation) : IsPeak (ops ++ [.shutdown]) 0 := by
  have hdone : (Operation.shutdown.apply (new.run ops)).size = 0 := rfl
  refine ⟨⟨_, .during (.done _), hdone⟩, ?_⟩
  rintro n ⟨m, hm, rfl⟩
  rcases passedThrough_concat_iff.mp hm with hduring | ⟨hop, -⟩
  · exact hdone ▸ hduring.size_le
  · exact absurd rfl hop

/-- A call of another kind can only raise the count, and the end of the call tells by how much. -/
theorem IsPeak.concat {ops : List Operation} (h : IsPeak ops p) {op : Operation}
    (hop : op ≠ .shutdown) : IsPeak (ops ++ [op]) (max p (op.apply (new.run ops)).size) := by
  constructor
  · rcases max_choice p (op.apply (new.run ops)).size with hmax | hmax
    · obtain ⟨m, hm, hsize⟩ := h.1
      exact ⟨m, .kept hop hm, hsize.trans hmax.symm⟩
    · exact ⟨_, .during (.done op), hmax.symm⟩
  · rintro n ⟨m, hm, rfl⟩
    rcases passedThrough_concat_iff.mp hm with hduring | ⟨-, hpassed⟩
    · exact hduring.size_le.trans (le_max_right _ _)
    · exact (h.2 ⟨m, hpassed, rfl⟩).trans (le_max_left _ _)

/-- After any run the registry has the least room for the most skills that it held. -/
theorem exists_roomy_run (ops : List Operation) : ∃ p, IsPeak ops p ∧ Roomy p (new.run ops) := by
  induction ops using List.reverseRecOn with
  | nil =>
    refine ⟨0, ⟨⟨new, .new, rfl⟩, ?_⟩, roomy_empty true⟩
    rintro n ⟨m, hm, rfl⟩
    generalize hnone : ([] : List Operation) = ops at hm
    cases hm with
    | new => exact le_refl _
    | during => exact absurd hnone (by simp)
    | kept => exact absurd hnone (by simp)
  | append_singleton ops op ih =>
    obtain ⟨p, hpeak, hroomy⟩ := ih
    rw [run_concat]
    by_cases hop : op = .shutdown
    · subst hop
      exact ⟨0, isPeak_shutdown ops, roomy_empty false⟩
    · exact ⟨_, hpeak.concat hop, hroomy.apply hop⟩

/-- After any run, and so after each of its steps, the room follows the most skills that were
held. -/
theorem roomFollowsPeak_run (ops : List Operation) : RoomFollowsPeak ops := by
  obtain ⟨p, hpeak, hroomy⟩ := exists_roomy_run ops
  exact {
    least := ⟨p, hpeak, hroomy.room⟩
    fits := hroomy.size_le.trans hroomy.room.1.2
    refused := fun s e he => by rw [register_keepsOnError _ s e he]
    unregister := fun n => (unregister_keepsRoom _ n).1
    reload := fun fs n => (reload_keepsRoom fs _ n).1
    batch := fun skills => by rw [registerBatch_eq_run]
    givenUp := rfl
    lasting := fun op hop => hroomy.capacity_le hop }

/-- A skill that is removed leaves its room behind. -/
example : new.run [.register (.ofManifest 0 ⟨"lamp", "Gives light.", "", none, [], [], [], none⟩),
    .unregister "lamp"] = ⟨[], true, 8⟩ := by
  decide +kernel

end Repertoire.Registry
