import Mathlib.Data.List.Induction
import Repertoire.Proofs.Registry.Run

/-!
# Names and the calls that led to them

Skills are registered and names are unregistered in any order, and some of these calls fail. Which
names an initially new registry lists can be read off the calls and their answers alone: a name is
listed when its latest successful call registered it, and names are listed in the order of those
registrations. Nothing else about the past matters.

The induction adds calls at the end. It carries that the names held are those that the answers give,
and that they are distinct, without which a name could be removed and still be held.
-/

namespace Repertoire.Registry

/-- A call that adds a skill or removes one. -/
inductive Change where
  | register (s : Skill)
  | unregister (name : String)

namespace Change

/-- The name that a call is about. -/
def name : Change → String
  | .register s => s.name
  | .unregister name => name

/-- The call adds a skill. -/
def adds : Change → Bool
  | .register _ => true
  | .unregister _ => false

/-- The answer of a call, and the registry afterwards. -/
def apply (r : Registry) : Change → Except Error Unit × Registry
  | .register s => r.register s
  | .unregister name => r.unregister name

end Change

/-- A call with its answer. -/
structure Answered where
  call : Change
  answer : Except Error Unit

/-- The call did what it was asked for. -/
def Answered.succeeded (x : Answered) : Bool := x.answer.isOk

/-- The registry after calls in order. -/
def after (r : Registry) (calls : List Change) : Registry :=
  calls.foldl (fun r c => (c.apply r).2) r

/-- Calls in order, each with its answer. -/
def history (r : Registry) : List Change → List Answered
  | [] => []
  | c :: rest => ⟨c, (c.apply r).1⟩ :: history (c.apply r).2 rest

/-- The names whose latest successful call registered them, in the order of those registrations: a
successful registration counts unless a later call about its name succeeded. -/
def current : List Answered → List String
  | [] => []
  | x :: later =>
    if x.succeeded ∧ x.call.adds ∧ ∀ y ∈ later, y.succeeded → y.call.name ≠ x.call.name then
      x.call.name :: current later
    else current later

/-- The skills of other names. -/
def without (n : String) (skills : List Skill) : List Skill := skills.filter fun s => s.name ≠ n

/-- A registry answers as the calls before demand. Its names are the current ones. A skill is added
exactly when it is fit for use and its name is not among them, and a name is removed exactly when it
is. Removing a name takes its skill out and leaves the others as they are, so adding and removing a
skill changes nothing. -/
structure FollowsHistory (r : Registry) (log : List Answered) : Prop where
  names : r.names = .ok (current log)
  register : ∀ s, (r.register s).1 = .ok () ↔ s.validate = .ok () ∧ s.name ∉ current log
  unregister : ∀ n, (r.unregister n).1 =
    if n ∈ current log then .ok () else .error (.notFound .skill n)
  others : ∀ n, (r.unregister n).2.list = .ok (without n r.skills)
  undone : ∀ s, (r.register s).1 = .ok () →
    ((r.register s).2.unregister s.name).1 = .ok () ∧
      ((r.register s).2.unregister s.name).2.list = r.list

variable {r : Registry} {log : List Answered}

/-! ## Skills of other names -/

/-- Leaving out a name that no skill has changes nothing. -/
theorem without_of_free {n : String} {skills : List Skill} (hfree : n ∉ namesOf skills) :
    without n skills = skills := by
  apply List.filter_eq_self.mpr
  intro s hs
  have hne : s.name ≠ n := fun heq => hfree ((mem_namesOf_iff n skills).mpr ⟨s, hs, heq⟩)
  exact decide_eq_true hne

/-- Leaving out a skill leaves out its name. -/
theorem namesOf_without (n : String) (skills : List Skill) :
    namesOf (without n skills) = (namesOf skills).filter fun m => m ≠ n := by
  rw [without, namesOf, namesOf, List.filter_map]
  rfl

/-- A skill with a free name, added and left out again. -/
theorem without_added {s : Skill} (hfree : s.name ∉ namesOf r.skills) :
    without s.name (r.added s).skills = r.skills := by
  have hlast : without s.name [s] = [] := by simp [without]
  rw [added_skills, without, List.filter_append, ← without, ← without, hlast,
    without_of_free hfree, List.append_nil]

/-- Where names are distinct, a cut at a skill parts it from all skills of other names. -/
theorem without_of_cut {before after : List Skill} {s : Skill}
    (hdistinct : (namesOf (before ++ s :: after)).Nodup) :
    without s.name (before ++ s :: after) = before ++ after := by
  have hrest := without_of_free (name_not_mem_others hdistinct)
  rw [without, List.filter_append] at hrest ⊢
  rw [List.filter_cons_of_neg (by simp), hrest]

/-! ## Single calls -/

/-- An open registry with distinct names removes the skill of a name that it has. -/
theorem unregister_eq (hopen : r.initialized = true) (hdistinct : (namesOf r.skills).Nodup)
    (n : String) :
    r.unregister n =
      if n ∈ namesOf r.skills then (.ok (), { r with skills := without n r.skills })
      else (.error (.notFound .skill n), r) := by
  simp only [unregister, hopen, Bool.not_true, Bool.false_eq_true, if_false]
  cases hcut : cutAt? n r.skills with
  | none =>
    have hmissing := (cutAt?_eq_none_iff n r.skills).mp hcut
    rw [if_neg hmissing]
  | some cut =>
    obtain ⟨before, s, after⟩ := cut
    obtain ⟨hskills, rfl, -⟩ := cutAt?_eq_some hcut
    have hmem : s.name ∈ namesOf r.skills := by
      rw [hskills]
      simp
    rw [if_pos hmem, hskills, without_of_cut (hskills ▸ hdistinct)]

/-- A call leaves a consistent registry consistent. -/
theorem Consistent.change (h : Consistent r) (c : Change) : Consistent (c.apply r).2 := by
  cases c with
  | register s => exact h.operation (.register s)
  | unregister n => exact h.operation (.unregister n)

/-! ## One more call -/

/-- A call at the end takes its name out, if it succeeds, and puts it last, if it registers. -/
theorem current_concat (log : List Answered) (x : Answered) :
    current (log ++ [x]) =
      if x.succeeded then
        (current log).filter (fun n => n ≠ x.call.name) ++ if x.call.adds then [x.call.name] else []
      else current log := by
  induction log with
  | nil => cases hx : x.succeeded <;> cases hadds : x.call.adds <;> simp [current, hx, hadds]
  | cons y log ih =>
    rw [List.cons_append, current, current, ih]
    cases hx : x.succeeded with
    | false => simp [hx, or_imp, forall_and]
    | true =>
      -- A new call with the name of the first one decides whether that one still counts.
      by_cases hname : x.call.name = y.call.name
      · have hlost : ¬ ∀ z ∈ log ++ [x], z.succeeded → z.call.name ≠ y.call.name := fun hall =>
          hall x (by simp) hx hname
        rw [if_neg fun h => hlost h.2.2, apply_ite (List.filter fun n => n ≠ x.call.name)]
        simp [hname]
      · have hkept : (∀ z ∈ log ++ [x], z.succeeded → z.call.name ≠ y.call.name) ↔
            ∀ z ∈ log, z.succeeded → z.call.name ≠ y.call.name := by
          simp [or_imp, forall_and, hname]
        simp only [hkept, if_true]
        split <;> simp [Ne.symm hname]

/-- The history of calls and one more. -/
theorem history_concat (r : Registry) (calls : List Change) (c : Change) :
    r.history (calls ++ [c]) = r.history calls ++ [⟨c, (c.apply (r.after calls)).1⟩] := by
  induction calls generalizing r with
  | nil => rfl
  | cons first rest ih =>
    rw [List.cons_append, history, history, ih, List.cons_append]
    rfl

/-- The registry after calls and one more. -/
theorem after_concat (r : Registry) (calls : List Change) (c : Change) :
    r.after (calls ++ [c]) = (c.apply (r.after calls)).2 := by
  simp [after]

/-- The registry is open and consistent, and its names are the current ones. -/
structure Tracks (r : Registry) (log : List Answered) : Prop where
  opened : r.initialized = true
  consistent : Consistent r
  names : namesOf r.skills = current log

/-- After an attempt to register the names are still the current ones. -/
theorem Tracks.register (h : Tracks r log) (s : Skill) :
    Tracks (r.register s).2 (log ++ [⟨.register s, (r.register s).1⟩]) := by
  have hconsistent := h.consistent.change (.register s)
  rw [Change.apply, register_eq h.opened] at hconsistent
  rw [register_eq h.opened]
  cases hrefusal : refusal? r.skills s with
  | some e => exact ⟨h.opened, h.consistent, h.names.trans (by rw [current_concat]; rfl)⟩
  | none =>
    rw [hrefusal] at hconsistent
    refine ⟨h.opened, hconsistent, ?_⟩
    have hfree := ((refusal?_eq_none_iff r.skills s).mp hrefusal).2
    have hkept : (current log).filter (fun n => n ≠ s.name) = current log := by
      rw [← h.names, ← namesOf_without, without_of_free hfree]
    have hlast : current (log ++ [⟨.register s, .ok ()⟩]) =
        (current log).filter (fun n => n ≠ s.name) ++ [s.name] := current_concat log _
    rw [hlast, hkept, ← h.names, added_skills, namesOf_append]
    rfl

/-- After an attempt to unregister the names are still the current ones. -/
theorem Tracks.unregister (h : Tracks r log) (n : String) :
    Tracks (r.unregister n).2 (log ++ [⟨.unregister n, (r.unregister n).1⟩]) := by
  have hconsistent := h.consistent.change (.unregister n)
  rw [Change.apply, unregister_eq h.opened h.consistent.nodup] at hconsistent
  rw [unregister_eq h.opened h.consistent.nodup]
  by_cases hmem : n ∈ namesOf r.skills
  · rw [if_pos hmem] at hconsistent ⊢
    refine ⟨h.opened, hconsistent, ?_⟩
    have hlast : current (log ++ [⟨.unregister n, .ok ()⟩]) =
        (current log).filter (fun m => m ≠ n) ++ [] := current_concat log _
    rw [hlast, List.append_nil, ← h.names, ← namesOf_without]
  · rw [if_neg hmem]
    exact ⟨h.opened, h.consistent, h.names.trans (by rw [current_concat]; rfl)⟩

/-! ## All calls -/

/-- After any calls the names of an initially new registry are the current ones. -/
theorem tracks_history (calls : List Change) : Tracks (new.after calls) (new.history calls) := by
  induction calls using List.reverseRecOn with
  | nil => exact ⟨rfl, consistent_new, rfl⟩
  | append_singleton calls c ih =>
    rw [after_concat, history_concat]
    cases c with
    | register s => exact ih.register s
    | unregister n => exact ih.unregister n

/-- A registry whose names are the current ones answers as the calls before demand. -/
theorem Tracks.followsHistory (h : Tracks r log) : FollowsHistory r log where
  names := by rw [Registry.names, h.opened, ← h.names]; rfl
  register s := by
    rw [register_eq h.opened, ← h.names, ← refusal?_eq_none_iff]
    cases refusal? r.skills s <;> simp
  unregister n := by
    rw [unregister_eq h.opened h.consistent.nodup, ← h.names]
    split <;> rfl
  others n := by
    rw [unregister_eq h.opened h.consistent.nodup]
    by_cases hmem : n ∈ namesOf r.skills
    · simp [hmem, list, h.opened]
    · simp [hmem, list, h.opened, without_of_free hmem]
  undone s := by
    intro hadded
    have hnext := h.register s
    rw [register_eq h.opened] at hadded hnext ⊢
    cases hrefusal : refusal? r.skills s with
    | some e => simp [hrefusal] at hadded
    | none =>
      rw [hrefusal] at hnext
      have hfree := ((refusal?_eq_none_iff r.skills s).mp hrefusal).2
      have hmem : s.name ∈ namesOf (r.added s).skills := by simp
      rw [unregister_eq hnext.opened hnext.consistent.nodup, if_pos hmem, without_added hfree]
      exact ⟨rfl, rfl⟩

/-- The names of an initially new registry, and its answers to the next call, are those that the
calls before demand. -/
theorem followsHistory_after (calls : List Change) :
    FollowsHistory (new.after calls) (new.history calls) :=
  (tracks_history calls).followsHistory

end Repertoire.Registry
