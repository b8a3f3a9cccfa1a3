import Mathlib.Data.List.Induction
import Repertoire.Proofs.Registry.Entries

/-!
# Registering skills in order

Which of several skills enter an empty registry is decided by what was offered before each of them:
a skill enters when its manifest has no defect and no skill before it that is fit for use has its
name. Unfit skills take no name, however early they come. That registering one by one amounts to
this is proved by adding offers at the end.
-/

namespace Repertoire.Registry

variable {offers held held' : List Skill} {s : Skill}

/-- The skills that are fit for use. -/
def fit (skills : List Skill) : List Skill := skills.filter fun s => s.manifest.defect? = none

/-- Why a skill does not enter after others were offered; nothing stands against one that does. -/
def verdict (earlier : List Skill) (s : Skill) : Option Error := refusal? (fit earlier) s

/-- Offered skills, each with the verdict after those before it. -/
def standing (offers : List Skill) : List (Skill × Option Error) :=
  offers.zipIdx.map fun (s, i) => (s, verdict (offers.take i) s)

/-- The skills that enter, in the order in which they were offered. -/
def winners (offers : List Skill) : List Skill :=
  (standing offers).filterMap fun (s, against?) => if against?.isNone then some s else none

/-- The skills that do not enter, with the reasons. -/
def losers (offers : List Skill) : List (Skill × Error) :=
  (standing offers).filterMap fun (s, against?) => against?.map fun e => (s, e)

/-- The first offered skill of a name that is fit for use. -/
def firstFit? (n : String) (offers : List Skill) : Option Skill :=
  offers.find? fun s => s.manifest.defect? = none ∧ s.name = n

/-! ## One more offer -/

/-- An offer at the end changes nothing for those before it. -/
theorem standing_concat (offers : List Skill) (s : Skill) :
    standing (offers ++ [s]) = standing offers ++ [(s, verdict offers s)] := by
  rw [standing, standing, List.zipIdx_append, List.map_append]
  congr 1
  · refine List.map_congr_left fun (t, i) hitem => ?_
    have hlt : i < offers.length := by simpa using List.snd_lt_of_mem_zipIdx hitem
    simp only [List.take_append_of_le_length (Nat.le_of_lt hlt)]
  · simp

/-- An offer at the end enters unless something stands against it. -/
theorem winners_concat (offers : List Skill) (s : Skill) :
    winners (offers ++ [s]) =
      winners offers ++ if verdict offers s = none then [s] else [] := by
  rw [winners, standing_concat, List.filterMap_append, ← winners]
  cases verdict offers s <;> simp

/-- An offer at the end is left out if something stands against it. -/
theorem losers_concat (offers : List Skill) (s : Skill) :
    losers (offers ++ [s]) =
      losers offers ++ ((verdict offers s).map fun e => (s, e)).toList := by
  rw [losers, standing_concat, List.filterMap_append, ← losers]
  cases verdict offers s <;> simp

/-- Only the names that are taken matter for a refusal. -/
theorem refusal?_congr (h : ∀ n, n ∈ namesOf held ↔ n ∈ namesOf held') (s : Skill) :
    refusal? held s = refusal? held' s := by
  simp only [refusal?, h]

/-- A verdict says no more than whether the skill is fit and its name was offered before. -/
theorem verdict_eq_none_iff (offers : List Skill) (s : Skill) :
    verdict offers s = none ↔ s.manifest.defect? = none ∧ s.name ∉ namesOf (fit offers) := by
  rw [verdict, refusal?_eq_none_iff, Skill.validate, Manifest.validate_eq_ok_iff]

/-- A fit skill that does not enter has a name that was taken already. -/
theorem taken_of_verdict {e : Error} (h : verdict offers s = some e)
    (hfit : s.manifest.defect? = none) : s.name ∈ namesOf (fit offers) := by
  by_contra hfree
  rw [(verdict_eq_none_iff offers s).mpr ⟨hfit, hfree⟩] at h
  exact Option.some_ne_none e h.symm

/-- A fit skill at the end is one more. -/
theorem fit_concat (offers : List Skill) (s : Skill) :
    fit (offers ++ [s]) = fit offers ++ if s.manifest.defect? = none then [s] else [] := by
  rw [fit, List.filter_append, ← fit]
  cases hdefect : s.manifest.defect? <;> simp [hdefect]

/-- The names that are taken are those of the fit skills that were offered. -/
theorem mem_namesOf_winners (offers : List Skill) (n : String) :
    n ∈ namesOf (winners offers) ↔ n ∈ namesOf (fit offers) := by
  induction offers using List.reverseRecOn with
  | nil => rfl
  | append_singleton offers s ih =>
    rw [winners_concat, fit_concat, namesOf_append, namesOf_append, List.mem_append,
      List.mem_append, ih]
    cases hverdict : verdict offers s with
    | none =>
      have hfit := ((verdict_eq_none_iff offers s).mp hverdict).1
      simp [hfit]
    | some e =>
      by_cases hfit : s.manifest.defect? = none
      · simp only [hfit, reduceCtorEq, if_false, if_true, namesOf_nil, namesOf_cons,
          List.not_mem_nil, or_false, List.mem_singleton]
        refine ⟨.inl, ?_⟩
        rintro (hn | rfl)
        · exact hn
        · exact taken_of_verdict hverdict hfit
      · simp [hfit]

/-- The winner of a name is the first fit skill of that name. -/
theorem find?_winners (offers : List Skill) (n : String) :
    ((winners offers).find? fun s => s.name = n) = firstFit? n offers := by
  have hfirst : firstFit? n offers = (fit offers).find? fun s => s.name = n := by
    rw [firstFit?, fit, List.find?_filter]
    simp only [decide_eq_true_eq]
  rw [hfirst]
  clear hfirst
  induction offers using List.reverseRecOn with
  | nil => rfl
  | append_singleton offers s ih =>
    rw [winners_concat, fit_concat, List.find?_append, List.find?_append, ih]
    cases hverdict : verdict offers s with
    | none =>
      have hfit := ((verdict_eq_none_iff offers s).mp hverdict).1
      simp [hfit]
    | some e =>
      by_cases hfit : s.manifest.defect? = none
      · by_cases hname : s.name = n
        · -- The name was taken, so the search ends before the offer.
          obtain ⟨t, ht, htn⟩ := (mem_namesOf_iff _ _).mp (taken_of_verdict hverdict hfit)
          have hfound : ((fit offers).find? fun s => s.name = n).isSome :=
            List.find?_isSome.mpr ⟨t, ht, by simp [htn, hname]⟩
          obtain ⟨u, hu⟩ := Option.isSome_iff_exists.mp hfound
          simp [hu]
        · simp [hfit, hname]
      · simp [hfit]

/-! ## Registering -/

/-- Adding skills one by one: each enters, or is rejected and changes nothing. -/
theorem insertAll_cons (r : Registry) (s : Skill) (rest : List Skill) :
    r.insertAll (s :: rest) = match refusal? r.skills s with
      | none =>
        (⟨s :: ((r.added s).insertAll rest).1.registered, ((r.added s).insertAll rest).1.rejected⟩,
          ((r.added s).insertAll rest).2)
      | some e =>
        (⟨(r.insertAll rest).1.registered, (s, e) :: (r.insertAll rest).1.rejected⟩,
          (r.insertAll rest).2) := by
  rw [insertAll, insert_eq]
  cases refusal? r.skills s <;> rfl

/-- Adding skills and then more skills. -/
theorem insertAll_append (r : Registry) (a b : List Skill) :
    r.insertAll (a ++ b) =
      (⟨(r.insertAll a).1.registered ++ ((r.insertAll a).2.insertAll b).1.registered,
        (r.insertAll a).1.rejected ++ ((r.insertAll a).2.insertAll b).1.rejected⟩,
        ((r.insertAll a).2.insertAll b).2) := by
  induction a generalizing r with
  | nil => rfl
  | cons s a ih =>
    rw [List.cons_append, insertAll_cons, insertAll_cons]
    cases refusal? r.skills s <;> simp [ih]

/-- Adding skills leaves a registry open. -/
theorem insertAll_initialized (r : Registry) (skills : List Skill) :
    (r.insertAll skills).2.initialized = r.initialized := by
  induction skills generalizing r with
  | nil => rfl
  | cons s rest ih =>
    rw [insertAll_cons]
    cases refusal? r.skills s with
    | none => exact ih (r.added s)
    | some e => exact ih r

/-- An open registry answers a batch with the outcome of adding its skills. -/
theorem registerBatch_eq {r : Registry} (hopen : r.initialized = true) (skills : List Skill) :
    r.registerBatch skills = (.ok (r.insertAll skills).1, (r.insertAll skills).2) := by
  simp [registerBatch, hopen]

/-- A batch without skills changes nothing. -/
theorem registerBatch_nil (r : Registry) : (r.registerBatch []).2 = r := by
  rw [registerBatch]
  cases r.initialized <;> rfl

/-- A batch after another one comes to the same as one batch. -/
theorem registerBatch_append (r : Registry) (a b : List Skill) :
    ((r.registerBatch a).2.registerBatch b).2 = (r.registerBatch (a ++ b)).2 := by
  cases hopen : r.initialized with
  | false => simp [registerBatch, hopen]
  | true =>
    have hstill := (insertAll_initialized r a).trans hopen
    simp [registerBatch, hopen, hstill, insertAll_append]

/-- What is held after adding skills was held before or was offered. -/
theorem mem_of_mem_insertAll {r : Registry} {skills : List Skill}
    (h : s ∈ (r.insertAll skills).2.skills) : s ∈ r.skills ∨ s ∈ skills := by
  induction skills generalizing r with
  | nil => exact .inl h
  | cons t rest ih =>
    rw [insertAll_cons] at h
    cases hrefusal : refusal? r.skills t with
    | none =>
      simp only [hrefusal] at h
      rcases ih h with hheld | hoffered
      · rcases List.mem_append.mp hheld with hheld | hnew
        · exact .inl hheld
        · exact .inr (List.mem_singleton.mp hnew ▸ List.mem_cons_self)
      · exact .inr (List.mem_cons_of_mem t hoffered)
    | some e =>
      simp only [hrefusal] at h
      exact (ih h).imp_right (List.mem_cons_of_mem t)

/-- What is held after a batch was held before or was offered. -/
theorem mem_of_mem_registerBatch {r : Registry} {skills : List Skill}
    (h : s ∈ (r.registerBatch skills).2.skills) : s ∈ r.skills ∨ s ∈ skills := by
  cases hopen : r.initialized with
  | false => exact .inl (by simpa [registerBatch, hopen] using h)
  | true => exact mem_of_mem_insertAll (by simpa [registerBatch, hopen] using h)

/-- Rejected skills were offered. -/
theorem mem_of_mem_rejected {r : Registry} {skills : List Skill} {e : Error}
    (h : (s, e) ∈ (r.insertAll skills).1.rejected) : s ∈ skills := by
  induction skills generalizing r with
  | nil => simp [insertAll] at h
  | cons t rest ih =>
    rw [insertAll_cons] at h
    cases hrefusal : refusal? r.skills t with
    | none =>
      simp only [hrefusal] at h
      exact List.mem_cons_of_mem t (ih h)
    | some reason =>
      simp only [hrefusal, List.mem_cons, Prod.mk.injEq] at h
      rcases h with ⟨rfl, -⟩ | h
      · exact List.mem_cons_self
      · exact List.mem_cons_of_mem t (ih h)

/-- Adding skills to a registry that holds none lets the winners enter and rejects the others. -/
theorem insertAll_eq (r : Registry) (hempty : r.skills = []) (offers : List Skill) :
    (r.insertAll offers).1 = ⟨winners offers, losers offers⟩ ∧
      (r.insertAll offers).2.skills = winners offers := by
  induction offers using List.reverseRecOn with
  | nil => exact ⟨rfl, hempty⟩
  | append_singleton offers s ih =>
    obtain ⟨houtcome, hskills⟩ := ih
    have hverdict : refusal? (r.insertAll offers).2.skills s = verdict offers s := by
      rw [hskills, verdict]
      exact refusal?_congr (mem_namesOf_winners offers) s
    rw [insertAll_append, houtcome, winners_concat, losers_concat]
    rw [insertAll_cons, hverdict]
    cases verdict offers s with
    | none => simp [hskills, insertAll, added]
    | some e => simp [hskills, insertAll]

end Repertoire.Registry
