import Mathlib.Data.List.Induction
import Mathlib.Data.List.Nodup
import Repertoire.Json.Value

/-!
# Members of an object

Members are settled one after the other, and a later one of a name takes the place of an earlier
one. What comes of that is said by two facts: the names are those that were met, in the order in
which they were met first, and under each name stands what was met last.
-/

namespace Repertoire.Json

variable {α : Type} {name : String} {value : α} {members : List (String × α)}

/-- Among members with distinct names, what is found under a name is the member that has it. -/
theorem find?_name_eq_some_iff (h : (members.map Prod.fst).Nodup) (name : String)
    (m : String × α) :
    members.find? (fun n => n.1 = name) = some m ↔ m ∈ members ∧ m.1 = name := by
  constructor
  · intro hfound
    exact ⟨List.mem_of_find?_eq_some hfound, by simpa using List.find?_some hfound⟩
  · rintro ⟨hm, rfl⟩
    cases hfound : members.find? (fun n => n.1 = m.1) with
    | none => simpa using List.find?_eq_none.mp hfound m hm
    | some n =>
      have hname : n.1 = m.1 := by simpa using List.find?_some hfound
      rw [List.inj_on_of_nodup_map h (List.mem_of_find?_eq_some hfound) hm hname]

/-- Members with distinct names are what is found under their names. -/
theorem filterMap_find?_name (h : (members.map Prod.fst).Nodup) :
    (members.map Prod.fst).filterMap (fun name => members.find? fun n => n.1 = name) = members := by
  rw [List.filterMap_map]
  have hself : ∀ m ∈ members, ((fun name => members.find? fun n => n.1 = name) ∘ Prod.fst) m =
      some m := fun m hm => (find?_name_eq_some_iff h m.1 m).mpr ⟨hm, rfl⟩
  rw [List.filterMap_congr hself, List.filterMap_some]

/-! ## Putting a member -/

/-- A member that is put brings in its name, at the end unless it is there. -/
theorem names_putMember (name : String) (value : α) (members : List (String × α)) :
    (putMember name value members).map Prod.fst =
      if name ∈ members.map Prod.fst then members.map Prod.fst
      else members.map Prod.fst ++ [name] := by
  induction members with
  | nil => rfl
  | cons m members ih =>
    rw [putMember]
    split_ifs with hsame hmem hmem
    · simp [hsame]
    · simp [hsame] at hmem
    · have hrest : name ∈ members.map Prod.fst := by simpa [Ne.symm hsame] using hmem
      rw [List.map_cons, ih, if_pos hrest, List.map_cons]
    · have hrest : name ∉ members.map Prod.fst := fun h => hmem (List.mem_cons_of_mem _ h)
      rw [List.map_cons, ih, if_neg hrest, List.map_cons, List.cons_append]

/-- A member that is put is found under its name, and nothing changes under other names. -/
theorem find?_putMember (name : String) (value : α) (members : List (String × α)) (other : String) :
    (putMember name value members).find? (fun n => n.1 = other) =
      if name = other then some (name, value) else members.find? fun n => n.1 = other := by
  induction members with
  | nil => by_cases h : name = other <;> simp [putMember, h]
  | cons m members ih =>
    obtain ⟨name', value'⟩ := m
    rw [putMember]
    by_cases hsame : name' = name
    · subst hsame
      by_cases hother : name' = other <;> simp [hother]
    · rw [if_neg hsame]
      by_cases hname : name' = other
      · have hother : name ≠ other := fun h => hsame (hname.trans h.symm)
        simp [hname, hother]
      · simp [hname, ih]

/-- A member with a new name is put at the end. -/
theorem putMember_of_not_mem (h : name ∉ members.map Prod.fst) :
    putMember name value members = members ++ [(name, value)] := by
  induction members with
  | nil => rfl
  | cons m members ih =>
    rw [List.map_cons, List.mem_cons, not_or] at h
    rw [putMember, if_neg (Ne.symm h.1), ih h.2, List.cons_append]

/-- Leaving members out by their names before or after one is put comes to the same. -/
theorem filter_putMember (keep : String → Bool) (name : String) (value : α)
    (members : List (String × α)) :
    (putMember name value members).filter (fun m => keep m.1) =
      if keep name then putMember name value (members.filter fun m => keep m.1)
      else members.filter fun m => keep m.1 := by
  induction members with
  | nil => cases hkeep : keep name <;> simp [putMember, hkeep]
  | cons m members ih =>
    rw [putMember]
    by_cases hsame : m.1 = name
    · rw [if_pos hsame]
      cases hkeep : keep name <;> simp [putMember, hsame, hkeep]
    · rw [if_neg hsame, List.filter_cons, ih]
      cases hkeep : keep name <;> cases hm : keep m.1 <;> simp [putMember, hsame, hm]

/-! ## Settled members -/

/-- A further member is put to those that are settled. -/
theorem settle_concat (members : List (String × α)) (m : String × α) :
    settle (members ++ [m]) = putMember m.1 m.2 (settle members) := by
  rw [settle, List.foldl_append]
  rfl

/-- A name that was met adds nothing to the names met before. -/
theorem eraseDups_concat (names : List String) (name : String) :
    (names ++ [name]).eraseDups =
      if name ∈ names then names.eraseDups else names.eraseDups ++ [name] := by
  rw [List.eraseDups_append]
  split_ifs with h
  · simp [List.removeAll, h]
  · simp [List.removeAll, h, List.eraseDups_cons]

/-- The names of settled members are those that were met, in the order of their first places. -/
theorem names_settle (members : List (String × α)) :
    (settle members).map Prod.fst = (members.map Prod.fst).eraseDups := by
  induction members using List.reverseRecOn with
  | nil => rfl
  | append_singleton members m ih =>
    rw [settle_concat, names_putMember, List.map_append, List.map_singleton, eraseDups_concat, ih]
    simp only [List.mem_eraseDups]

/-- Under a name stands the last member that has it. -/
theorem find?_settle (members : List (String × α)) (name : String) :
    (settle members).find? (fun n => n.1 = name) =
      members.reverse.find? fun n => n.1 = name := by
  induction members using List.reverseRecOn with
  | nil => rfl
  | append_singleton members m ih =>
    rw [settle_concat, find?_putMember, ih, List.reverse_append, List.reverse_singleton,
      List.singleton_append]
    split_ifs with h
    · rw [List.find?_cons_of_pos (by simpa using h)]
    · rw [List.find?_cons_of_neg (by simpa using h)]

/-- Leaving members out by their names before or after they are settled comes to the same. -/
theorem filter_settle (keep : String → Bool) (members : List (String × α)) :
    (settle members).filter (fun m => keep m.1) = settle (members.filter fun m => keep m.1) := by
  induction members using List.reverseRecOn with
  | nil => rfl
  | append_singleton members m ih =>
    rw [settle_concat, filter_putMember, ih, List.filter_append]
    cases hkeep : keep m.1 with
    | true => simp [hkeep, settle_concat]
    | false => simp [hkeep]

/-- Names that are met first are distinct. -/
theorem nodup_eraseDups (names : List String) : names.eraseDups.Nodup := by
  induction names using List.reverseRecOn with
  | nil => exact List.nodup_nil
  | append_singleton names name ih =>
    rw [eraseDups_concat]
    split_ifs with h
    · exact ih
    · refine List.nodup_append.mpr ⟨ih, List.nodup_singleton _, ?_⟩
      rintro a ha b hb rfl
      exact h (List.mem_singleton.mp hb ▸ List.mem_eraseDups.mp ha)

/-- Settled members have distinct names. -/
theorem nodup_names_settle (members : List (String × α)) :
    ((settle members).map Prod.fst).Nodup :=
  names_settle members ▸ nodup_eraseDups _

/-- Settled members are the last ones of their names, in the order of the first places. -/
theorem settle_eq (members : List (String × α)) :
    settle members = (members.map Prod.fst).eraseDups.filterMap fun name =>
      members.reverse.find? fun n => n.1 = name := by
  rw [← filterMap_find?_name (nodup_names_settle members), names_settle]
  exact List.filterMap_congr fun name _ => find?_settle members name

/-- Members with distinct names are settled. -/
theorem settle_of_nodup (h : (members.map Prod.fst).Nodup) : settle members = members := by
  induction members using List.reverseRecOn with
  | nil => rfl
  | append_singleton members m ih =>
    rw [List.map_append, List.map_singleton, List.nodup_append_comm, List.singleton_append,
      List.nodup_cons] at h
    rw [settle_concat, ih h.2, putMember_of_not_mem h.1]

end Repertoire.Json
