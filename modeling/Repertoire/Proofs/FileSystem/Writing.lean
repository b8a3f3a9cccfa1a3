import Repertoire.Proofs.FileSystem.Making
import Repertoire.Proofs.FileSystem.Reading

/-!
# Writing a file and finding it again

A path on which links are followed to the end leads to a directory, or to a place in a directory at
which a file stands or nothing. So a file that is written there hides nothing, and the same path
leads to it afterwards, whatever links it runs through.
-/

namespace Repertoire.FileSystem

open Repertoire.Path

variable {fs : FileSystem} {p r : Place} {k : ℕ} {cs : List Component} {path : String}
  {content : ByteArray} {time : Int}

/-- A place in a directory at which nothing stands but perhaps a file. -/
structure IsFileSpot (fs : FileSystem) (r : Place) : Prop where
  inside : ∃ d x, r = d ++ [x] ∧ fs.entry? d = some .directory
  free : fs.AtMostFile r

/-- A place for a file is not the root. -/
theorem IsFileSpot.ne_nil (h : fs.IsFileSpot r) : r ≠ [] := by
  obtain ⟨d, x, rfl, -⟩ := h.inside
  simp

/-- A walk to the end comes to a directory or to a place for a file, provided that it does behind
links. -/
theorem walk_end (htree : fs.IsTree) {onLink : Place → List Component → Except FileFault Place}
    (hlink : ∀ p cs, fs.entry? p = some .directory → onLink p cs = .ok r →
      fs.entry? r = some .directory ∨ fs.IsFileSpot r)
    (hp : fs.entry? p = some .directory) (h : fs.walk onLink true p cs = .ok r) :
    fs.entry? r = some .directory ∨ fs.IsFileSpot r := by
  induction cs generalizing p with
  | nil => exact .inl (Except.ok.inj h ▸ hp)
  | cons c cs ih =>
    cases c with
    | root => exact ih (entry?_nil fs) h
    | here => exact ih hp h
    | parent => exact ih (htree.dropLast hp) h
    | name n =>
      by_cases hshort : nameLimit < n.utf8ByteSize
      · rw [walk, if_pos hshort] at h
        simp at h
      · by_cases hend : fs.AtMostFile (p ++ [n])
        · obtain ⟨-, rfl⟩ := (walk_atMostFile hend hshort).mp h
          exact .inr ⟨⟨p, n, rfl, hp⟩, hend⟩
        · rw [walk, if_neg hshort] at h
          rcases hentry : fs.entry? (p ++ [n]) with _ | _ | _ | target
          · exact absurd (.inl hentry) hend
          · exact absurd (.inr ⟨_, _, hentry⟩) hend
          · rw [hentry] at h
            exact ih hentry h
          · simp only [hentry, Bool.not_true, Bool.and_false, Bool.false_eq_true, if_false] at h
            split at h
            · simp at h
            · exact hlink p _ hp h

/-- Steps that are followed to the end lead to a directory or to a place for a file. -/
theorem follow_end (htree : fs.IsTree) (hp : fs.entry? p = some .directory)
    (h : fs.follow true k p cs = .ok r) : fs.entry? r = some .directory ∨ fs.IsFileSpot r := by
  induction k generalizing p cs with
  | zero => exact walk_end htree (fun _ _ _ hlink => by simp at hlink) hp h
  | succ k ih => exact walk_end htree (fun _ _ hp hlink => ih hp hlink) hp h

/-! ## The file that was written -/

/-- Steps that lead to a place for a file lead there with the file too. -/
theorem follow_putFile (hr : fs.IsFileSpot r) (h : fs.follow true k p cs = .ok r) :
    (fs.put r (.file content time)).follow true k p cs = .ok r := by
  have hsame : SameUpTo r fs (fs.put r (.file content time)) := by
    refine ⟨fun q e hq he => ?_, .inr ⟨hr.free, .inr ⟨content, time, ?_⟩⟩⟩
    · rw [entry?_put fs hr.ne_nil, if_neg hq, he]
    · rw [entry?_put fs hr.ne_nil, if_pos rfl]
  exact follow_of_sameUpTo hsame h

/-- A file at a place for it keeps the tree and where relative paths start. -/
theorem Grounded.putFile (hfs : fs.Grounded) (hr : fs.IsFileSpot r) :
    (fs.put r (.file content time)).Grounded := by
  have hnot : fs.entry? r ≠ some .directory := by
    rcases hr.free with hentry | ⟨old, before, hentry⟩ <;> simp [hentry]
  obtain ⟨d, x, rfl, hd⟩ := hr.inside
  refine ⟨hfs.tree.put (by simp) (by rwa [List.dropLast_concat]) (.inr fun n => ?_), ?_⟩
  · cases hbelow : fs.entry? (d ++ [x] ++ [n]) with
    | none => rfl
    | some e => exact absurd (hfs.tree.above (List.cons_ne_nil n []) hbelow) hnot
  · rw [put_workingDir, entry?_put fs (by simp), if_neg, hfs.home]
    intro hhome
    exact hnot (hhome ▸ hfs.home)

/-- A path leads to a place by its steps, if it is fit for being followed. -/
theorem resolve_eq_ok_iff (fs : FileSystem) (followLast : Bool) (path : String) (r : Place) :
    fs.resolve followLast path = .ok r ↔
      '\x00' ∉ path.toList ∧ path ≠ "" ∧ fs.resolveSteps followLast (steps path) = .ok r := by
  rw [resolve]
  by_cases hzero : '\x00' ∈ path.toList
  · simp [hzero]
  · by_cases hempty : path = ""
    · simp [hempty]
    · simp [hzero, hempty]

/-- A failure to write a file changes nothing. -/
theorem writeFile_error {fs' : FileSystem} {fault : FileFault}
    (h : writeFile path content fs = (.error fault, fs')) : fs' = fs := by
  simp only [writeFile] at h
  split at h
  · exact (congrArg Prod.snd h).symm
  · split at h
    · exact (congrArg Prod.snd h).symm
    · cases congrArg Prod.fst h

/-- A file that was written is found under the path it was written to. -/
theorem writeFile_ok {fs' : FileSystem} (hfs : fs.Grounded)
    (h : writeFile path content fs = (.ok (), fs')) :
    (∃ place, fs'.lookUp? path = .ok (place, .file content fs.now)) ∧ fs'.Grounded ∧
      fs'.now = fs.now := by
  simp only [writeFile] at h
  cases hplace : fs.resolve true path with
  | error fault =>
    simp only [hplace] at h
    cases congrArg Prod.fst h
  | ok place =>
    simp only [hplace] at h
    obtain ⟨hzero, hempty, hsteps⟩ := (resolve_eq_ok_iff fs true path place).mp hplace
    rcases follow_end hfs.tree hfs.home hsteps with hdir | hspot
    · simp only [hdir] at h
      cases congrArg Prod.fst h
    · have hput : fs' = fs.put place (.file content fs.now) := by
        rcases hspot.free with hentry | ⟨old, before, hentry⟩
        · simp only [hentry] at h
          exact (congrArg Prod.snd h).symm
        · simp only [hentry] at h
          exact (congrArg Prod.snd h).symm
      -- The path leads to the same place again, because only what stands there changed.
      have hagain : fs'.resolve true path = .ok place := by
        refine (resolve_eq_ok_iff fs' true path place).mpr ⟨hzero, hempty, ?_⟩
        rw [hput, resolveSteps, put_workingDir]
        exact follow_putFile hspot hsteps
      have hfile : fs'.entry? place = some (.file content fs.now) := by
        rw [hput, entry?_put fs hspot.ne_nil, if_pos rfl]
      exact ⟨⟨place, lookUp?_eq_ok_iff.mpr ⟨hagain, hfile⟩⟩, hput ▸ hfs.putFile hspot,
        by rw [hput, put_now]⟩

end Repertoire.FileSystem
