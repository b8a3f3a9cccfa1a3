import Repertoire.Proofs.FileSystem.Making
import Repertoire.Proofs.FileSystem.Reading

/-!
# Changes that keep paths

Creating directories adds to a file system, whatever the path and whether or not it succeeds. Files
that are written take the place of files. Neither touches directories or links, so a path that led
to a directory leads there afterwards. The clock does not matter for any of this.
-/

namespace Repertoire.FileSystem

open Repertoire.Path

variable {fs fs' fs'' : FileSystem} {p q d : Place} {x : String} {e : Entry}

/-! ## Growth along any path -/

/-- Nothing changed, except that directories were added where nothing stood. Relative paths start
from where they did. -/
structure Grown (fs fs' : FileSystem) : Prop where
  grows : GrowsBelow [] fs fs'
  home : fs'.workingDir = fs.workingDir

/-- No change is growth. -/
theorem Grown.refl (fs : FileSystem) : Grown fs fs := ⟨fun _ => .inl rfl, rfl⟩

/-- Growth after growth. -/
theorem Grown.trans (h : Grown fs fs') (h' : Grown fs' fs'') :
    Grown fs fs'' := ⟨h.grows.trans h'.grows, h'.home.trans h.home⟩

/-- One directory that may be there already adds at most itself. -/
theorem ensureDirectory_grown (fs : FileSystem) (path : List Component) :
    Grown fs (fs.ensureDirectory path).2 := by
  cases hcreate : fs.createDirectory path with
  | mk result fs₁ =>
    cases result with
    | error fault =>
      obtain rfl := createDirectory_error hcreate
      rw [ensureDirectory_eq hcreate]
      exact .refl fs₁
    | ok _ =>
      have hout : fs.ensureDirectory path = (.ok (), fs₁) := by rw [ensureDirectory, hcreate]
      rw [hout]
      rw [createDirectory] at hcreate
      split at hcreate
      · simp at hcreate
      · split at hcreate
        · simp at hcreate
        · rename_i place _ _ hnone
          obtain rfl : fs.put place .directory = fs₁ := congrArg Prod.snd hcreate
          exact ⟨growsBelow_put hnone List.nil_prefix, put_workingDir ..⟩

/-- Creating the directories on a path adds nothing but directories, where nothing stood, and may
add some even if it fails. -/
theorem createSteps_grown (fs : FileSystem) (path : List Component) :
    Grown fs (createSteps path fs).2 := by
  induction path using List.reverseRecOn with
  | nil => exact .refl fs
  | append_singleton path c ih =>
    by_cases hmissing : (fs.createDirectory (path ++ [c])).1 = .error .missing
    · rcases hcreate : fs.createDirectory (path ++ [c]) with ⟨result, fs₁⟩
      rw [hcreate] at hmissing
      obtain rfl : result = .error .missing := hmissing
      obtain rfl := createDirectory_error hcreate
      rw [createSteps_concat_of_missing hcreate]
      rcases hout : (createSteps path fs₁ : Except FileFault Unit × FileSystem) with
        ⟨fault | _, fs'⟩
      · rw [hout] at ih
        exact ih
      · rw [hout] at ih
        exact ih.trans (ensureDirectory_grown fs' _)
    · rw [createSteps_concat_of_not_missing hmissing]
      exact ensureDirectory_grown fs _

/-- The same for a path that is given as text. -/
theorem createDirectories_grown (fs : FileSystem) (dir : String) :
    Grown fs (createDirectories dir fs).2 := by
  simp only [createDirectories]
  split
  · exact .refl fs
  · exact createSteps_grown fs (components dir)

/-! ## Steady changes -/

/-- Directories and links stay where they are, and relative paths start from where they did. -/
structure Steady (fs fs' : FileSystem) : Prop where
  keeps : Keeps fs fs'
  home : fs'.workingDir = fs.workingDir
  grounded : fs'.Grounded

/-- An entry was put at a place, and nothing else changed. -/
structure Written (p : Place) (e : Entry) (fs fs' : FileSystem) : Prop where
  entry : ∀ q, fs'.entry? q = if q = p then some e else fs.entry? q
  home : fs'.workingDir = fs.workingDir

/-- No change is steady. -/
theorem Steady.refl (hfs : fs.Grounded) : Steady fs fs := ⟨fun _ _ _ he => he, rfl, hfs⟩

/-- Two steady changes make one. -/
theorem Steady.trans (h : Steady fs fs') (h' : Steady fs' fs'') : Steady fs fs'' :=
  ⟨h.keeps.trans h'.keeps, h'.home.trans h.home, h'.grounded⟩

/-- A directory stays one. -/
theorem Steady.directory (h : Steady fs fs') (hd : fs.entry? d = some .directory) :
    fs'.entry? d = some .directory := h.keeps d .directory (by simp) hd

/-- Growth is steady. -/
theorem Grown.steady (hfs : fs.Grounded) (h : Grown fs fs') (htree : fs'.IsTree) :
    Steady fs fs' := by
  refine ⟨keeps_of_growsBelow h.grows, h.home, htree, ?_⟩
  rw [h.home]
  exact h.grows.keeps hfs.home

/-- A file that takes the place of at most a file is a steady change. -/
theorem Written.steady (hfs : fs.Grounded) (hd : fs.entry? d = some .directory)
    (hspot : fs.AtMostFile (d ++ [x])) {content : ByteArray} {time : ℤ}
    (h : Written (d ++ [x]) (.file content time) fs fs') : Steady fs fs' := by
  have hkeeps : Keeps fs fs' := by
    intro q old hfile hold
    rw [h.entry, if_neg, hold]
    rintro rfl
    rcases hspot with hnone | ⟨content', time', hfile'⟩
    · simp [hold] at hnone
    · exact hfile content' time' (Option.some.inj (hold.symm.trans hfile'))
  refine ⟨hkeeps, h.home, fun q old hq hold => ?_, ?_⟩
  · rw [h.entry] at hold
    have hparent : fs.entry? q.dropLast = some .directory := by
      split at hold
      · rename_i hqx
        rw [hqx, List.dropLast_concat]
        exact hd
      · exact hfs.tree q old hq hold
    exact hkeeps _ _ (by simp) hparent
  · rw [h.home]
    exact hkeeps _ _ (by simp) hfs.home

/-- Where at most a file stands in a directory, a file takes its place. -/
theorem replaceFile_written (htree : fs.IsTree) (hspot : fs.AtMostFile (d ++ [x]))
    (content : ByteArray) (time : ℤ) :
    ∃ fs', replaceFile (d ++ [x]) content time fs = (.ok (), fs') ∧
      Written (d ++ [x]) (.file content time) fs fs' := by
  have hne : d ++ [x] ≠ [] := by simp
  rcases hspot with hnone | ⟨content', time', hfile⟩
  · have hout : replaceFile (d ++ [x]) content time fs =
        (.ok (), fs.put (d ++ [x]) (.file content time)) := by simp only [replaceFile, hnone]
    refine ⟨_, hout, fun q => ?_, put_workingDir ..⟩
    rw [entry?_put fs hne]
  · have hout : replaceFile (d ++ [x]) content time fs =
        (.ok (), (fs.erase (d ++ [x])).put (d ++ [x]) (.file content time)) := by
      simp only [replaceFile, hfile]
    refine ⟨_, hout, fun q => ?_, put_workingDir ..⟩
    rw [entry?_put _ hne, entry?_erase fs hne]
    by_cases hq : q = d ++ [x]
    · rw [if_pos hq, if_pos hq]
    · rw [if_neg hq, if_neg hq]
      split
      -- Nothing stands below a file, so erasing what is below it takes nothing away.
      · rename_i hbelow
        obtain ⟨rest, rfl⟩ := hbelow
        have hrest : rest ≠ [] := fun hnil => hq (by rw [hnil, List.append_nil])
        cases hentry : fs.entry? (d ++ [x] ++ rest) with
        | none => rfl
        | some old =>
          have habove := htree.above hrest hentry
          rw [hfile] at habove
          simp at habove
      · rfl

/-! ## Clocks -/

/-- An entry can be put at any time. -/
theorem put_atTime (fs : FileSystem) (time : ℤ) (p : Place) (e : Entry) :
    (fs.atTime time).put p e = (fs.put p e).atTime time := by
  have hentries : (fs.atTime time).entries = fs.entries := rfl
  rw [put, put, hentries, apply_ite fun changed => atTime changed time]
  rfl

/-- A directory is there or not at all times. -/
theorem isDirectoryAt_atTime (fs : FileSystem) (time : ℤ) (path : List Component) :
    (fs.atTime time).isDirectoryAt path = fs.isDirectoryAt path := by
  simp only [isDirectoryAt, resolveSteps_atTime]
  rfl

/-- A directory is created in the same way at all times. -/
theorem createDirectory_atTime (fs : FileSystem) (time : ℤ) (path : List Component) :
    (fs.atTime time).createDirectory path =
      ((fs.createDirectory path).1, (fs.createDirectory path).2.atTime time) := by
  rw [createDirectory, createDirectory, resolveSteps_atTime]
  cases fs.resolveSteps false path with
  | error fault => rfl
  | ok place =>
    have hentry : entry? (fs.atTime time) place = fs.entry? place := rfl
    simp only [hentry]
    cases fs.entry? place with
    | some e => rfl
    | none => simp only [put_atTime]

/-- Directories are created in the same way at all times. -/
theorem createReversed_atTime (fs : FileSystem) (time : ℤ) (path : List Component) :
    (fs.atTime time).createReversed path =
      ((fs.createReversed path).1, (fs.createReversed path).2.atTime time) := by
  induction path with
  | nil => rfl
  | cons c rest ih =>
    simp only [createReversed, createDirectory_atTime, isDirectoryAt_atTime, ih]
    rcases fs.createDirectory (c :: rest).reverse with ⟨fault | _, fs₁⟩
    · cases fault with
      | missing =>
        rcases fs.createReversed rest with ⟨fault | _, fs₂⟩
        · rfl
        · simp only [createDirectory_atTime]
          rcases fs₂.createDirectory (c :: rest).reverse with ⟨fault | _, fs₃⟩
          · simp only [isDirectoryAt_atTime]
            cases fs₃.isDirectoryAt (c :: rest).reverse <;> rfl
          · rfl
      | _ => cases fs.isDirectoryAt (c :: rest).reverse <;> rfl
    · rfl

/-- The same for a path that is given as text. -/
theorem createDirectories_atTime (fs : FileSystem) (time : ℤ) (dir : String) :
    createDirectories dir (fs.atTime time) =
      ((createDirectories dir fs).1, (createDirectories dir fs).2.atTime time) := by
  simp only [createDirectories, createReversed_atTime]
  split <;> rfl

end Repertoire.FileSystem
