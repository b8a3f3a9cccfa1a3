import Mathlib.Data.List.Infix
import Mathlib.Data.Nat.Notation
import Repertoire.FileSystem.Basic

/-!
# File systems as trees

What stands where after an entry was put or erased, and the one condition on file systems that
their representation does not force: every entry stands in a directory. Below a place where nothing
stands there is then nothing either, which is what makes it possible to say where the directories
on the way to an entry will be created.
-/

namespace Repertoire.FileSystem

variable {fs fs' fs'' : FileSystem} {place below p q : Place}

/-- A place lies within another one exactly when its way begins with that of the other. -/
theorem isWithin_iff : isWithin place p = true ↔ place <+: p := List.isPrefixOf_iff_prefix

/-- The root is a directory. -/
@[simp] theorem entry?_nil (fs : FileSystem) : fs.entry? [] = some .directory := rfl

/-- Putting an entry somewhere does not change where relative paths start. -/
@[simp] theorem put_workingDir (fs : FileSystem) (p : Place) (e : Entry) :
    (fs.put p e).workingDir = fs.workingDir := by
  rw [put]
  split <;> rfl

/-- Putting an entry somewhere takes no time. -/
@[simp] theorem put_now (fs : FileSystem) (p : Place) (e : Entry) : (fs.put p e).now = fs.now := by
  rw [put]
  split <;> rfl

/-- The first entry of a place among entries of which some were replaced. -/
theorem find?_map_replace (entries : List (Place × Entry)) (p q : Place) (e : Entry) :
    ((entries.map fun (x, old) => if x = p then (x, e) else (x, old)).find? fun (x, _) => x = q) =
      (entries.find? fun (x, _) => x = q).map
        fun (x, old) => if x = p then (x, e) else (x, old) := by
  induction entries with
  | nil => rfl
  | cons first rest ih =>
    obtain ⟨x, old⟩ := first
    by_cases hxp : x = p <;> by_cases hxq : x = q <;> simp_all

/-- Putting an entry at a place changes what stands there and nothing else. -/
theorem entry?_put (fs : FileSystem) {p : Place} (hp : p ≠ []) (e : Entry) (q : Place) :
    entry? (fs.put p e) q = if q = p then some e else fs.entry? q := by
  by_cases hq : q = []
  · subst hq
    simp [Ne.symm hp]
  · simp only [FileSystem.entry?, if_neg hq, put]
    -- A place that is listed has its entry replaced where it is; any other comes at the end of the
    -- list.
    split
    · rename_i hany
      rw [find?_map_replace]
      by_cases hqp : q = p
      · subst hqp
        obtain ⟨⟨x, old⟩, hmem, hx⟩ := List.any_eq_true.mp hany
        have hsome : (fs.entries.find? fun (x, _) => x = q).isSome :=
          List.find?_isSome.mpr ⟨(x, old), hmem, hx⟩
        obtain ⟨⟨y, found⟩, hfound⟩ := Option.isSome_iff_exists.mp hsome
        have hy : y = q := by simpa using List.find?_some hfound
        simp [hfound, hy]
      · cases hfound : fs.entries.find? fun (x, _) => x = q with
        | none => simp [hqp]
        | some found =>
          have hy : found.1 = q := by simpa using List.find?_some hfound
          have hne : found.1 ≠ p := fun h => hqp (hy ▸ h)
          simp [hne, hqp]
    · rename_i hnone
      have hfree : (fs.entries.find? fun (x, _) => x = p) = none :=
        List.find?_eq_none.mpr fun old hmem hx => hnone (List.any_eq_true.mpr ⟨old, hmem, hx⟩)
      by_cases hqp : q = p
      · subst hqp
        simp [List.find?_append, hfree]
      · cases hfound : fs.entries.find? fun (x, _) => x = q <;>
          simp [List.find?_append, hfound, hqp, Ne.symm hqp]

/-- Erasing a place removes what stands there and below, and nothing else. -/
theorem entry?_erase (fs : FileSystem) {p : Place} (hp : p ≠ []) (q : Place) :
    entry? (fs.erase p) q = if p <+: q then none else fs.entry? q := by
  by_cases hq : q = []
  · subst hq
    simp [hp]
  · simp only [FileSystem.entry?, if_neg hq, erase, List.find?_filter]
    by_cases hpq : p <+: q
    · rw [if_pos hpq, Option.map_eq_none_iff, List.find?_eq_none]
      rintro ⟨x, old⟩ - hx
      simp only [Bool.not_eq_true', decide_eq_true_eq] at hx
      rw [hx.2, Bool.eq_false_iff] at hx
      exact hx.1 (isWithin_iff.mpr hpq)
    · rw [if_neg hpq]
      congr 2
      funext ⟨x, old⟩
      by_cases hx : x = q
      · have hout : isWithin p q = false := by rwa [Bool.eq_false_iff, Ne, isWithin_iff]
        simp [hx, hout]
      · simp [hx]

/-! ## Trees -/

/-- Every entry stands in a directory. -/
def IsTree (fs : FileSystem) : Prop :=
  ∀ p e, p ≠ [] → fs.entry? p = some e → fs.entry? p.dropLast = some .directory

/-- Entries that are listed in directories make a tree. -/
theorem isTree_of_entries (h : ∀ x ∈ fs.entries, fs.entry? x.1.dropLast = some .directory) :
    fs.IsTree := by
  intro p e hp he
  rw [FileSystem.entry?, if_neg hp, Option.map_eq_some_iff] at he
  obtain ⟨⟨x, old⟩, hfound, -⟩ := he
  obtain rfl : x = p := by simpa using List.find?_some hfound
  exact h (x, old) (List.mem_of_find?_eq_some hfound)

/-- The directory in which a directory stands, the root being its own. -/
theorem IsTree.dropLast (h : fs.IsTree) (hp : fs.entry? p = some .directory) :
    fs.entry? p.dropLast = some .directory := by
  by_cases hnil : p = []
  · subst hnil
    rfl
  · exact h p .directory hnil hp

/-- Above every entry there are directories only. -/
theorem IsTree.above (h : fs.IsTree) {e : Entry} (hq : q ≠ [])
    (he : fs.entry? (p ++ q) = some e) : fs.entry? p = some .directory := by
  induction q using List.reverseRecOn generalizing e with
  | nil => exact absurd rfl hq
  | append_singleton q n ih =>
    have hparent : fs.entry? (p ++ q) = some .directory := by
      have hdrop := h (p ++ (q ++ [n])) e (by simp) he
      rwa [← List.append_assoc, List.dropLast_concat] at hdrop
    by_cases hnil : q = []
    · simpa [hnil] using hparent
    · exact ih hnil hparent

/-- Below a place where nothing stands there is nothing. -/
theorem IsTree.missing_below (h : fs.IsTree) (hp : fs.entry? p = none) (hpq : p <+: q) :
    fs.entry? q = none := by
  obtain ⟨rest, rfl⟩ := hpq
  by_cases hnil : rest = []
  · simpa [hnil] using hp
  · cases he : fs.entry? (p ++ rest) with
    | none => rfl
    | some e => simp [h.above hnil he] at hp

/-- An entry put into a directory keeps the tree, if it is a directory or nothing stands below. -/
theorem IsTree.put (h : fs.IsTree) (hp : p ≠ []) (hparent : fs.entry? p.dropLast = some .directory)
    {e : Entry} (he : e = .directory ∨ ∀ n, fs.entry? (p ++ [n]) = none) :
    (fs.put p e).IsTree := by
  intro q old hq hold
  have hparentOf (r : Place) (hr : r ≠ p) (hdir : fs.entry? r = some .directory) :
      entry? (fs.put p e) r = some .directory := by rw [entry?_put fs hp, if_neg hr, hdir]
  have hself : p.dropLast ≠ p := fun heq => by
    have hlen := congrArg List.length heq
    have hpos := List.length_pos_iff.mpr hp
    simp only [List.length_dropLast] at hlen
    omega
  by_cases hqp : q = p
  · subst hqp
    exact hparentOf _ hself hparent
  · rw [entry?_put fs hp, if_neg hqp] at hold
    by_cases hchild : q.dropLast = p
    · rcases he with rfl | hfree
      · rw [hchild, entry?_put fs hp, if_pos rfl]
      · have hsplit : p ++ [q.getLast hq] = q := by rw [← hchild, List.dropLast_append_getLast]
        have hnone := hfree (q.getLast hq)
        rw [hsplit, hold] at hnone
        exact absurd hnone (Option.some_ne_none old)
    · exact hparentOf _ hchild (h q old hq hold)

/-- Erasing a place with everything below it keeps the tree. -/
theorem IsTree.erase (h : fs.IsTree) (hp : p ≠ []) : (fs.erase p).IsTree := by
  intro q old hq hold
  rw [entry?_erase fs hp] at hold ⊢
  split at hold
  · exact absurd hold.symm (Option.some_ne_none old)
  · rename_i hout
    rw [if_neg fun hin => hout (hin.trans (List.dropLast_prefix q))]
    exact h q old hq hold

/-! ## Growth -/

/-- Nothing changed, except that directories were added at or below a place, where nothing stood. -/
def GrowsBelow (below : Place) (fs fs' : FileSystem) : Prop :=
  ∀ p, fs'.entry? p = fs.entry? p ∨
    (below <+: p ∧ fs.entry? p = none ∧ fs'.entry? p = some .directory)

/-- What stands somewhere still stands there after growth. -/
theorem GrowsBelow.keeps (h : GrowsBelow below fs fs') {e : Entry} (he : fs.entry? p = some e) :
    fs'.entry? p = some e := by
  rcases h p with hsame | ⟨-, hnone, -⟩
  · rw [hsame, he]
  · simp [he] at hnone

/-- Growth after growth. -/
theorem GrowsBelow.trans (h : GrowsBelow below fs fs') (h' : GrowsBelow below fs' fs'') :
    GrowsBelow below fs fs'' := by
  intro p
  rcases h' p with hsame | ⟨hin, hnone, hdir⟩
  · rw [hsame]
    exact h p
  · rcases h p with hsame | ⟨-, -, hdir'⟩
    · exact .inr ⟨hin, hsame ▸ hnone, hdir⟩
    · simp [hnone] at hdir'

/-- Putting a directory where nothing stands is growth. -/
theorem growsBelow_put (hnone : fs.entry? p = none) (hin : below <+: p) :
    GrowsBelow below fs (fs.put p .directory) := by
  intro q
  have hp : p ≠ [] := fun hnil => by simp [hnil] at hnone
  rw [entry?_put fs hp]
  by_cases hqp : q = p
  · subst hqp
    exact .inr ⟨hin, hnone, if_pos rfl⟩
  · exact .inl (if_neg hqp)

/-- A directory put into a directory where nothing stands keeps the tree. -/
theorem IsTree.putDirectory (h : fs.IsTree) (hnone : fs.entry? p = none)
    (hparent : fs.entry? p.dropLast = some .directory) : (fs.put p .directory).IsTree :=
  h.put (fun hnil => by simp [hnil] at hnone) hparent (.inl rfl)

end Repertoire.FileSystem
