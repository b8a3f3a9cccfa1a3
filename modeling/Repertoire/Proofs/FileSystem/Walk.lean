import Repertoire.FileSystem.Resolve
import Repertoire.Proofs.FileSystem.Tree

/-!
# Following a path in two parts

A path whose front leads to a directory goes on from there, with as many links as the front has
left; where the front leads elsewhere, nothing longer leads anywhere. This is shown once for paths
with links and upward steps of any kind. The rest speaks about the ways that names alone describe
from the root, where a link can only be met by name.
-/

namespace Repertoire.FileSystem

open Repertoire.Path

variable {fs fs' fs'' : FileSystem} {below p d r : Place}

/-- Following steps through some number of links is a walk, whatever happens at a link. -/
theorem follow_eq_walk (fs : FileSystem) (followLast : Bool) (k : ℕ) :
    ∃ onLink, ∀ p cs, fs.follow followLast k p cs = fs.walk onLink followLast p cs := by
  cases k with
  | zero => exact ⟨_, fun _ _ => rfl⟩
  | succ k => exact ⟨_, fun _ _ => rfl⟩

/-! ## The front and the rest of a path -/

/-- What a longer path leads to is decided by where its front leads: from a directory it goes on,
and from anything else it fails. The last step of the front is followed if it is a link. -/
def Continues (fs : FileSystem) (front : Except FileFault Place)
    (whole : Bool → List Component → Except FileFault Place) : Prop :=
  (∃ d j, front = .ok d ∧ fs.entry? d = some .directory ∧
    ∀ followLast rest, rest ≠ [] → whole followLast rest = fs.follow followLast j d rest) ∨
  ((∀ d, front = .ok d → fs.entry? d ≠ some .directory) ∧
    ∀ followLast rest, rest ≠ [] → ∃ fault, whole followLast rest = .error fault)

/-- Only what the longer paths lead to matters. -/
theorem Continues.congr {front : Except FileFault Place}
    {whole whole' : Bool → List Component → Except FileFault Place}
    (h : Continues fs front whole)
    (heq : ∀ followLast rest, rest ≠ [] → whole' followLast rest = whole followLast rest) :
    Continues fs front whole' := by
  rcases h with ⟨d, j, hfront, hd, hgo⟩ | ⟨hfront, hfail⟩
  · exact .inl ⟨d, j, hfront, hd, fun fl rest hrest =>
      (heq fl rest hrest).trans (hgo fl rest hrest)⟩
  · refine .inr ⟨hfront, fun fl rest hrest => ?_⟩
    rw [heq fl rest hrest]
    exact hfail fl rest hrest

/-- A front that ends at no directory lets no longer path succeed. -/
theorem Continues.ofFailure {front : Except FileFault Place}
    {whole : Bool → List Component → Except FileFault Place}
    (hfront : ∀ d, front = .ok d → fs.entry? d ≠ some .directory)
    (hfail : ∀ followLast rest, rest ≠ [] → ∃ fault, whole followLast rest = .error fault) :
    Continues fs front whole := .inr ⟨hfront, hfail⟩

/-- A walk from a directory continues, provided that it does behind the links it meets. -/
theorem walk_continues (htree : fs.IsTree) {k : ℕ}
    (onLink : Bool → Place → List Component → Except FileFault Place)
    (hwalk : ∀ followLast p cs,
      fs.follow followLast k p cs = fs.walk (onLink followLast) followLast p cs)
    (hlink : ∀ p cs, fs.entry? p = some .directory →
      Continues fs (onLink true p cs) fun followLast rest => onLink followLast p (cs ++ rest))
    (hp : fs.entry? p = some .directory) (cs : List Component) :
    Continues fs (fs.follow true k p cs) fun followLast rest =>
      fs.follow followLast k p (cs ++ rest) := by
  -- On the components of the front. Only a link sends the walk elsewhere, and for that there is
  -- `hlink`.
  induction cs generalizing p with
  | nil => exact .inl ⟨p, k, by rw [hwalk, walk], hp, fun _ _ _ => rfl⟩
  | cons c cs ih =>
    simp only [hwalk] at ih ⊢
    cases c with
    | root => exact ih (entry?_nil fs)
    | here => exact ih hp
    | parent => exact ih (htree.dropLast hp)
    | name n =>
      simp only [List.cons_append, walk]
      by_cases hlong : nameLimit < n.utf8ByteSize
      · simp only [if_pos hlong]
        exact .ofFailure (fun d h => by simp at h) fun _ _ _ => ⟨_, rfl⟩
      · simp only [if_neg hlong]
        cases hentry : fs.entry? (p ++ [n]) with
        | none =>
          refine .ofFailure (fun d h => ?_) fun fl rest hrest => ⟨.missing, by simp [hrest]⟩
          simp only at h
          split at h
          · obtain rfl := Except.ok.inj h
            simp [hentry]
          · simp at h
        | some e =>
          cases e with
          | directory => exact ih hentry
          | file content time =>
            refine .ofFailure (fun d h => ?_) fun fl rest hrest => ⟨.notDirectory, by simp [hrest]⟩
            simp only at h
            split at h
            · obtain rfl := Except.ok.inj h
              simp [hentry]
            · simp at h
          | link target =>
            by_cases hempty : target.isEmpty = true
            · refine .ofFailure (fun d h => ?_) fun fl rest hrest =>
                ⟨.missing, by simp [hrest, hempty]⟩
              simp [hempty] at h
            · have hgo := hlink p (steps target ++ cs) hp
              simp only [Bool.not_true, Bool.and_false, Bool.false_eq_true, if_false, hempty]
              refine hgo.congr fun fl rest hrest => ?_
              simp [hrest]

/-- A path from a directory is its front and then the rest. -/
theorem follow_continues (htree : fs.IsTree) (k : ℕ) (hp : fs.entry? p = some .directory)
    (cs : List Component) :
    Continues fs (fs.follow true k p cs) fun followLast rest =>
      fs.follow followLast k p (cs ++ rest) := by
  induction k generalizing p cs with
  | zero =>
    refine walk_continues htree (fun _ _ _ => .error .tooManyLinks) (fun _ _ _ => rfl)
      (fun p cs _ => ?_) hp cs
    exact .ofFailure (fun d h => by simp at h) fun _ _ _ => ⟨_, rfl⟩
  | succ k ih =>
    exact walk_continues htree (fun fl => fs.follow fl k) (fun _ _ _ => rfl)
      (fun p cs hp => ih hp cs) hp cs

/-- A path whose front leads to a directory goes on from there. -/
theorem follow_append (htree : fs.IsTree) {k : ℕ} (hp : fs.entry? p = some .directory)
    {front : List Component} (hfront : fs.follow true k p front = .ok d)
    (hd : fs.entry? d = some .directory) :
    ∃ j, ∀ followLast rest, rest ≠ [] →
      fs.follow followLast k p (front ++ rest) = fs.follow followLast j d rest := by
  rcases follow_continues htree k hp front with ⟨d', j, hd', -, hgo⟩ | ⟨hno, -⟩
  · obtain rfl : d = d' := Except.ok.inj (hfront.symm.trans hd')
    exact ⟨j, hgo⟩
  · exact absurd hd (hno d hfront)

/-- A path whose front leads to no directory fails. -/
theorem follow_append_error (htree : fs.IsTree) {k : ℕ} (hp : fs.entry? p = some .directory)
    {front : List Component}
    (hno : ∀ d, fs.follow true k p front = .ok d → fs.entry? d ≠ some .directory)
    (followLast : Bool) {rest : List Component} (hrest : rest ≠ []) :
    ∃ fault, fs.follow followLast k p (front ++ rest) = .error fault := by
  rcases follow_continues htree k hp front with ⟨d, j, hd, hdir, -⟩ | ⟨-, hfail⟩
  · exact absurd hdir (hno d hd)
  · exact hfail followLast rest hrest

/-! ## Single names -/

/-- The last name of a path whose end is not followed leads to where it says. -/
theorem follow_false_name (fs : FileSystem) (k : ℕ) (d : Place) (n : String) :
    fs.follow false k d [.name n] =
      if nameLimit < n.utf8ByteSize then .error .nameTooLong else .ok (d ++ [n]) := by
  obtain ⟨onLink, hwalk⟩ := follow_eq_walk fs false k
  rw [hwalk, walk]
  split
  · rfl
  · rcases fs.entry? (d ++ [n]) with _ | _ | _ | _ <;> simp [walk]

/-- A missing name ends a path, or makes it fail when more is to come. -/
theorem follow_missing {followLast : Bool} {k : ℕ} {n : String}
    (hmissing : fs.entry? (d ++ [n]) = none) (hshort : n.utf8ByteSize ≤ nameLimit)
    (rest : List Component) :
    fs.follow followLast k d (.name n :: rest) =
      if rest.isEmpty then .ok (d ++ [n]) else .error .missing := by
  obtain ⟨onLink, hwalk⟩ := follow_eq_walk fs followLast k
  rw [hwalk, walk, if_neg (Nat.not_lt.mpr hshort), hmissing]

/-- A directory on the way is entered. -/
theorem follow_directory {followLast : Bool} {k : ℕ} {n : String}
    (hdir : fs.entry? (d ++ [n]) = some .directory) (hshort : n.utf8ByteSize ≤ nameLimit)
    (rest : List Component) :
    fs.follow followLast k d (.name n :: rest) = fs.follow followLast k (d ++ [n]) rest := by
  obtain ⟨onLink, hwalk⟩ := follow_eq_walk fs followLast k
  rw [hwalk, hwalk, walk, if_neg (Nat.not_lt.mpr hshort), hdir]

/-- Where nothing but directories stands below a place, names lead only further down. -/
theorem follow_names_below {followLast : Bool} {k : ℕ} {names : List String}
    (hbelow : ∀ q, p <+: q → fs.entry? q = none ∨ fs.entry? q = some .directory)
    (h : fs.follow followLast k p (names.map .name) = .ok r) : p <+: r := by
  obtain ⟨onLink, hwalk⟩ := follow_eq_walk fs followLast k
  rw [hwalk] at h
  induction names generalizing p with
  | nil => exact Except.ok.inj h ▸ List.prefix_rfl
  | cons n rest ih =>
    have hdown : p <+: p ++ [n] := List.prefix_append p [n]
    rw [List.map_cons, walk] at h
    split at h
    · simp at h
    · rcases hbelow (p ++ [n]) hdown with hentry | hentry
      · rw [hentry] at h
        simp only [List.isEmpty_map] at h
        split at h
        · exact Except.ok.inj h ▸ hdown
        · simp at h
      · rw [hentry] at h
        exact hdown.trans (ih (fun q hq => hbelow q (hdown.trans hq)) h)

/-! ## Changes that a path does not notice -/

/-- At most a file stands at a place. -/
def AtMostFile (fs : FileSystem) (p : Place) : Prop :=
  fs.entry? p = none ∨ ∃ content time, fs.entry? p = some (.file content time)

/-- What is neither missing nor a file stays where it stands. -/
def Keeps (fs fs' : FileSystem) : Prop :=
  ∀ p e, (∀ content time, e ≠ .file content time) → fs.entry? p = some e → fs'.entry? p = some e

/-- What is kept in two changes is kept in both. -/
theorem Keeps.trans (h : Keeps fs fs') (h' : Keeps fs' fs'') : Keeps fs fs'' :=
  fun p e hfile he => h' p e hfile (h p e hfile he)

/-- Growth keeps everything. -/
theorem keeps_of_growsBelow (h : GrowsBelow below fs fs') : Keeps fs fs' :=
  fun _ _ _ he => h.keeps he

/-- A name at which at most a file stands ends a path, or makes it fail. -/
theorem walk_atMostFile {onLink : Place → List Component → Except FileFault Place}
    {followLast : Bool} {n : String} {cs : List Component} (h : fs.AtMostFile (p ++ [n]))
    (hshort : ¬ nameLimit < n.utf8ByteSize) :
    fs.walk onLink followLast p (.name n :: cs) = .ok r ↔ cs = [] ∧ p ++ [n] = r := by
  rw [walk, if_neg hshort]
  rcases h with hnone | ⟨content, time, hfile⟩
  · cases cs <;> simp [hnone]
  · cases cs <;> simp [hfile]

/-- A walk to a place leads there after the change, provided that it does behind links. -/
theorem walk_of_keeps (hkeeps : Keeps fs fs') (hend : fs.AtMostFile r → fs'.AtMostFile r)
    {followLast : Bool} {onLink onLink' : Place → List Component → Except FileFault Place}
    (hlink : ∀ p cs, onLink p cs = .ok r → onLink' p cs = .ok r) {cs : List Component}
    (h : fs.walk onLink followLast p cs = .ok r) : fs'.walk onLink' followLast p cs = .ok r := by
  induction cs generalizing p with
  | nil => exact h
  | cons c cs ih =>
    cases c with
    | root => exact ih h
    | here => exact ih h
    | parent => exact ih h
    | name n =>
      by_cases hshort : nameLimit < n.utf8ByteSize
      · rw [walk, if_pos hshort] at h
        simp at h
      · by_cases hlast : fs.AtMostFile (p ++ [n])
        · -- The walk ends here, so this is the place.
          obtain ⟨rfl, rfl⟩ := (walk_atMostFile hlast hshort).mp h
          exact (walk_atMostFile (hend hlast) hshort).mpr ⟨rfl, rfl⟩
        · rw [walk, if_neg hshort] at h ⊢
          rcases hentry : fs.entry? (p ++ [n]) with _ | _ | _ | target
          · exact absurd (.inl hentry) hlast
          · exact absurd (.inr ⟨_, _, hentry⟩) hlast
          · rw [hkeeps _ _ (by simp) hentry]
            rw [hentry] at h
            exact ih h
          · rw [hkeeps _ _ (by simp) hentry]
            simp only [hentry] at h ⊢
            split at h
            · rename_i hstop
              rwa [if_pos hstop]
            · rename_i hstop
              rw [if_neg hstop]
              split at h
              · simp at h
              · rename_i htarget
                rw [if_neg htarget]
                exact hlink p _ h

/-- A path to a place leads there after the change. -/
theorem follow_of_keeps (hkeeps : Keeps fs fs') (hend : fs.AtMostFile r → fs'.AtMostFile r)
    {followLast : Bool} {k : ℕ} {cs : List Component} (h : fs.follow followLast k p cs = .ok r) :
    fs'.follow followLast k p cs = .ok r := by
  induction k generalizing p cs with
  | zero => exact walk_of_keeps hkeeps hend (fun _ _ hlink => by simp at hlink) h
  | succ k ih => exact walk_of_keeps hkeeps hend (fun _ _ hlink => ih hlink) h

/-- Nothing is lost on the way to a place. At the place itself stands what stood there before, or a
file where at most a file stood. -/
structure SameUpTo (r : Place) (fs fs' : FileSystem) : Prop where
  kept : ∀ q e, q ≠ r → fs.entry? q = some e → fs'.entry? q = some e
  last : fs'.entry? r = fs.entry? r ∨ (fs.AtMostFile r ∧ fs'.AtMostFile r)

/-- What is neither missing nor a file is kept. -/
theorem SameUpTo.keeps (h : SameUpTo r fs fs') : Keeps fs fs' := by
  intro q e hfile he
  by_cases hq : q = r
  · subst hq
    rcases h.last with hsame | ⟨hnone | ⟨content, time, hold⟩, -⟩
    · rw [hsame, he]
    · simp [hnone] at he
    · rw [he] at hold
      exact absurd (Option.some.inj hold) (hfile content time)
  · exact h.kept q e hq he

/-- At the end at most a file stands where at most a file stood. -/
theorem SameUpTo.atMostFile (h : SameUpTo r fs fs') (hr : fs.AtMostFile r) : fs'.AtMostFile r := by
  rcases h.last with hsame | ⟨-, hafter⟩
  · rwa [AtMostFile, hsame]
  · exact hafter

/-- A path to a place leads there after the change. -/
theorem follow_of_sameUpTo (hsame : SameUpTo r fs fs') {followLast : Bool} {k : ℕ}
    {cs : List Component} (h : fs.follow followLast k p cs = .ok r) :
    fs'.follow followLast k p cs = .ok r :=
  follow_of_keeps hsame.keeps hsame.atMostFile h

/-- A path that leads to an entry leads there after growth. -/
theorem follow_of_growsBelow (hgrow : GrowsBelow below fs fs') {followLast : Bool} {k : ℕ}
    {cs : List Component} {e : Entry} (hd : fs.entry? d = some e)
    (h : fs.follow followLast k p cs = .ok d) : fs'.follow followLast k p cs = .ok d := by
  have hsame : SameUpTo d fs fs' :=
    ⟨fun q old _ hold => hgrow.keeps hold, .inl (by rw [hd, hgrow.keeps hd])⟩
  exact follow_of_sameUpTo hsame h

end Repertoire.FileSystem
