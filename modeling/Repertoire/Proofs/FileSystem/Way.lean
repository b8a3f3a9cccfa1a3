import Repertoire.Proofs.FileSystem.Walk

/-!
# Ways from the root

A way is a list of names, followed from the root through whatever links stand on it. Either it
leads to a directory, or there may be a first place on it at which nothing stands. Where that place
lies is decided by the links before it: it need not be where the names alone point to.
-/

namespace Repertoire.FileSystem

open Repertoire.Path

variable {fs fs' : FileSystem} {below p q d : Place} {way front : List String} {x : String}

/-- Steps lead to a directory. -/
def StepsTo (fs : FileSystem) (path : List Component) (d : Place) : Prop :=
  fs.resolveSteps true path = .ok d ∧ fs.entry? d = some .directory

/-- A way leads to a directory. -/
def LeadsTo (fs : FileSystem) (way : List String) (d : Place) : Prop :=
  fs.resolveSteps true (placeSteps way) = .ok d ∧ fs.entry? d = some .directory

/-- The first place on a way at which nothing stands: the names before it lead to a directory, in
which the next name is missing. -/
def FirstMissing (fs : FileSystem) (way : List String) (p : Place) : Prop :=
  ∃ front next rest d, way = front ++ next :: rest ∧ fs.LeadsTo front d ∧ p = d ++ [next] ∧
    fs.entry? p = none ∧ next.utf8ByteSize ≤ nameLimit

/-! ## Ways -/

/-- A way starts at the root. -/
theorem resolveSteps_placeSteps (fs : FileSystem) (followLast : Bool) (way : List String) :
    fs.resolveSteps followLast (placeSteps way) =
      fs.follow followLast linkLimit [] (way.map .name) := by
  obtain ⟨onLink, hwalk⟩ := follow_eq_walk fs followLast linkLimit
  rw [resolveSteps, hwalk, hwalk, placeSteps, walk]

/-- The end of a way is unique. -/
theorem LeadsTo.unique (h : fs.LeadsTo way p) (h' : fs.LeadsTo way q) : p = q :=
  Except.ok.inj (h.1.symm.trans h'.1)

/-- What a way is for the root alone. -/
theorem leadsTo_nil (fs : FileSystem) : fs.LeadsTo [] [] := by
  refine ⟨?_, entry?_nil fs⟩
  obtain ⟨onLink, hwalk⟩ := follow_eq_walk fs true linkLimit
  rw [resolveSteps_placeSteps, hwalk, List.map_nil, walk]

/-- A way whose front leads to a directory goes on from there. -/
theorem LeadsTo.append (htree : fs.IsTree) (h : fs.LeadsTo front d) :
    ∃ j, ∀ followLast rest, rest ≠ [] →
      fs.resolveSteps followLast (placeSteps (front ++ rest)) =
        fs.follow followLast j d (rest.map .name) := by
  have hfront := h.1
  rw [resolveSteps_placeSteps] at hfront
  obtain ⟨j, hgo⟩ := follow_append htree (entry?_nil fs) hfront h.2
  refine ⟨j, fun fl rest hrest => ?_⟩
  rw [resolveSteps_placeSteps, List.map_append]
  exact hgo fl (rest.map .name) (by simpa using hrest)

/-- A way whose front leads to no directory fails. -/
theorem resolve_of_not_leadsTo (htree : fs.IsTree) (h : ∀ d, ¬ fs.LeadsTo front d)
    (followLast : Bool) {rest : List String} (hrest : rest ≠ []) :
    ∃ fault, fs.resolveSteps followLast (placeSteps (front ++ rest)) = .error fault := by
  have hno (d : Place) (hd : fs.follow true linkLimit [] (front.map .name) = .ok d) :
      fs.entry? d ≠ some .directory := fun hdir =>
    h d ⟨(resolveSteps_placeSteps fs true front).trans hd, hdir⟩
  rw [resolveSteps_placeSteps, List.map_append]
  exact follow_append_error htree (entry?_nil fs) hno followLast (by simpa using hrest)

/-- A directory in the directory that a way leads to. -/
theorem LeadsTo.snoc (htree : fs.IsTree) (h : fs.LeadsTo way d)
    (hdir : fs.entry? (d ++ [x]) = some .directory) (hshort : x.utf8ByteSize ≤ nameLimit) :
    fs.LeadsTo (way ++ [x]) (d ++ [x]) := by
  obtain ⟨j, hgo⟩ := h.append htree
  obtain ⟨onLink, hwalk⟩ := follow_eq_walk fs true j
  refine ⟨?_, hdir⟩
  rw [hgo true [x] (by simp), List.map_singleton, follow_directory hdir hshort, hwalk, walk]

/-- A way leads where it led after growth. -/
theorem LeadsTo.of_growsBelow (hgrow : GrowsBelow below fs fs') (h : fs.LeadsTo way d) :
    fs'.LeadsTo way d := by
  refine ⟨?_, hgrow.keeps h.2⟩
  have hd := h.1
  rw [resolveSteps_placeSteps] at hd ⊢
  exact follow_of_growsBelow hgrow h.2 hd

/-- The way of a directory leads to that directory, if it leads anywhere: there are no links on it,
but its names may be too long to be followed. -/
theorem LeadsTo.eq_of_directory (htree : fs.IsTree) (hp : fs.entry? p = some .directory)
    (h : fs.LeadsTo p d) : d = p := by
  induction p using List.reverseRecOn generalizing d with
  | nil => exact h.unique (leadsTo_nil fs)
  | append_singleton p x ih =>
    have hparent : fs.entry? p = some .directory := by
      have hdrop := htree.dropLast hp
      rwa [List.dropLast_concat] at hdrop
    by_cases hlead : ∃ d', fs.LeadsTo p d'
    · obtain ⟨d', hd'⟩ := hlead
      obtain rfl := ih hparent hd'
      obtain ⟨j, hgo⟩ := hd'.append htree
      obtain ⟨onLink, hwalk⟩ := follow_eq_walk fs true j
      have hend := h.1
      rw [hgo true [x] (by simp), List.map_singleton, hwalk, walk] at hend
      split at hend
      · simp at hend
      · rw [hp] at hend
        exact (Except.ok.inj hend).symm
    · obtain ⟨fault, hfault⟩ := resolve_of_not_leadsTo htree (fun d' hd' => hlead ⟨d', hd'⟩) true
        (List.cons_ne_nil x [])
      rw [h.1] at hfault
      simp at hfault

/-! ## The first missing place -/

/-- A way on which something is missing leads nowhere. -/
theorem FirstMissing.not_leadsTo (htree : fs.IsTree) (h : fs.FirstMissing way p) (d : Place) :
    ¬ fs.LeadsTo way d := by
  obtain ⟨front, next, rest, d₀, rfl, hfront, rfl, hmissing, hshort⟩ := h
  obtain ⟨j, hgo⟩ := hfront.append htree
  intro hd
  have hend := hd.1
  rw [hgo true (next :: rest) (by simp), List.map_cons, follow_missing hmissing hshort] at hend
  split at hend
  · rw [← Except.ok.inj hend] at hd
    exact absurd (hmissing.symm.trans hd.2) (by simp)
  · simp at hend

/-- What is missing on a way is missing on a longer one. -/
theorem FirstMissing.snoc (h : fs.FirstMissing way p) (x : String) :
    fs.FirstMissing (way ++ [x]) p := by
  obtain ⟨front, next, rest, d, rfl, hrest⟩ := h
  exact ⟨front, next, rest ++ [x], d, by simp, hrest⟩

/-- What is missing on a way is missing before its last name, or is its last name. -/
theorem FirstMissing.snoc_cases (h : fs.FirstMissing (way ++ [x]) p) :
    fs.FirstMissing way p ∨
      ∃ d, fs.LeadsTo way d ∧ p = d ++ [x] ∧ fs.entry? p = none ∧ x.utf8ByteSize ≤ nameLimit := by
  obtain ⟨front, next, rest, d, hway, hfront, hp, hmissing, hshort⟩ := h
  rcases List.eq_nil_or_concat' rest with rfl | ⟨rest, y, rfl⟩
  · obtain ⟨rfl, hx⟩ := List.append_inj' hway rfl
    obtain rfl : x = next := (List.singleton_inj.mp hx)
    exact .inr ⟨d, hfront, hp, hmissing, hshort⟩
  · have hsplit : way ++ [x] = (front ++ next :: rest) ++ [y] := by simpa using hway
    obtain ⟨rfl, -⟩ := List.append_inj' hsplit rfl
    exact .inl ⟨front, next, rest, d, rfl, hfront, hp, hmissing, hshort⟩

/-- There is at most one first missing place. -/
theorem FirstMissing.unique (htree : fs.IsTree) (h : fs.FirstMissing way p)
    (h' : fs.FirstMissing way q) : p = q := by
  induction way using List.reverseRecOn with
  | nil =>
    obtain ⟨front, next, rest, d, hway, -⟩ := h
    simp at hway
  | append_singleton way x ih =>
    rcases h.snoc_cases with hp | ⟨d, hd, hp, -⟩ <;> rcases h'.snoc_cases with hq | ⟨d', hd', hq, -⟩
    · exact ih hp hq
    · exact absurd hd' (hp.not_leadsTo htree d')
    · exact absurd hd (hq.not_leadsTo htree d)
    · rw [hp, hq, hd.unique hd']

/-- Once directories were added from the first missing place on, the way leads below that place:
nothing stood there before, so there are no links to follow. -/
theorem FirstMissing.prefix_of_leadsTo (htree : fs.IsTree) (htree' : fs'.IsTree)
    (h : fs.FirstMissing way p) (hgrow : GrowsBelow p fs fs')
    (hp : fs'.entry? p = some .directory) (hd : fs'.LeadsTo way d) : p <+: d := by
  obtain ⟨front, next, rest, d₀, rfl, hfront, rfl, hmissing, hshort⟩ := h
  obtain ⟨j, hgo⟩ := (hfront.of_growsBelow hgrow).append htree'
  have hend := hd.1
  rw [hgo true (next :: rest) (by simp), List.map_cons, follow_directory hp hshort] at hend
  refine follow_names_below (fun q hq => ?_) hend
  rcases hgrow q with hsame | ⟨-, -, hdir⟩
  · exact .inl (hsame.trans (htree.missing_below hmissing hq))
  · exact .inr hdir

end Repertoire.FileSystem
