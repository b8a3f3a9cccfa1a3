import Repertoire.FileSystem.Write
import Repertoire.Proofs.FileSystem.Way

/-!
# Creating the directories on a way

Creating the directories on a way adds nothing but directories, all of them at or below the first
missing place, and that place gets its directory even if the rest fails. Where nothing is missing,
nothing happens. When the creation succeeds, the way leads to a directory.
-/

namespace Repertoire.FileSystem

open Repertoire.Path

variable {fs fs' : FileSystem} {p d : Place} {way : List String} {x : String}
  {path front : List Component} {c : Component}

/-- The test for a directory agrees with where steps lead. -/
theorem isDirectoryAt_iff (fs : FileSystem) (path : List Component) :
    fs.isDirectoryAt path = true ↔ ∃ d, fs.StepsTo path d := by
  simp only [isDirectoryAt, StepsTo]
  cases hpath : fs.resolveSteps true path with
  | error fault => simp
  | ok place => rcases hentry : fs.entry? place with _ | _ | _ | _ <;> simp [hentry]

/-! ## One directory -/

/-- A failure to create one directory changes nothing. -/
theorem createDirectory_error {fault : FileFault}
    (h : fs.createDirectory path = (.error fault, fs')) : fs' = fs := by
  rw [createDirectory] at h
  split at h
  · exact (congrArg Prod.snd h).symm
  · split at h
    · exact (congrArg Prod.snd h).symm
    · simp at h

/-- Creating one directory in a directory from which the path goes on with its last name. -/
theorem createDirectory_name {j : ℕ}
    (hgo : fs.resolveSteps false (front ++ [.name x]) = fs.follow false j d [.name x]) :
    fs.createDirectory (front ++ [.name x]) =
      if nameLimit < x.utf8ByteSize then (.error .nameTooLong, fs)
      else
        match fs.entry? (d ++ [x]) with
        | some _ => (.error .alreadyThere, fs)
        | none => (.ok (), fs.put (d ++ [x]) .directory) := by
  rw [createDirectory, hgo, follow_false_name]
  by_cases hlong : nameLimit < x.utf8ByteSize
  · rw [if_pos hlong, if_pos hlong]
  · cases hentry : fs.entry? (d ++ [x]) with
    | none => simp only [if_neg hlong, hentry]
    | some e => simp only [if_neg hlong, hentry]

/-- The last name of a way is its last step. -/
theorem placeSteps_snoc (way : List String) (x : String) :
    placeSteps (way ++ [x]) = placeSteps way ++ [.name x] := by
  simp [placeSteps]

/-- Creating one directory in the directory that a way leads to. -/
theorem createDirectory_of_leadsTo (htree : fs.IsTree) (h : fs.LeadsTo way d) (x : String) :
    fs.createDirectory (placeSteps (way ++ [x])) =
      if nameLimit < x.utf8ByteSize then (.error .nameTooLong, fs)
      else
        match fs.entry? (d ++ [x]) with
        | some _ => (.error .alreadyThere, fs)
        | none => (.ok (), fs.put (d ++ [x]) .directory) := by
  obtain ⟨j, hgo⟩ := h.append htree
  have hlast := hgo false [x] (by simp)
  rw [placeSteps_snoc] at hlast ⊢
  exact createDirectory_name hlast

/-- Where a way leads nowhere, no directory is created; if that is because something is missing,
the fault says so. -/
theorem createDirectory_of_not_leadsTo (htree : fs.IsTree) (h : ∀ d, ¬ fs.LeadsTo way d)
    (x : String) :
    ∃ fault, fs.createDirectory (placeSteps (way ++ [x])) = (.error fault, fs) ∧
      ∀ p, fs.FirstMissing way p → fault = .missing := by
  obtain ⟨fault, hfault⟩ := resolve_of_not_leadsTo htree h false (List.cons_ne_nil x [])
  refine ⟨fault, by rw [createDirectory, hfault], fun p hp => ?_⟩
  obtain ⟨front, next, rest, d, rfl, hfront, rfl, hmissing, hshort⟩ := hp
  obtain ⟨j, hgo⟩ := hfront.append htree
  have hend := hgo false (next :: (rest ++ [x])) (by simp)
  rw [List.map_cons, follow_missing hmissing hshort] at hend
  rw [List.append_assoc, List.cons_append, hend] at hfault
  simpa using hfault.symm

/-! ## One directory, unless it is there -/

/-- Creates a directory whose parent is there, unless it is a directory already. -/
def ensureDirectory (fs : FileSystem) (path : List Component) :
    Except FileFault Unit × FileSystem :=
  match fs.createDirectory path with
  | (.ok (), fs) => (.ok (), fs)
  | (.error fault, fs) => if fs.isDirectoryAt path then (.ok (), fs) else (.error fault, fs)

/-- Where no directory can be created, nothing changes, and the answer tells whether one was there
all along. -/
theorem ensureDirectory_eq {fault : FileFault} (h : fs.createDirectory path = (.error fault, fs)) :
    fs.ensureDirectory path =
      (if fs.isDirectoryAt path then .ok () else .error fault, fs) := by
  rw [ensureDirectory, h]
  cases hdir : fs.isDirectoryAt path <;> simp [hdir]

/-- What was said about a failure to create holds when a directory was there all along. -/
theorem ensureDirectory_of_error {fault : FileFault}
    (h : fs.createDirectory (placeSteps way) = (.error fault, fs)) :
    (fs.ensureDirectory (placeSteps way)).2 = fs ∧
      ((fs.ensureDirectory (placeSteps way)).1 = .ok () → ∃ d, fs.LeadsTo way d) := by
  rw [ensureDirectory_eq h]
  refine ⟨rfl, fun hok => (isDirectoryAt_iff fs (placeSteps way)).mp ?_⟩
  by_contra hdir
  simp [hdir] at hok

/-- In the directory that a way leads to, either a missing name becomes a directory, or nothing
changes because the name is not missing. In case of success the longer way leads to a directory. -/
theorem ensureDirectory_of_leadsTo (htree : fs.IsTree) (h : fs.LeadsTo way d) (x : String) :
    (fs.entry? (d ++ [x]) = none ∧ x.utf8ByteSize ≤ nameLimit ∧
        fs.ensureDirectory (placeSteps (way ++ [x])) = (.ok (), fs.put (d ++ [x]) .directory) ∧
        (fs.put (d ++ [x]) .directory).LeadsTo (way ++ [x]) (d ++ [x])) ∨
      ((∀ p, ¬ fs.FirstMissing (way ++ [x]) p) ∧
        (fs.ensureDirectory (placeSteps (way ++ [x]))).2 = fs ∧
        ((fs.ensureDirectory (placeSteps (way ++ [x]))).1 = .ok () →
          ∃ d', fs.LeadsTo (way ++ [x]) d')) := by
  have hcreate := createDirectory_of_leadsTo htree h x
  have hnone (hp : ∀ p, p = d ++ [x] → fs.entry? p = none → x.utf8ByteSize ≤ nameLimit → False) :
      ∀ p, ¬ fs.FirstMissing (way ++ [x]) p := by
    intro p hmissing
    rcases hmissing.snoc_cases with hfront | ⟨d', hd', rfl, hentry, hshort⟩
    · exact hfront.not_leadsTo htree d h
    · exact hp _ (by rw [h.unique hd']) hentry hshort
  -- A name that is too long is not created, and neither is one under which something stands.
  by_cases hlong : nameLimit < x.utf8ByteSize
  · rw [if_pos hlong] at hcreate
    exact .inr ⟨hnone fun _ _ _ hshort => absurd hlong (Nat.not_lt.mpr hshort),
      ensureDirectory_of_error hcreate⟩
  · rw [if_neg hlong] at hcreate
    cases hentry : fs.entry? (d ++ [x]) with
    | some e =>
      rw [hentry] at hcreate
      exact .inr ⟨hnone fun p hp hmissing _ => by simp [hp, hentry] at hmissing,
        ensureDirectory_of_error hcreate⟩
    | none =>
      rw [hentry] at hcreate
      have hshort := Nat.not_lt.mp hlong
      have htree' := htree.putDirectory hentry (by rw [List.dropLast_concat]; exact h.2)
      have hgrow : GrowsBelow (d ++ [x]) fs (fs.put (d ++ [x]) .directory) :=
        growsBelow_put hentry List.prefix_rfl
      refine .inl ⟨rfl, hshort, by rw [ensureDirectory, hcreate], ?_⟩
      refine (h.of_growsBelow hgrow).snoc htree' ?_ hshort
      rw [entry?_put fs (by simp), if_pos rfl]

/-! ## All directories -/

/-- Creating the directories on a path, where creating the last one fails because something before
it is missing. -/
theorem createSteps_concat_of_missing
    (h : fs.createDirectory (path ++ [c]) = (.error .missing, fs)) :
    createSteps (path ++ [c]) fs =
      match (createSteps path fs : Except FileFault Unit × FileSystem) with
      | (.error fault, fs) => (.error fault, fs)
      | (.ok (), fs) => fs.ensureDirectory (path ++ [c]) := by
  have hreverse : (c :: path.reverse).reverse = path ++ [c] := by simp
  rw [createSteps, createSteps, List.reverse_concat, createReversed, hreverse, h]
  rcases fs.createReversed path.reverse with ⟨fault | _, fs₁⟩ <;> rfl

/-- Creating the directories on a path, where creating the last one does not fail because something
before it is missing. -/
theorem createSteps_concat_of_not_missing
    (h : (fs.createDirectory (path ++ [c])).1 ≠ .error .missing) :
    createSteps (path ++ [c]) fs = fs.ensureDirectory (path ++ [c]) := by
  have hreverse : (c :: path.reverse).reverse = path ++ [c] := by simp
  rw [createSteps, List.reverse_concat, createReversed, hreverse, ensureDirectory]
  rcases hcreate : fs.createDirectory (path ++ [c]) with ⟨fault | _, fs₁⟩
  · obtain rfl := createDirectory_error hcreate
    cases fault with
    | missing => simp [hcreate] at h
    | _ => rfl
  · rfl

/-- Creating the directories on a way whose last one cannot be created yet. -/
theorem createSteps_of_missing
    (h : fs.createDirectory (placeSteps (way ++ [x])) = (.error .missing, fs)) :
    createSteps (placeSteps (way ++ [x])) fs =
      match (createSteps (placeSteps way) fs : Except FileFault Unit × FileSystem) with
      | (.error fault, fs) => (.error fault, fs)
      | (.ok (), fs) => fs.ensureDirectory (placeSteps (way ++ [x])) := by
  rw [placeSteps_snoc] at h ⊢
  exact createSteps_concat_of_missing h

/-- Creating the directories on a way of which at most the last one is missing. -/
theorem createSteps_of_not_missing
    (h : (fs.createDirectory (placeSteps (way ++ [x]))).1 ≠ .error .missing) :
    createSteps (placeSteps (way ++ [x])) fs = fs.ensureDirectory (placeSteps (way ++ [x])) := by
  rw [placeSteps_snoc] at h ⊢
  exact createSteps_concat_of_not_missing h

/-- The directories on a way that ends at the root are all there. -/
theorem createSteps_nil (fs : FileSystem) :
    (createSteps (placeSteps []) fs : Except FileFault Unit × FileSystem) = (.ok (), fs) := by
  have hroot : fs.resolveSteps false (placeSteps []) = .ok [] := by
    obtain ⟨onLink, hwalk⟩ := follow_eq_walk fs false linkLimit
    rw [resolveSteps_placeSteps, hwalk, List.map_nil, walk]
  have hcreate : fs.createDirectory (placeSteps []) = (.error .alreadyThere, fs) := by
    rw [createDirectory, hroot]
    rfl
  have hdir : fs.isDirectoryAt (placeSteps []) = true :=
    (isDirectoryAt_iff fs (placeSteps [])).mpr ⟨[], leadsTo_nil fs⟩
  have hpath : [Component.root].reverse = placeSteps [] := rfl
  rw [createSteps, show (placeSteps []).reverse = [Component.root] from rfl, createReversed, hpath,
    hcreate]
  simp [hdir]

/-- What creating the directories on a way comes to: growth from the first missing place on, or
nothing if there is none. -/
structure Creation (fs : FileSystem) (way : List String)
    (out : Except FileFault Unit × FileSystem) : Prop where
  unchanged : (∀ p, ¬ fs.FirstMissing way p) → out.2 = fs
  grows : ∀ p, fs.FirstMissing way p →
    GrowsBelow p fs out.2 ∧ entry? out.2 p = some .directory ∧ out.2.IsTree
  leadsTo : out.1 = .ok () → ∃ d, out.2.LeadsTo way d

/-- The last directory of a way whose front leads to a directory. -/
theorem creation_of_leadsTo (htree : fs.IsTree) (h : fs.LeadsTo way d) (x : String) :
    Creation fs (way ++ [x]) (fs.ensureDirectory (placeSteps (way ++ [x]))) := by
  rcases ensureDirectory_of_leadsTo htree h x with
    ⟨hentry, hshort, hout, hlast⟩ | ⟨hnone, hsame, hlast⟩
  · rw [hout]
    have hfirst : fs.FirstMissing (way ++ [x]) (d ++ [x]) :=
      ⟨way, x, [], d, rfl, h, rfl, hentry, hshort⟩
    refine ⟨fun hno => absurd hfirst (hno _), fun p hp => ?_, fun _ => ⟨_, hlast⟩⟩
    obtain rfl := hp.unique htree hfirst
    exact ⟨growsBelow_put hentry List.prefix_rfl, hlast.2,
      htree.putDirectory hentry (by rw [List.dropLast_concat]; exact h.2)⟩
  · refine ⟨fun _ => hsame, fun p hp => absurd hp (hnone p), fun hok => ?_⟩
    rw [hsame]
    exact hlast hok

/-- One more directory, after those on the way to it grew from a missing place on. -/
theorem creation_after_growth (htree : fs.IsTree) (hp : fs.FirstMissing way p)
    (hgrow : GrowsBelow p fs fs') (hdir : fs'.entry? p = some .directory) (htree' : fs'.IsTree)
    (hd : fs'.LeadsTo way d) (x : String) :
    Creation fs (way ++ [x]) (fs'.ensureDirectory (placeSteps (way ++ [x]))) := by
  have hin : p <+: d ++ [x] :=
    (hp.prefix_of_leadsTo htree htree' hgrow hdir hd).trans (List.prefix_append d [x])
  refine ⟨fun hno => absurd (hp.snoc x) (hno p), fun q hq => ?_, fun hok => ?_⟩
  · obtain rfl := hq.unique htree (hp.snoc x)
    rcases ensureDirectory_of_leadsTo htree' hd x with ⟨hentry, -, hout, -⟩ | ⟨-, hsame, -⟩
    · rw [hout]
      have hmore := growsBelow_put hentry hin
      exact ⟨hgrow.trans hmore, hmore.keeps hdir,
        htree'.putDirectory hentry (by rw [List.dropLast_concat]; exact hd.2)⟩
    · rw [hsame]
      exact ⟨hgrow, hdir, htree'⟩
  · rcases ensureDirectory_of_leadsTo htree' hd x with ⟨-, -, hout, hlast⟩ | ⟨-, hsame, hlast⟩
    · exact ⟨_, by rw [hout]; exact hlast⟩
    · rw [hsame]
      exact hlast hok

/-- The last directory of a way whose front leads nowhere: the front is created first if something
is missing on it, and otherwise nothing happens. -/
theorem creation_of_not_leadsTo (htree : fs.IsTree) (h : ∀ d, ¬ fs.LeadsTo way d)
    (ih : Creation fs way (createSteps (placeSteps way) fs)) (x : String) :
    Creation fs (way ++ [x]) (createSteps (placeSteps (way ++ [x])) fs) := by
  obtain ⟨fault, hcreate, hfault⟩ := createDirectory_of_not_leadsTo htree h x
  have hfront {p : Place} (hp : fs.FirstMissing (way ++ [x]) p) : fs.FirstMissing way p := by
    rcases hp.snoc_cases with hp | ⟨d, hd, -⟩
    · exact hp
    · exact absurd hd (h d)
  by_cases hmissing : fault = .missing
  · subst hmissing
    rw [createSteps_of_missing hcreate]
    rcases hout : (createSteps (placeSteps way) fs : Except FileFault Unit × FileSystem) with
      ⟨fault | _, fs'⟩
    · rw [hout] at ih
      exact ⟨fun hno => ih.unchanged fun p hp => hno p (hp.snoc x),
        fun p hp => ih.grows p (hfront hp), fun hok => by simp at hok⟩
    · rw [hout] at ih
      obtain ⟨d, hd⟩ := ih.leadsTo rfl
      by_cases hsome : ∃ p, fs.FirstMissing way p
      · obtain ⟨p, hp⟩ := hsome
        obtain ⟨hgrow, hdir, htree'⟩ := ih.grows p hp
        exact creation_after_growth htree hp hgrow hdir htree' hd x
      · have hsame : fs' = fs := ih.unchanged fun p hp => hsome ⟨p, hp⟩
        exact absurd (hsame ▸ hd) (h d)
  · have hno (p : Place) : ¬ fs.FirstMissing (way ++ [x]) p := fun hp =>
      hmissing (hfault p (hfront hp))
    rw [createSteps_of_not_missing (by simpa [hcreate] using hmissing)]
    obtain ⟨hsame, hlast⟩ := ensureDirectory_of_error hcreate
    refine ⟨fun _ => hsame, fun p hp => absurd hp (hno p), fun hok => ?_⟩
    rw [hsame]
    exact hlast hok

/-- Creating the directories on a way in a tree. The induction takes names off the end of the way,
as the creation does. -/
theorem createSteps_spec (htree : fs.IsTree) (way : List String) :
    Creation fs way (createSteps (placeSteps way) fs) := by
  induction way using List.reverseRecOn with
  | nil =>
    rw [createSteps_nil]
    refine ⟨fun _ => rfl, fun p hp => ?_, fun _ => ⟨[], leadsTo_nil fs⟩⟩
    exact absurd (leadsTo_nil fs) (hp.not_leadsTo htree [])
  | append_singleton way x ih =>
    by_cases hlead : ∃ d, fs.LeadsTo way d
    · obtain ⟨d, hd⟩ := hlead
      have hnot : (fs.createDirectory (placeSteps (way ++ [x]))).1 ≠ .error .missing := by
        rw [createDirectory_of_leadsTo htree hd x]
        split
        · simp
        · cases fs.entry? (d ++ [x]) <;> simp
      rw [createSteps_of_not_missing hnot]
      exact creation_of_leadsTo htree hd x
    · exact creation_of_not_leadsTo htree (fun d hd => hlead ⟨d, hd⟩) ih x

/-! ## What else is known of a creation -/

/-- A creation keeps the tree. -/
theorem Creation.tree {out : Except FileFault Unit × FileSystem} (htree : fs.IsTree)
    (h : Creation fs way out) : out.2.IsTree := by
  by_cases hsome : ∃ p, fs.FirstMissing way p
  · obtain ⟨p, hp⟩ := hsome
    exact (h.grows p hp).2.2
  · rw [h.unchanged fun p hp => hsome ⟨p, hp⟩]
    exact htree

/-- A creation changes what stands at a name in a directory only if that is the first missing place
on the way. -/
theorem Creation.child {out : Except FileFault Unit × FileSystem} (htree : fs.IsTree)
    (h : Creation fs way out) (hd : fs.entry? d = some .directory) (x : String) :
    (fs.FirstMissing way (d ++ [x]) ∧ entry? out.2 (d ++ [x]) = some .directory) ∨
      (¬ fs.FirstMissing way (d ++ [x]) ∧ entry? out.2 (d ++ [x]) = fs.entry? (d ++ [x])) := by
  by_cases hsome : ∃ p, fs.FirstMissing way p
  · obtain ⟨p, hp⟩ := hsome
    obtain ⟨hgrow, hdir, -⟩ := h.grows p hp
    by_cases hpx : p = d ++ [x]
    · subst hpx
      exact .inl ⟨hp, hdir⟩
    · refine .inr ⟨fun hx => hpx (hp.unique htree hx), ?_⟩
      rcases hgrow (d ++ [x]) with hsame | ⟨hin, -, -⟩
      · exact hsame
      · obtain ⟨front, next, rest, d', -, -, -, hmissing, -⟩ := hp
        have habove := (List.prefix_concat_iff.mp hin).resolve_left hpx
        rw [htree.missing_below hmissing habove] at hd
        simp at hd
  · rw [h.unchanged fun p hp => hsome ⟨p, hp⟩]
    exact .inr ⟨fun hx => hsome ⟨_, hx⟩, rfl⟩

end Repertoire.FileSystem
