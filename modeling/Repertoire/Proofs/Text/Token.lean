import Mathlib.Tactic.SplitIfs
import Repertoire.Proofs.Text.Draft

/-!
# Tokens

A token is read without a look at what is behind it: the reader stops at the first character that
cannot belong to the token as it would stop at the end of the text. Readers of tokens are put
together from readers of their parts.
-/

namespace Repertoire.Text

variable {α : Type}

/-- A reader of tokens: what it leaves is the end of what it was given, and at the characters that
end a token it stops as it does at the end of the text. -/
structure IsToken (ends : Char → Prop) (read : List Char → Option (α × List Char)) : Prop where
  leaves : ∀ {cs x rest}, read cs = some (x, rest) → rest <:+ cs
  stopsAt : ∀ {k}, ends k → ∀ cs t,
    read (cs ++ k :: t) = (read cs).map fun out => (out.1, out.2 ++ k :: t)

/-- What is taken from the front ends at a character that is not taken. -/
theorem takeWhile_append_cons {p : Char → Bool} {k : Char} (hk : p k = false) (cs t : List Char) :
    (cs ++ k :: t).takeWhile p = cs.takeWhile p := by
  induction cs with
  | nil => simp [hk]
  | cons c cs ih => by_cases hc : p c <;> simp [hc, ih]

/-- What is dropped from the front ends at a character that is not dropped. -/
theorem dropWhile_append_cons {p : Char → Bool} {k : Char} (hk : p k = false) (cs t : List Char) :
    (cs ++ k :: t).dropWhile p = cs.dropWhile p ++ k :: t := by
  induction cs with
  | nil => simp [hk]
  | cons c cs ih =>
    by_cases hc : p c
    · rw [List.cons_append, List.dropWhile_cons_of_pos hc, List.dropWhile_cons_of_pos hc, ih]
    · rw [List.cons_append, List.dropWhile_cons_of_neg hc, List.dropWhile_cons_of_neg hc,
        List.cons_append]

/-- Where characters are dropped from the front, the first that is kept stands before any character
that could not be the first. -/
theorem exists_kept_before {p : Char → Bool} {P : Char → Prop} {k : Char} (hp : p k = false)
    (hk : ¬ P k) {front t : List Char}
    (h : ∀ c z, (front ++ k :: t).dropWhile p = c :: z → P c) :
    ∃ before c after, front = before ++ c :: after ∧ P c := by
  rw [dropWhile_append_cons hp] at h
  cases hfront : front.dropWhile p with
  | nil =>
    rw [hfront] at h
    exact absurd (h k t rfl) hk
  | cons c after =>
    rw [hfront] at h
    refine ⟨front.takeWhile p, c, after, ?_, h c _ rfl⟩
    rw [← hfront]
    exact List.takeWhile_append_dropWhile.symm

namespace IsToken

variable {β : Type} {ends : Char → Prop} {read read' : List Char → Option (α × List Char)}

/-- Making something of tokens gives tokens. -/
theorem map (h : IsToken ends read) (f : α → β) :
    IsToken ends fun cs => (read cs).map fun out => (f out.1, out.2) where
  leaves := by
    intro cs y rest hmap
    obtain ⟨x, hread, -⟩ := exists_of_map_eq_some hmap
    exact h.leaves hread
  stopsAt := by
    intro k hk cs t
    rw [h.stopsAt hk, Option.map_map, Option.map_map]
    rfl

/-- Tokens that pass a test are tokens. -/
theorem filter (h : IsToken ends read) (p : α → Bool) :
    IsToken ends fun cs => (read cs).filter fun out => p out.1 where
  leaves := by
    intro cs x rest hfilter
    exact h.leaves (Option.filter_eq_some_iff.mp hfilter).1
  stopsAt := by
    intro k hk cs t
    rw [h.stopsAt hk]
    cases read cs with
    | none => rfl
    | some out => by_cases hp : p out.1 <;> simp [Option.filter, hp]

/-- Tokens after tokens are tokens. -/
theorem bind (h : IsToken ends read) {next : α → List Char → Option (β × List Char)}
    (hnext : ∀ x, IsToken ends (next x)) :
    IsToken ends fun cs => (read cs).bind fun out => next out.1 out.2 where
  leaves := by
    intro cs y rest hbind
    obtain ⟨⟨x, rest'⟩, hread, hout⟩ := Option.bind_eq_some_iff.mp hbind
    exact ((hnext x).leaves hout).trans (h.leaves hread)
  stopsAt := by
    intro k hk cs t
    rw [h.stopsAt hk]
    cases read cs with
    | none => rfl
    | some out => exact (hnext out.1).stopsAt hk out.2 t

/-- A reader that reads nothing reads tokens. -/
theorem fail : IsToken ends fun _ => (none : Option (α × List Char)) where
  leaves := fun h => absurd h.symm (Option.some_ne_none _)
  stopsAt := fun _ _ _ => rfl

/-- A reader that takes nothing reads tokens. -/
theorem pure (x : α) : IsToken ends fun cs => some (x, cs) where
  leaves := by
    intro cs y rest h
    obtain ⟨-, rfl⟩ := Prod.mk.inj (Option.some.inj h)
    exact List.suffix_rfl
  stopsAt := fun _ _ _ => rfl

/-- A value that is checked when it is there. -/
theorem guard (p : Prop) [Decidable p] (x : α) :
    IsToken ends fun cs => if p then some (x, cs) else none := by
  split_ifs
  · exact .pure x
  · exact .fail

/-- A text without the stop in front of a stop starts as it does alone. -/
theorem exists_append_of_not_mem {k : Char} {lead more cs t : List Char} (hk : k ∉ lead)
    (h : cs ++ k :: t = lead ++ more) : ∃ more', cs = lead ++ more' := by
  rcases List.append_eq_append_iff.mp h with ⟨z, hlead, hz⟩ | ⟨z, hcs, -⟩
  · cases z with
    | nil => exact ⟨[], by simpa using hlead.symm⟩
    | cons c z =>
      obtain ⟨rfl, -⟩ := List.cons.inj hz
      exact absurd (hlead ▸ List.mem_append_right _ List.mem_cons_self) hk
  · exact ⟨z, hcs⟩

/-- A reader that goes another way for each of some words in front. -/
theorem branch (branches : List (List Char × (List Char → Option (α × List Char))))
    {other : List Char → Option (α × List Char)}
    (hwords : ∀ {k}, ends k → ∀ b ∈ branches, k ∉ b.1)
    (hread : ∀ b ∈ branches, ∀ cs, read (b.1 ++ cs) = b.2 cs)
    (hother : ∀ cs, (∀ b ∈ branches, ∀ rest, cs ≠ b.1 ++ rest) → read cs = other cs)
    (h : ∀ b ∈ branches, IsToken ends b.2) (h' : IsToken ends other) : IsToken ends read where
  leaves := by
    intro cs x rest hcs
    by_cases hfront : ∃ b ∈ branches, ∃ more, cs = b.1 ++ more
    · obtain ⟨b, hb, more, rfl⟩ := hfront
      rw [hread b hb] at hcs
      exact ((h b hb).leaves hcs).trans (List.suffix_append _ _)
    · rw [hother cs fun b hb rest hrest => hfront ⟨b, hb, rest, hrest⟩] at hcs
      exact h'.leaves hcs
  stopsAt := by
    intro k hk cs t
    by_cases hfront : ∃ b ∈ branches, ∃ more, cs = b.1 ++ more
    · obtain ⟨b, hb, more, rfl⟩ := hfront
      rw [List.append_assoc, hread b hb, hread b hb, (h b hb).stopsAt hk]
    · rw [hother cs fun b hb rest hrest => hfront ⟨b, hb, rest, hrest⟩,
        hother (cs ++ k :: t) fun b hb rest hrest => hfront ⟨b, hb,
          exists_append_of_not_mem (hwords hk b hb) hrest⟩, h'.stopsAt hk]

/-- A reader that does not see what is behind the end of its token does not see what is in a gap
there. -/
theorem reads (h : IsToken ends read) (fits : List Char → Prop) {k : Char} {d : Draft}
    {word rest : List Char} {x : α} (hk : ends k)
    (hread : read (d.fill (k :: word)) = some (x, rest))
    (hstop : ∀ front t, rest = front ++ k :: t →
      ∃ before c after, front = before ++ c :: after ∧ ends c) :
    ∃ d', Reads fits read d (fun _ => x) 0 d' := by
  cases d with
  | whole text => exact ⟨.whole rest, .past _ _, le_rfl, fun _ _ => hread⟩
  | gapped front back =>
    rw [Draft.fill_gapped, List.append_assoc, List.cons_append, h.stopsAt hk] at hread
    obtain ⟨⟨x', rest'⟩, hfront, hout⟩ := Option.map_eq_some_iff.mp hread
    obtain ⟨rfl, hrest⟩ := Prod.mk.inj hout
    obtain ⟨before, c, after, rfl, hc⟩ := hstop rest' _ hrest.symm
    obtain ⟨taken, rfl⟩ := h.leaves hfront
    refine ⟨.gapped (before ++ c :: after) back, .ahead _ _ _, by simp, fun w _ => ?_⟩
    rw [← List.append_assoc, h.stopsAt hc] at hfront
    obtain ⟨⟨x'', rest''⟩, hbefore, hout⟩ := Option.map_eq_some_iff.mp hfront
    obtain ⟨rfl, hrest''⟩ := Prod.mk.inj hout
    have hbefore_eq : rest'' = before := List.append_cancel_right hrest''
    have hfill : (Draft.gapped (taken ++ (before ++ c :: after)) back).fill w =
        (taken ++ before) ++ c :: (after ++ w ++ back) := by
      simp
    rw [hfill, h.stopsAt hc, hbefore, Option.map_some, hbefore_eq]
    simp

end IsToken

/-- A reader of tokens that are never empty. -/
structure IsSolid (ends : Char → Prop) (read : List Char → Option (α × List Char)) : Prop
    extends IsToken ends read where
  length_lt : ∀ {cs x rest}, read cs = some (x, rest) → rest.length < cs.length

namespace IsSolid

variable {β : Type} {ends : Char → Prop} {read : List Char → Option (α × List Char)}
  {next : α → List Char → Option (β × List Char)}

/-- A reader that reads nothing reads tokens that are not empty. -/
theorem fail : IsSolid ends fun _ => (none : Option (α × List Char)) where
  toIsToken := .fail
  length_lt := fun h => absurd h.symm (Option.some_ne_none _)

/-- Making something of tokens that are not empty gives such tokens. -/
theorem map (h : IsSolid ends read) (f : α → β) :
    IsSolid ends fun cs => (read cs).map fun out => (f out.1, out.2) where
  toIsToken := h.toIsToken.map f
  length_lt := by
    intro cs y rest hmap
    obtain ⟨x, hread, -⟩ := exists_of_map_eq_some hmap
    exact h.length_lt hread

/-- Tokens that are not empty and pass a test are such tokens. -/
theorem filter (h : IsSolid ends read) (p : α → Bool) :
    IsSolid ends fun cs => (read cs).filter fun out => p out.1 where
  toIsToken := h.toIsToken.filter p
  length_lt := fun hfilter => h.length_lt (Option.filter_eq_some_iff.mp hfilter).1

/-- What goes on behind a token that is not empty. -/
theorem bind (h : IsSolid ends read) (hnext : ∀ x, IsToken ends (next x)) :
    IsSolid ends fun cs => (read cs).bind fun out => next out.1 out.2 where
  toIsToken := h.toIsToken.bind hnext
  length_lt := by
    intro cs y rest hbind
    obtain ⟨⟨x, rest'⟩, hread, hout⟩ := Option.bind_eq_some_iff.mp hbind
    exact ((hnext x).leaves hout).length_le.trans_lt (h.length_lt hread)

/-- What goes on with a token that is not empty. -/
theorem after (h : IsToken ends read) (hnext : ∀ x, IsSolid ends (next x)) :
    IsSolid ends fun cs => (read cs).bind fun out => next out.1 out.2 where
  toIsToken := h.bind fun x => (hnext x).toIsToken
  length_lt := by
    intro cs y rest hbind
    obtain ⟨⟨x, rest'⟩, hread, hout⟩ := Option.bind_eq_some_iff.mp hbind
    exact ((hnext x).length_lt hout).trans_le (h.leaves hread).length_le

/-- A reader that goes another way for each of some words in front, and takes something without
them. -/
theorem branch (branches : List (List Char × (List Char → Option (α × List Char))))
    {other : List Char → Option (α × List Char)}
    (hwords : ∀ {k}, ends k → ∀ b ∈ branches, k ∉ b.1) (hne : ∀ b ∈ branches, b.1 ≠ [])
    (hread : ∀ b ∈ branches, ∀ cs, read (b.1 ++ cs) = b.2 cs)
    (hother : ∀ cs, (∀ b ∈ branches, ∀ rest, cs ≠ b.1 ++ rest) → read cs = other cs)
    (h : ∀ b ∈ branches, IsToken ends b.2) (h' : IsSolid ends other) : IsSolid ends read where
  toIsToken := .branch branches hwords hread hother h h'.toIsToken
  length_lt := by
    intro cs x rest hcs
    by_cases hfront : ∃ b ∈ branches, ∃ more, cs = b.1 ++ more
    · obtain ⟨b, hb, more, rfl⟩ := hfront
      rw [hread b hb] at hcs
      have hle := ((h b hb).leaves hcs).length_le
      have hpos := List.length_pos_iff.mpr (hne b hb)
      rw [List.length_append]
      omega
    · rw [hother cs fun b hb rest hrest => hfront ⟨b, hb, rest, hrest⟩] at hcs
      exact h'.length_lt hcs

end IsSolid

end Repertoire.Text
