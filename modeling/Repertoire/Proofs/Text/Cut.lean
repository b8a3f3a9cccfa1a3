import Repertoire.Text.Cut

/-!
# Cuts and joins

A cut stands at the first occurrence of its mark and leaves out the mark and nothing else. Texts are
joined as the library joins them.
-/

namespace Repertoire.Text

/-- A cut at a mark leaves out the mark and nothing else. -/
theorem eq_of_cutAt? {mark cs before after : List Char}
    (h : cutAt? mark cs = some (before, after)) : cs = before ++ mark ++ after := by
  induction cs generalizing before with
  | nil =>
    cases mark with
    | nil =>
      obtain ⟨rfl, rfl⟩ := Prod.mk.inj (Option.some.inj h)
      rfl
    | cons m mark => exact absurd h (by simp [cutAt?])
  | cons c cs ih =>
    rw [cutAt?] at h
    split at h
    · rename_i hmark
      obtain ⟨rfl, rfl⟩ := Prod.mk.inj (Option.some.inj h)
      obtain ⟨rest, hrest⟩ := List.isPrefixOf_iff_prefix.mp hmark
      rw [← hrest, List.drop_left, List.nil_append]
    · obtain ⟨⟨front, back⟩, hcut, hout⟩ := Option.map_eq_some_iff.mp h
      obtain ⟨rfl, rfl⟩ := Prod.mk.inj hout
      rw [ih hcut]
      rfl

/-- A text cannot be cut at a mark exactly when it does not hold the mark. -/
theorem cutAt?_eq_none_iff {mark cs : List Char} : cutAt? mark cs = none ↔ ¬ mark <:+: cs := by
  induction cs with
  | nil => simp [cutAt?]
  | cons c cs ih =>
    rw [cutAt?, List.infix_cons_iff, ← List.isPrefixOf_iff_prefix]
    by_cases hmark : mark.isPrefixOf (c :: cs) = true
    · simp [hmark]
    · simp [hmark, ih]

/-- Two occurrences of a mark do not overlap if its first character does not come again in it. -/
theorem infix_of_overlap {m : Char} {ms before rest after : List Char} (hm : m ∉ ms)
    (hne : before ≠ []) (h : m :: ms ++ rest = before ++ m :: ms ++ after) :
    m :: ms <:+: before := by
  rw [List.append_assoc] at h
  rcases List.append_eq_append_iff.mp h with ⟨more, hbefore, -⟩ | ⟨tail, hmark, hrest⟩
  · exact ⟨[], more, hbefore.symm⟩
  · cases tail with
    | nil => exact ⟨[], [], by simpa using hmark⟩
    | cons t tail =>
      obtain rfl : m = t := (List.cons.inj hrest).1
      obtain ⟨b, before, rfl⟩ := List.exists_cons_of_ne_nil hne
      have hms : ms = before ++ m :: tail := (List.cons.inj hmark).2
      exact absurd (hms ▸ List.mem_append_right before List.mem_cons_self) hm

/-- A cut stands at the first occurrence of its mark: there is none before it. -/
theorem cutAt?_eq_some_iff {m : Char} {ms cs before after : List Char} (hm : m ∉ ms) :
    cutAt? (m :: ms) cs = some (before, after) ↔
      cs = before ++ m :: ms ++ after ∧ ¬ m :: ms <:+: before := by
  constructor
  · intro h
    refine ⟨eq_of_cutAt? h, ?_⟩
    induction cs generalizing before with
    | nil => simp [cutAt?] at h
    | cons c cs ih =>
      rw [cutAt?] at h
      split at h
      · obtain ⟨rfl, -⟩ := Prod.mk.inj (Option.some.inj h)
        simp
      · rename_i hmark
        obtain ⟨⟨front, back⟩, hcut, hout⟩ := Option.map_eq_some_iff.mp h
        obtain ⟨rfl, rfl⟩ := Prod.mk.inj hout
        rw [List.infix_cons_iff, not_or]
        refine ⟨fun hfront => hmark ?_, ih hcut⟩
        rw [List.isPrefixOf_iff_prefix, eq_of_cutAt? hcut, List.append_assoc, ← List.cons_append]
        exact hfront.trans (List.prefix_append _ _)
  · rintro ⟨rfl, hbefore⟩
    induction before with
    | nil => simp [cutAt?]
    | cons b before ih =>
      -- A mark that starts here and reaches behind the cut overlaps the mark of the cut, but its
      -- first character is not among the others.
      have hmark : ¬ (m :: ms).isPrefixOf (b :: (before ++ m :: ms ++ after)) = true := by
        rw [List.isPrefixOf_iff_prefix]
        rintro ⟨rest, hrest⟩
        exact hbefore (infix_of_overlap hm (List.cons_ne_nil b before) hrest)
      have hcut := ih fun hin => hbefore (List.infix_cons hin)
      rw [List.cons_append, List.cons_append, cutAt?, if_neg hmark, hcut]
      rfl

/-- Behind any occurrence of a mark stands no more than behind one before which there is none. -/
theorem suffix_of_first {m : Char} {ms before rest front back : List Char} (hm : m ∉ ms)
    (hfront : ¬ m :: ms <:+: front) (h : before ++ m :: ms ++ rest = front ++ m :: ms ++ back) :
    rest <:+ back := by
  have hle : front.length ≤ before.length := by
    rw [List.append_assoc, List.append_assoc] at h
    rcases List.append_eq_append_iff.mp h with ⟨more, rfl, hmore⟩ | ⟨more, rfl, -⟩
    · cases more with
      | nil => simp
      | cons c more =>
        rw [← List.append_assoc] at hmore
        have hin := infix_of_overlap hm (List.cons_ne_nil c more) hmore
        exact absurd (hin.trans (List.suffix_append before _).isInfix) hfront
    · simp
  have hrest : rest <:+ before ++ m :: ms ++ rest := List.suffix_append _ _
  have hback : back <:+ before ++ m :: ms ++ rest := h ▸ List.suffix_append _ _
  refine List.suffix_of_suffix_length_le hrest hback ?_
  have hlength := congrArg List.length h
  simp only [List.length_append] at hlength
  omega

/-- More text at the end does not move a cut. -/
theorem cutAt?_append_right {m : Char} {ms cs before after : List Char} (hm : m ∉ ms)
    (h : cutAt? (m :: ms) cs = some (before, after)) (more : List Char) :
    cutAt? (m :: ms) (cs ++ more) = some (before, after ++ more) := by
  obtain ⟨rfl, hbefore⟩ := (cutAt?_eq_some_iff hm).mp h
  exact (cutAt?_eq_some_iff hm).mpr ⟨List.append_assoc .., hbefore⟩

/-- A cut at a character stands at its first occurrence. -/
theorem cutAt?_singleton (c : Char) (cs : List Char) :
    cutAt? [c] cs =
      if c ∈ cs then some (cs.takeWhile (· ≠ c), (cs.dropWhile (· ≠ c)).tail) else none := by
  induction cs with
  | nil => rfl
  | cons d cs ih =>
    rw [cutAt?]
    by_cases hd : d = c
    · subst hd
      simp
    · have hmark : [c].isPrefixOf (d :: cs) = false := by simp [List.isPrefixOf, Ne.symm hd]
      rw [hmark, if_neg Bool.false_ne_true, ih]
      by_cases hc : c ∈ cs <;> simp [hd, Ne.symm hd, hc]

/-- Texts are joined as the library joins them. -/
theorem joinWith_eq_intercalate (sep : String) (texts : List String) :
    joinWith sep texts = sep.intercalate texts := by
  induction texts with
  | nil => rfl
  | cons s rest ih =>
    cases rest with
    | nil => rw [joinWith, String.intercalate_singleton]
    | cons s' rest => rw [joinWith, ih, String.intercalate_cons_cons]

end Repertoire.Text
