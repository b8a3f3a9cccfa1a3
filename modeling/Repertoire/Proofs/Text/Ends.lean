import Mathlib.Data.List.Basic
import Mathlib.Data.List.TakeWhile
import Mathlib.Data.Nat.Notation
import Repertoire.Text.Blank
import Repertoire.Text.Cut

/-!
# What is taken off the ends of a text

Blanks, other marks, and copies of a word are taken off an end of a text as long as there are any.
What is left is the one part of the text that has only such things beside it and no more of them at
its own end.
-/

namespace Repertoire.Text

variable {α : Type} {p : α → Bool} {xs kept : List α} {cs lead tail rest core : List Char}

/-- Copies of a word, one behind the other. -/
def copies (n : ℕ) (word : List Char) : List Char := (List.replicate n word).flatten

/-- No blank stands at either end. -/
structure Unpadded (cs : List Char) : Prop where
  head : ∀ c ∈ cs.head?, isBlank c = false
  last : ∀ c ∈ cs.getLast?, isBlank c = false

/-- A text starts with a lead exactly when that can be taken off. -/
theorem after?_eq_some_iff : after? lead cs = some rest ↔ cs = lead ++ rest := by
  rw [after?]
  constructor
  · intro h
    split at h
    · rename_i hlead
      obtain ⟨more, rfl⟩ := List.isPrefixOf_iff_prefix.mp hlead
      rw [List.drop_left] at h
      rw [Option.some.inj h]
    · exact absurd h.symm (Option.some_ne_none _)
  · rintro rfl
    rw [if_pos (List.isPrefixOf_iff_prefix.mpr (List.prefix_append lead rest)), List.drop_left]

/-- A text ends with a tail exactly when that can be taken off. -/
theorem before?_eq_some_iff : before? tail cs = some rest ↔ cs = rest ++ tail := by
  rw [before?, Option.map_eq_some_iff]
  constructor
  · rintro ⟨back, hback, rfl⟩
    rw [← List.reverse_reverse cs, after?_eq_some_iff.mp hback, List.reverse_append,
      List.reverse_reverse]
  · rintro rfl
    exact ⟨rest.reverse, after?_eq_some_iff.mpr List.reverse_append, List.reverse_reverse rest⟩

/-! ## Runs of marks -/

/-- What is left behind the marks at the front does not start with one. -/
theorem dropWhile_eq_iff :
    xs.dropWhile p = kept ↔
      ∃ front, xs = front ++ kept ∧ (∀ x ∈ front, p x = true) ∧ ∀ x ∈ kept.head?, p x = false := by
  constructor
  · rintro rfl
    refine ⟨xs.takeWhile p, List.takeWhile_append_dropWhile.symm,
      fun x hx => List.mem_takeWhile_imp hx, fun x hx => ?_⟩
    have hhead := List.head?_dropWhile_not p xs
    rw [Option.mem_def.mp hx] at hhead
    simpa using hhead
  · rintro ⟨front, rfl, hfront, hhead⟩
    rw [List.dropWhile_append_of_pos hfront]
    cases kept with
    | nil => rfl
    | cons x kept => rw [List.dropWhile_cons_of_neg (by simp [hhead x rfl])]

/-- What is left before the marks at the end does not end in one. -/
theorem dropTail_eq_iff :
    dropTail p xs = kept ↔
      ∃ back, xs = kept ++ back ∧ (∀ x ∈ back, p x = true) ∧ ∀ x ∈ kept.getLast?, p x = false := by
  rw [dropTail, List.reverse_eq_iff, dropWhile_eq_iff, List.head?_reverse]
  constructor
  · rintro ⟨front, hsplit, hfront, hlast⟩
    refine ⟨front.reverse, ?_, fun x hx => hfront x (List.mem_reverse.mp hx), hlast⟩
    rw [← List.reverse_reverse xs, hsplit, List.reverse_append, List.reverse_reverse]
  · rintro ⟨back, rfl, hback, hlast⟩
    exact ⟨back.reverse, List.reverse_append, fun x hx => hback x (List.mem_reverse.mp hx), hlast⟩

/-- What is left before the marks of one kind at the end does not end in that mark. -/
theorem dropTail_beq_iff [BEq α] [LawfulBEq α] {x : α} :
    dropTail (· == x) xs = kept ↔
      (∃ n, xs = kept ++ List.replicate n x) ∧ kept.getLast? ≠ some x := by
  rw [dropTail_eq_iff]
  constructor
  · rintro ⟨back, rfl, hback, hlast⟩
    refine ⟨⟨back.length, ?_⟩, fun hx => by simpa using hlast x hx⟩
    rw [← List.eq_replicate_of_mem fun y hy => by simpa using hback y hy]
  · rintro ⟨⟨n, rfl⟩, hlast⟩
    refine ⟨List.replicate n x, rfl, fun y hy => by simp [List.eq_of_mem_replicate hy], ?_⟩
    intro y hy
    rw [beq_eq_false_iff_ne]
    rintro rfl
    exact hlast hy

/-- A text without blanks has none at its ends. -/
theorem Unpadded.of_all (h : cs.all (fun c => !isBlank c) = true) : Unpadded cs := by
  simp only [List.all_eq_true, Bool.not_eq_true'] at h
  exact ⟨fun c hc => h c (List.mem_of_mem_head? hc), fun c hc => h c (List.mem_of_getLast? hc)⟩

/-- No blank stands at the ends of two such texts together. -/
theorem Unpadded.append {cs ds : List Char} (hcs : Unpadded cs) (hds : Unpadded ds) :
    Unpadded (cs ++ ds) where
  head := by
    intro c hc
    rw [List.head?_append] at hc
    cases hfirst : cs.head? with
    | none => exact hds.head c (by simpa [hfirst] using hc)
    | some d => exact hcs.head c (by simpa [hfirst] using hc)
  last := by
    intro c hc
    rw [List.getLast?_append] at hc
    cases hlast : ds.getLast? with
    | none => exact hcs.last c (by simpa [hlast] using hc)
    | some d => exact hds.last c (by simpa [hlast] using hc)

/-- No blank stands at the ends of copies of such a text. -/
theorem Unpadded.flatten {n : ℕ} (h : Unpadded cs) : Unpadded (List.replicate n cs).flatten := by
  induction n with
  | zero => exact ⟨by simp, by simp⟩
  | succ n ih =>
    rw [List.replicate_succ, List.flatten_cons]
    exact h.append ih

/-- What is left between the blanks at both ends has none at its own ends. -/
theorem trimChars_eq_iff :
    trimChars cs = core ↔
      ∃ front back, cs = front ++ core ++ back ∧ (∀ c ∈ front, isBlank c = true) ∧
        (∀ c ∈ back, isBlank c = true) ∧ Unpadded core := by
  rw [trimChars, trimFront, dropTail_eq_iff]
  constructor
  · rintro ⟨back, hback, hblank, hlast⟩
    obtain ⟨front, hfront, hblanks, hhead⟩ := dropWhile_eq_iff.mp hback
    refine ⟨front, back, by rw [hfront, List.append_assoc], hblanks, hblank, ?_, hlast⟩
    intro c hc
    exact hhead c (by simp [Option.mem_def.mp hc])
  · rintro ⟨front, back, rfl, hblanks, hblank, hends⟩
    cases core with
    | nil =>
      refine ⟨[], dropWhile_eq_iff.mpr ⟨front ++ back, by simp, ?_, by simp⟩, by simp, hends.last⟩
      intro c hc
      exact (List.mem_append.mp hc).elim (hblanks c) (hblank c)
    | cons d core =>
      refine ⟨back, dropWhile_eq_iff.mpr ⟨front, by simp, hblanks, ?_⟩, hblank, hends.last⟩
      exact fun c hc => hends.head c hc

/-! ## Copies of a word -/

/-- A tail without a mark does not reach over one. -/
theorem suffix_of_append_cons {front back : List Char} {mark : Char} (hmark : mark ∉ tail)
    (h : tail <:+ front ++ mark :: back) : tail <:+ back := by
  obtain ⟨rest, hrest⟩ := h
  rw [List.append_cons] at hrest
  rcases List.append_eq_append_iff.mp hrest with ⟨past, hpast, htail⟩ | ⟨more, -, hback⟩
  · rcases List.eq_nil_or_concat' past with rfl | ⟨more, last, rfl⟩
    · exact htail ▸ List.suffix_rfl
    · rw [← List.append_assoc] at hpast
      obtain rfl : mark = last := by simpa using (List.append_inj' hpast rfl).2
      exact absurd (htail ▸ by simp) hmark
  · exact ⟨more, hback.symm⟩

/-- One more copy stands at the end. -/
theorem copies_succ (n : ℕ) (word : List Char) : copies (n + 1) word = copies n word ++ word := by
  rw [copies, List.replicate_succ', List.flatten_append, List.flatten_singleton, copies]

/-- Only one part of a text has nothing but copies behind it and none at its end. -/
theorem eq_of_append_copies {m n : ℕ} {other : List Char} (hcore : ¬ tail <:+ core)
    (hother : ¬ tail <:+ other) (h : core ++ copies m tail = other ++ copies n tail) :
    core = other := by
  induction m generalizing n with
  | zero =>
    cases n with
    | zero => simpa [copies] using h
    | succ n =>
      refine absurd ?_ hcore
      rw [copies_succ, ← List.append_assoc] at h
      exact ⟨other ++ copies n tail, by simpa [copies] using h.symm⟩
  | succ m ih =>
    cases n with
    | zero =>
      refine absurd ?_ hother
      rw [copies_succ, ← List.append_assoc] at h
      exact ⟨core ++ copies m tail, by simpa [copies] using h⟩
    | succ n =>
      rw [copies_succ, copies_succ, ← List.append_assoc, ← List.append_assoc] at h
      exact ih (List.append_cancel_right h)

/-- As many steps as there are characters take off all copies. -/
theorem dropCopies_spec (htail : tail ≠ []) {fuel : ℕ} (hfuel : cs.length ≤ fuel) :
    (∃ n, cs = dropCopies tail fuel cs ++ copies n tail) ∧ ¬ tail <:+ dropCopies tail fuel cs := by
  induction fuel generalizing cs with
  | zero =>
    obtain rfl := List.eq_nil_of_length_eq_zero (Nat.le_zero.mp hfuel)
    exact ⟨⟨0, rfl⟩, fun h => htail (List.suffix_nil.mp h)⟩
  | succ fuel ih =>
    rw [dropCopies]
    cases hbefore : before? tail cs with
    | none =>
      refine ⟨⟨0, by simp [copies]⟩, ?_⟩
      rintro ⟨rest, rfl⟩
      rw [before?_eq_some_iff.mpr rfl] at hbefore
      exact absurd hbefore (Option.some_ne_none _)
    | some rest =>
      obtain rfl := before?_eq_some_iff.mp hbefore
      have hshorter : rest.length ≤ fuel := by
        have hpos := List.length_pos_iff.mpr htail
        rw [List.length_append] at hfuel
        omega
      obtain ⟨⟨n, hn⟩, hend⟩ := ih hshorter
      simp only [List.isEmpty_iff, htail, if_false]
      exact ⟨⟨n + 1, by rw [copies_succ, ← List.append_assoc, ← hn]⟩, hend⟩

/-- What is left before the copies of a word at the end of a text does not end in one. -/
theorem dropAllCopies_eq_iff (htail : tail ≠ []) :
    dropAllCopies tail cs = core ↔ (∃ n, cs = core ++ copies n tail) ∧ ¬ tail <:+ core := by
  have hspec := dropCopies_spec htail (Nat.le_refl cs.length)
  constructor
  · rintro rfl
    exact hspec
  · rintro ⟨⟨n, hn⟩, hend⟩
    obtain ⟨⟨m, hm⟩, hlast⟩ := hspec
    exact eq_of_append_copies hlast hend (hm.symm.trans hn)

end Repertoire.Text
