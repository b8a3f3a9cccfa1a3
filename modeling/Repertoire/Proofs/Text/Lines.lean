import Repertoire.Text.Blank
import Repertoire.Text.Cut

/-!
# Pieces and lines

The pieces of a text are what stands between the marks in it. Its lines are the pieces between line
feeds, less one carriage return at the end of each. That return makes no difference to a line from
which the blanks at its ends are taken.
-/

namespace Repertoire.Text

/-- The pieces of a text are those that it is split into. -/
theorem pieces_eq_splitOn (sep : Char) (cs : List Char) : pieces sep cs = cs.splitOn sep := by
  induction cs with
  | nil => rfl
  | cons c cs ih =>
    rw [pieces, List.splitOn_cons_eq_if_modifyHead, ih]
    by_cases hc : c = sep
    · simp [hc]
    · rw [if_neg hc, if_neg (by simpa using hc)]
      cases hpieces : cs.splitOn sep with
      | nil => exact absurd hpieces (List.splitOn_ne_nil sep cs)
      | cons p ps => rfl

/-- There is always a piece. -/
theorem pieces_ne_nil (sep : Char) (cs : List Char) : pieces sep cs ≠ [] := by
  rw [pieces_eq_splitOn]
  exact List.splitOn_ne_nil sep cs

/-- A text without the mark is one piece. -/
theorem pieces_of_not_mem {sep : Char} {cs : List Char} (h : sep ∉ cs) : pieces sep cs = [cs] := by
  rw [pieces_eq_splitOn, List.splitOn_eq_singleton h]

/-- The pieces before a mark and those behind it. -/
theorem pieces_append (sep : Char) (a b : List Char) :
    pieces sep (a ++ sep :: b) = pieces sep a ++ pieces sep b := by
  simp only [pieces_eq_splitOn, List.splitOn_append_cons_self]

/-- A text is its pieces with the mark between them. -/
theorem intercalate_pieces (sep : Char) (cs : List Char) :
    [sep].intercalate (pieces sep cs) = cs := by
  rw [pieces_eq_splitOn, List.intercalate_splitOn]

/-- No piece holds the mark. -/
theorem not_mem_of_mem_pieces {sep : Char} {cs piece : List Char} (h : piece ∈ pieces sep cs) :
    sep ∉ piece := by
  induction cs generalizing piece with
  | nil =>
    rw [pieces, List.mem_singleton] at h
    simp [h]
  | cons c cs ih =>
    rw [pieces] at h
    split at h
    · rcases List.mem_cons.mp h with rfl | hrest
      · exact List.not_mem_nil
      · exact ih hrest
    · rename_i hc
      cases hpieces : pieces sep cs with
      | nil => exact absurd hpieces (pieces_ne_nil sep cs)
      | cons p ps =>
        rw [hpieces] at h ih
        rcases List.mem_cons.mp h with rfl | hrest
        · exact List.not_mem_cons_of_ne_of_not_mem (Ne.symm hc) (ih List.mem_cons_self)
        · exact ih (List.mem_cons_of_mem p hrest)

/-- A text without line feeds is one line, unless it is empty. -/
theorem lines_of_not_mem {line : List Char} (h : '\n' ∉ line) :
    lines line = if line = [] then [] else [line] := by
  rw [lines, pieces_of_not_mem h]
  cases line <;> rfl

/-- A line feed ends a line, and the rest of the text has its own lines. -/
theorem lines_append {line : List Char} (h : '\n' ∉ line) (rest : List Char) :
    lines (line ++ '\n' :: rest) = dropReturn line :: lines rest := by
  rw [lines, lines, pieces_append, pieces_of_not_mem h, List.singleton_append]
  cases hpieces : pieces '\n' rest with
  | nil => exact absurd hpieces (pieces_ne_nil _ _)
  | cons p ps =>
    rw [List.dropLast_cons_cons, List.getLast?_cons_cons, List.map_cons]
    cases (p :: ps).getLast? with
    | none => rfl
    | some last => cases last <;> rfl

/-- A blank at the end of a text is trimmed. -/
theorem trimChars_concat {b : Char} (hb : isBlank b = true) (cs : List Char) :
    trimChars (cs ++ [b]) = trimChars cs := by
  rw [trimChars, trimChars, trimFront, trimFront, List.dropWhile_append]
  split
  · rename_i hnil
    rw [List.isEmpty_iff.mp hnil, List.dropWhile_cons_of_pos hb]
    rfl
  · rw [dropTail, List.reverse_append, List.reverse_singleton, List.singleton_append,
      List.dropWhile_cons_of_pos hb, dropTail]

/-- Where a carriage return is dropped, it stands at the end of the line. -/
theorem dropReturn_cases (line : List Char) :
    dropReturn line = line ∨ line = dropReturn line ++ ['\r'] := by
  rw [dropReturn, before?, after?]
  split
  · rename_i hlead
    obtain ⟨rest, hrest⟩ := List.isPrefixOf_iff_prefix.mp hlead
    right
    rw [← hrest, List.drop_left, Option.map_some, Option.getD_some, ← List.reverse_reverse line,
      ← hrest, List.reverse_append]
    rfl
  · exact .inl rfl

/-- Whether a carriage return is dropped makes no difference to what is left without blanks. -/
theorem trimChars_dropReturn (line : List Char) :
    trimChars (dropReturn line) = trimChars line := by
  rcases dropReturn_cases line with h | h
  · rw [h]
  · have hreturn := trimChars_concat (b := '\r') (by decide) (dropReturn line)
    rw [← h] at hreturn
    exact hreturn.symm

end Repertoire.Text
