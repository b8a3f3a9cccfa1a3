import Repertoire.Proofs.Manifest.FrontMatter
import Repertoire.Proofs.Text.Lines

/-!
# The line that closes front matter

The fence that opens front matter must end its line. The line that closes it need not be a fence: it
is the first later line that starts with three dashes, whatever stands behind them. So front matter
is closed by its first fence exactly when no rule and no other text with dashes in front comes
earlier. Whatever the closing line has behind its dashes is the front of the body, and it is the
description of a manifest that has no other if it is prose.
-/

namespace Repertoire.NarrativeManifest

open Repertoire.Text

variable {rest before line front body tail after : List Char} {text : String}
  {declared : Option String} {content : List Char} {engine : String → Option FrontMatter}
  {name source : String} {f : FrontMatter}

/-! ## Later lines -/

/-- A whole line of a text, with what stands before its line feed and behind it. The line that the
text starts in is none. -/
structure LaterLine (rest before line after : List Char) : Prop where
  whole : rest = before ++ '\n' :: line ++ after
  oneLine : '\n' ∉ line
  ends : after = [] ∨ after.head? = some '\n'

/-- The first later line of a kind. -/
structure FirstLater (Kind : List Char → Prop) (rest before line after : List Char) : Prop extends
    LaterLine rest before line after where
  kind : Kind line
  first : ∀ before' line' after', LaterLine rest before' line' after' → Kind line' →
    before.length ≤ before'.length

/-- A line starts with three dashes. -/
def Dashed (line : List Char) : Prop := fence <+: line

/-- A line is a fence: nothing but blanks is behind its three dashes. -/
def IsFence (line : List Char) : Prop :=
  fence <+: line ∧ ∀ c ∈ line.drop fence.length, isBlank c = true

-- The bounded search is named because there are only finitely many characters: the instance that
-- is found for all of them would try each.
instance (line : List Char) : Decidable (IsFence line) :=
  @instDecidableAnd _ _ inferInstance (List.decidableBAll _ _)

/-- There is no line feed on the line that a text starts with. -/
theorem not_mem_firstLine (text : List Char) : '\n' ∉ text.takeWhile (· ≠ '\n') := by
  intro hmem
  have hc := List.mem_takeWhile_imp hmem
  simp at hc

/-- The line that a text starts with ends at a line feed or with the text. -/
theorem ends_firstLine (text : List Char) :
    text.dropWhile (· ≠ '\n') = [] ∨ (text.dropWhile (· ≠ '\n')).head? = some '\n' := by
  have hhead := List.head?_dropWhile_not (· ≠ '\n') text
  cases hdrop : text.dropWhile (· ≠ '\n') with
  | nil => exact .inl rfl
  | cons c more =>
    rw [hdrop] at hhead
    right
    simpa using hhead

/-- A later line is a piece between line feeds, and not the first. -/
theorem LaterLine.mem_pieces (h : LaterLine rest before line after) :
    line ∈ (pieces '\n' rest).tail := by
  have hline : line ∈ pieces '\n' (line ++ after) := by
    cases after with
    | nil => simp [pieces_of_not_mem h.oneLine]
    | cons c after =>
      have hc : c = '\n' := by simpa using h.ends
      rw [hc, pieces_append, pieces_of_not_mem h.oneLine]
      exact List.mem_cons_self
  rw [h.whole, List.append_assoc, List.cons_append, pieces_append,
    List.tail_append_of_ne_nil (pieces_ne_nil _ _)]
  exact List.mem_append_right _ hline

/-- A later line with dashes in front is an occurrence of what closes front matter. -/
theorem LaterLine.occurs (h : LaterLine rest before (fence ++ tail) after) :
    rest = before ++ closing ++ (tail ++ after) := by
  rw [h.whole]
  simp [closing]

/-- Every occurrence of what closes front matter starts a later line. -/
theorem laterLine_of_occurs (h : rest = before ++ closing ++ body) :
    LaterLine rest before (fence ++ body.takeWhile (· ≠ '\n')) (body.dropWhile (· ≠ '\n')) where
  whole := by
    rw [h, ← List.cons_append, List.append_assoc, List.append_assoc, List.append_assoc,
      List.takeWhile_append_dropWhile]
    rfl
  oneLine := by
    rw [List.mem_append, not_or]
    exact ⟨by decide, not_mem_firstLine body⟩
  ends := ends_firstLine body

/-- A later line that starts with dashes is what closes front matter, with more behind. -/
theorem LaterLine.exists_tail (h : LaterLine rest before line after) (hline : Dashed line) :
    ∃ tail, line = fence ++ tail ∧ rest = before ++ closing ++ (tail ++ after) := by
  obtain ⟨tail, htail⟩ := hline
  subst htail
  exact ⟨tail, rfl, h.occurs⟩

/-- What closes front matter occurs exactly when some later line starts with dashes. -/
theorem closing_infix_iff :
    closing <:+: rest ↔ ∃ before line after, LaterLine rest before line after ∧ Dashed line := by
  constructor
  · intro h
    obtain ⟨before, body, hrest⟩ := h
    exact ⟨before, _, _, laterLine_of_occurs hrest.symm, List.prefix_append _ _⟩
  · intro h
    obtain ⟨before, line, after, hlater, hline⟩ := h
    obtain ⟨tail, -, hrest⟩ := hlater.exists_tail hline
    exact ⟨before, tail ++ after, hrest.symm⟩

/-- The first occurrence of what closes front matter starts the first later line with dashes. -/
theorem firstLater_of_first (h : rest = before ++ closing ++ body)
    (hfirst : ¬ closing <:+: before) :
    FirstLater Dashed rest before (fence ++ body.takeWhile (· ≠ '\n'))
      (body.dropWhile (· ≠ '\n')) where
  toLaterLine := laterLine_of_occurs h
  kind := List.prefix_append _ _
  first := by
    intro before' line' after' hlater hline
    obtain ⟨tail, -, hrest⟩ := hlater.exists_tail hline
    have hoccurs : before' ++ closing ++ (tail ++ after') = before ++ closing ++ body :=
      hrest.symm.trans h
    have hsuffix : tail ++ after' <:+ body := suffix_of_first (by decide) hfirst hoccurs
    have hlength := congrArg List.length hoccurs
    have hle := hsuffix.length_le
    simp only [List.length_append] at hlength hle
    omega

/-- In front of the first later line with dashes, nothing closes front matter. -/
theorem FirstLater.first_occurs (h : FirstLater Dashed rest before (fence ++ tail) after) :
    ¬ closing <:+: before := by
  intro hin
  obtain ⟨before', more, hmore⟩ := hin
  have hrest : rest = before' ++ closing ++ (more ++ closing ++ (tail ++ after)) := by
    rw [h.occurs, ← hmore]
    simp only [List.append_assoc]
  have hle := h.first _ _ _ (laterLine_of_occurs hrest) (List.prefix_append _ _)
  have hlength := congrArg List.length hmore
  have hclosing : closing.length = 4 := rfl
  simp only [List.length_append] at hlength
  omega

/-- The first later line with dashes is a fence, or the first fence does not stand there. -/
theorem FirstLater.isFence_iff (h : FirstLater Dashed rest before (fence ++ tail) after) :
    FirstLater IsFence rest before (fence ++ tail) after ↔ ∀ c ∈ tail, isBlank c = true := by
  have hkind : IsFence (fence ++ tail) ↔ ∀ c ∈ tail, isBlank c = true := by
    rw [IsFence, List.drop_left]
    exact and_iff_right (List.prefix_append _ _)
  constructor
  · intro hfence
    exact hkind.mp hfence.kind
  · intro htail
    exact
      { toLaterLine := h.toLaterLine
        kind := hkind.mpr htail
        first := fun before' line' after' hlater hline =>
          h.first before' line' after' hlater hline.1 }

/-! ## What is left of the closing line -/

/-- The rest of a line is at a line end only where it is empty or starts with one. -/
theorem atLineEnd_append_iff (hline : '\n' ∉ tail) (hends : after = [] ∨ after.head? = some '\n') :
    (tail ++ after = [] ∨ AtLineEnd (tail ++ after)) ↔ tail = [] ∨ tail.head? = some '\r' := by
  cases tail with
  | nil =>
    refine iff_of_true ?_ (.inl rfl)
    exact hends.imp id Or.inl
  | cons c tail =>
    have hc : c ≠ '\n' := fun hc => hline (by simp [hc])
    simp [AtLineEnd, hc]

/-- Prose on the rest of a line is the first prose of a text. Else that is further behind. -/
theorem firstProse?_append (hline : '\n' ∉ tail) (hends : after = [] ∨ after.head? = some '\n') :
    firstProse? (tail ++ after) =
      if isProse (trimChars tail) then some (trimChars tail) else firstProse? after := by
  cases after with
  | nil =>
    rw [List.append_nil, firstProse?, lines_of_not_mem hline]
    cases tail with
    | nil => rfl
    | cons c tail =>
      rw [if_neg (List.cons_ne_nil c tail), List.map_singleton, List.find?_singleton]
      rfl
  | cons c more =>
    have hc : c = '\n' := by simpa using hends
    have hmore : firstProse? (c :: more) = firstProse? more := by
      rw [firstProse?, hc, ← List.nil_append ('\n' :: more), lines_append List.not_mem_nil]
      rfl
    rw [hmore, firstProse?, hc, lines_append hline, List.map_cons, trimChars_dropReturn,
      List.find?_cons]
    cases isProse (trimChars tail) <;> rfl

/-- A manifest with no description of its own is described by the rest of a line if that is prose,
and from behind that line if it is not. -/
theorem description_append (hline : '\n' ∉ tail) (hends : after = [] ∨ after.head? = some '\n')
    (hdeclared : ∀ d, declared = some d → AllBlank d) :
    Description declared (tail ++ after) text ↔
      (ProseLine tail ∧ text = String.ofList (trimChars tail)) ∨
      (¬ ProseLine tail ∧ Description declared after text) := by
  rw [description_iff, description_iff, filter_eq_none_of_blank hdeclared,
    firstProse?_append hline hends]
  by_cases hprose : ProseLine tail
  · rw [if_pos ((isProse_trimChars_iff tail).mpr hprose)]
    simp [hprose, eq_comm]
  · rw [if_neg (mt (isProse_trimChars_iff tail).mp hprose)]
    simp [hprose]

/-! ## The closing line -/

/-- The line that opens front matter has nothing behind its dashes, or a carriage return. -/
theorem Opens.exists_tail (h : Opens content rest) : ∃ tail after, rest = tail ++ after ∧
    '\n' ∉ tail ∧ (after = [] ∨ after.head? = some '\n') ∧ (tail = [] ∨ tail.head? = some '\r') := by
  have hsplit : rest = rest.takeWhile (· ≠ '\n') ++ rest.dropWhile (· ≠ '\n') :=
    List.takeWhile_append_dropWhile.symm
  have hend : AtLineEnd rest := (opens_iff.mp h).2
  refine ⟨_, _, hsplit, not_mem_firstLine rest, ends_firstLine rest, ?_⟩
  apply (atLineEnd_append_iff (not_mem_firstLine rest) (ends_firstLine rest)).mp
  rw [← hsplit]
  exact .inr hend

/-- Front matter that is opened stays open exactly when no later line starts with dashes. -/
theorem Opens.unclosed_iff (h : Opens content rest) : split content = .unclosed ↔
    ∀ before line after, LaterLine rest before line after → ¬ Dashed line := by
  rw [split_of_opens h, partsOf_eq_unclosed_iff, closing_infix_iff]
  push Not
  rfl

/-- Front matter that is opened is closed by the first later line that starts with dashes. -/
theorem Opens.fenced_iff (h : Opens content rest) : split content = .fenced front body ↔
    ∃ tail after, FirstLater Dashed rest front (fence ++ tail) after ∧ body = tail ++ after := by
  rw [split_of_opens h, partsOf_eq_fenced_iff]
  constructor
  · intro hfirst
    exact ⟨_, _, firstLater_of_first hfirst.1 hfirst.2, List.takeWhile_append_dropWhile.symm⟩
  · intro hline
    obtain ⟨tail, after, hline, hbody⟩ := hline
    rw [hbody]
    exact ⟨hline.occurs, hline.first_occurs⟩

/-- There is no line feed behind the dashes of a later line. -/
theorem LaterLine.not_mem_tail (h : LaterLine rest before (fence ++ tail) after) : '\n' ∉ tail :=
  fun hmem => h.oneLine (List.mem_append_right fence hmem)

/-- Without a description in its front matter, a document is described by what its closing line has
behind the dashes if that is prose, and from behind that line if it is not. -/
theorem exists_description (hline : LaterLine rest front (fence ++ tail) after)
    (hdeclares : Declares engine source.toList f (tail ++ after))
    (hblank : ∀ d, f.description = some d → AllBlank d) :
    ∃ m, parseWith engine name source = .ok m ∧
      ((ProseLine tail ∧ m.description = String.ofList (trimChars tail)) ∨
        (¬ ProseLine tail ∧ Description f.description after m.description)) := by
  have hdescribes : Describes name f (tail ++ after) (manifest name f (tail ++ after)) :=
    describes_iff.mpr rfl
  have hread : parseWith engine name source = .ok (manifest name f (tail ++ after)) :=
    parseWith_eq_ok_iff.mpr ⟨f, tail ++ after, hdeclares, hdescribes⟩
  exact ⟨_, hread,
    (description_append hline.not_mem_tail hline.ends hblank).mp hdescribes.description⟩

/-- How front matter is opened and closed that leaves `rest` behind its opening fence. Of the lines
that open and close it, `tail` is what they have behind their dashes. -/
structure ClosesByDashes (engine : String → Option FrontMatter) (name source : String)
    (rest : List Char) : Prop where
  opened : ∃ tail after, rest = tail ++ after ∧ '\n' ∉ tail ∧
    (after = [] ∨ after.head? = some '\n') ∧ (tail = [] ∨ tail.head? = some '\r')
  unclosed : split source.toList = .unclosed ↔
    ∀ before line after, LaterLine rest before line after → ¬ Dashed line
  closed : ∀ front body, split source.toList = .fenced front body ↔
    ∃ tail after, FirstLater Dashed rest front (fence ++ tail) after ∧ body = tail ++ after
  isFence : ∀ front tail after, FirstLater Dashed rest front (fence ++ tail) after →
    (FirstLater IsFence rest front (fence ++ tail) after ↔ ∀ c ∈ tail, isBlank c = true)
  atLineEnd : ∀ front tail after, FirstLater Dashed rest front (fence ++ tail) after →
    (tail ++ after = [] ∨ AtLineEnd (tail ++ after) ↔ tail = [] ∨ tail.head? = some '\r')
  description : ∀ front tail after f, FirstLater Dashed rest front (fence ++ tail) after →
    Declares engine source.toList f (tail ++ after) →
    (∀ d, f.description = some d → AllBlank d) →
    ∃ m, parseWith engine name source = .ok m ∧
      ((ProseLine tail ∧ m.description = String.ofList (trimChars tail)) ∨
        (¬ ProseLine tail ∧ Description f.description after m.description))

/-- Front matter that a document opens is closed by the first later line that starts with three
dashes, and what this line has behind them is read as the start of the body. -/
theorem parseWith_closesByDashes (engine : String → Option FrontMatter) (name source : String)
    (rest : List Char) (h : Opens source.toList rest) :
    ClosesByDashes engine name source rest where
  opened := h.exists_tail
  unclosed := h.unclosed_iff
  closed := fun _ _ => h.fenced_iff
  isFence := fun _ _ _ hline => hline.isFence_iff
  atLineEnd := fun _ _ _ hline => atLineEnd_append_iff hline.not_mem_tail hline.ends
  description := fun _ _ _ _ hline hdeclares hblank =>
    exists_description hline.toLaterLine hdeclares hblank

/-- A longer rule closes front matter that has no closing fence, and its last dash is the
description. -/
theorem parseWith_closesByDashes_longRule :
    Opens "---\nversion: 1.0.0\n----\nBody\n".toList "\nversion: 1.0.0\n----\nBody\n".toList ∧
      (∀ before line after,
        LaterLine "\nversion: 1.0.0\n----\nBody\n".toList before line after → ¬ IsFence line) ∧
      split "---\nversion: 1.0.0\n----\nBody\n".toList =
        .fenced "\nversion: 1.0.0".toList "-\nBody\n".toList ∧
      ∃ m, parse "rules" "---\nversion: 1.0.0\n----\nBody\n" = .ok m ∧ m.description = "-" := by
  have hopens : Opens "---\nversion: 1.0.0\n----\nBody\n".toList
      "\nversion: 1.0.0\n----\nBody\n".toList := ⟨[], by decide, by simp, by decide⟩
  have hrule := parseWith_closesByDashes FrontMatter.ofYaml? "rules"
    "---\nversion: 1.0.0\n----\nBody\n" _ hopens
  have hrest : "\nversion: 1.0.0\n----\nBody\n".toList =
      "\nversion: 1.0.0".toList ++ closing ++ "-\nBody\n".toList := by decide
  have hfirst : ¬ closing <:+: "\nversion: 1.0.0".toList := cutAt?_eq_none_iff.mp (by decide)
  have hline : FirstLater Dashed "\nversion: 1.0.0\n----\nBody\n".toList
      "\nversion: 1.0.0".toList (fence ++ ['-']) "\nBody\n".toList :=
    firstLater_of_first hrest hfirst
  have hsplit : split "---\nversion: 1.0.0\n----\nBody\n".toList =
      .fenced "\nversion: 1.0.0".toList "-\nBody\n".toList :=
    (hrule.closed _ _).mpr ⟨['-'], "\nBody\n".toList, hline, by decide⟩
  have hpieces : ∀ line ∈ (pieces '\n' "\nversion: 1.0.0\n----\nBody\n".toList).tail,
      ¬ IsFence line := by decide
  have hdeclares : Declares FrontMatter.ofYaml? "---\nversion: 1.0.0\n----\nBody\n".toList
      ⟨none, some "1.0.0", none, []⟩ (['-'] ++ "\nBody\n".toList) :=
    .read (split_eq_fenced_iff.mp hsplit) (by decide) (by decide +kernel)
  obtain ⟨m, hread, hdescription⟩ :=
    hrule.description _ _ _ _ hline hdeclares (by simp)
  refine ⟨hopens, fun before line after hlater => hpieces line hlater.mem_pieces, hsplit, m,
    hread, ?_⟩
  cases hdescription with
  | inl hprose => exact hprose.2
  | inr hother => exact absurd ⟨[], '-', [], rfl, by simp, by decide, by decide⟩ hother.1

end Repertoire.NarrativeManifest
