import Repertoire.Manifest.Narrative
import Repertoire.Proofs.Text.Ends
import Repertoire.Proofs.Text.Offset

/-!
# Front matter and body

A document is in one of three ways: without front matter, with front matter that is closed, or with
front matter that is not. The first occurrence of a line end with three dashes behind it closes. The
parts of a document are told apart without losing anything but the fences, and the offsets at which
it is cut are places in the text.

What is read from a document fails only for front matter that is not closed or that its reader
refuses. Otherwise each field of the manifest comes from one place, and the description from the
first of three that has one.
-/

namespace Repertoire.NarrativeManifest

open Repertoire.Text

variable {content rest rest' front body text : List Char}
  {engine : String → Option FrontMatter} {name source : String} {m : Manifest} {f : FrontMatter}

/-! ## The parts of a document -/

/-- A line ends where the text starts. -/
def AtLineEnd (rest : List Char) : Prop := rest.head? = some '\n' ∨ rest.head? = some '\r'

instance (rest : List Char) : Decidable (AtLineEnd rest) := inferInstanceAs (Decidable (_ ∨ _))

/-- Blanks and a fence at the end of its line open front matter. What is left starts with that line
end. -/
def Opens (content rest : List Char) : Prop :=
  ∃ blanks, content = blanks ++ fence ++ rest ∧ (∀ c ∈ blanks, isBlank c = true) ∧ AtLineEnd rest

/-- Front matter is opened and closed, for the first time behind `front`. -/
def Fences (content front body : List Char) : Prop :=
  Opens content (front ++ closing ++ body) ∧ ¬ closing <:+: front

/-- Front matter is opened and not closed. -/
def StaysOpen (content : List Char) : Prop :=
  ∃ rest, Opens content rest ∧ ¬ closing <:+: rest

/-- What becomes of a document behind the fence that opens front matter. -/
def partsOf (rest : List Char) : Parts :=
  match cutAt? closing rest with
  | some (front, body) => .fenced front body
  | none => .unclosed

/-- Blanks in front of a fence are all that is trimmed. -/
theorem trimFront_blanks {blanks : List Char} (h : ∀ c ∈ blanks, isBlank c = true)
    (rest : List Char) : trimFront (blanks ++ fence ++ rest) = fence ++ rest := by
  rw [trimFront, List.append_assoc, List.dropWhile_append_of_pos h]
  rfl

/-- Front matter is opened exactly when a fence is the first thing in a document but blanks, and a
line end follows. -/
theorem opens_iff :
    Opens content rest ↔ after? fence (trimFront content) = some rest ∧ AtLineEnd rest := by
  rw [after?_eq_some_iff]
  constructor
  · rintro ⟨blanks, rfl, hblanks, hend⟩
    exact ⟨trimFront_blanks hblanks rest, hend⟩
  · rintro ⟨htrim, hend⟩
    refine ⟨content.takeWhile isBlank, ?_, fun c hc => List.mem_takeWhile_imp hc, hend⟩
    rw [List.append_assoc, ← htrim]
    exact List.takeWhile_append_dropWhile.symm

/-- A document opens front matter in one way only. -/
theorem Opens.unique (h : Opens content rest) (h' : Opens content rest') : rest = rest' :=
  Option.some.inj ((opens_iff.mp h).1.symm.trans (opens_iff.mp h').1)

/-- A document is cut behind the fence that opens front matter, if there is one. -/
theorem split_eq (content : List Char) :
    split content =
      match after? fence (trimFront content) with
      | some rest => if AtLineEnd rest then partsOf rest else .bodyOnly
      | none => .bodyOnly := by
  rw [split]
  rcases after? fence (trimFront content) with _ | _ | ⟨c, rest⟩
  · rfl
  · rfl
  · by_cases hfeed : c = '\n'
    · subst hfeed
      rfl
    · by_cases hreturn : c = '\r'
      · subst hreturn
        rfl
      · simp [AtLineEnd, hfeed, hreturn]

/-- A document that opens front matter is cut where that is closed. -/
theorem split_of_opens (h : Opens content rest) : split content = partsOf rest := by
  obtain ⟨hafter, hend⟩ := opens_iff.mp h
  simp only [split_eq, hafter, if_pos hend]

/-- A document that opens no front matter is nothing but a body. -/
theorem split_of_not_opens (h : ∀ rest, ¬ Opens content rest) : split content = .bodyOnly := by
  rw [split_eq]
  cases hafter : after? fence (trimFront content) with
  | none => rfl
  | some rest => exact if_neg fun hend => h rest (opens_iff.mpr ⟨hafter, hend⟩)

/-- The mark that closes front matter is cut at where it comes first. -/
theorem cutAt?_closing :
    cutAt? closing rest = some (front, body) ↔
      rest = front ++ closing ++ body ∧ ¬ closing <:+: front :=
  cutAt?_eq_some_iff (by decide)

/-- Front matter is closed where the first line end with a fence behind it stands. -/
theorem partsOf_eq_fenced_iff :
    partsOf rest = .fenced front body ↔ rest = front ++ closing ++ body ∧ ¬ closing <:+: front := by
  rw [← cutAt?_closing, partsOf]
  rcases cutAt? closing rest with _ | ⟨front', body'⟩ <;> simp

/-- Front matter is not closed exactly when no line end has a fence behind it. -/
theorem partsOf_eq_unclosed_iff : partsOf rest = .unclosed ↔ ¬ closing <:+: rest := by
  rw [← cutAt?_eq_none_iff, partsOf]
  rcases cutAt? closing rest with _ | ⟨front', body'⟩ <;> simp

/-- A document has front matter exactly when that is opened and closed. -/
theorem split_eq_fenced_iff : split content = .fenced front body ↔ Fences content front body := by
  constructor
  · intro h
    by_cases hopen : ∃ rest, Opens content rest
    · obtain ⟨rest, hrest⟩ := hopen
      rw [split_of_opens hrest, partsOf_eq_fenced_iff] at h
      obtain ⟨rfl, hfirst⟩ := h
      exact ⟨hrest, hfirst⟩
    · rw [split_of_not_opens fun rest hrest => hopen ⟨rest, hrest⟩] at h
      simp at h
  · rintro ⟨hopen, hfirst⟩
    rw [split_of_opens hopen, partsOf_eq_fenced_iff]
    exact ⟨rfl, hfirst⟩

/-- A document is refused for its fences exactly when front matter is opened and not closed. -/
theorem split_eq_unclosed_iff : split content = .unclosed ↔ StaysOpen content := by
  constructor
  · intro h
    by_cases hopen : ∃ rest, Opens content rest
    · obtain ⟨rest, hrest⟩ := hopen
      rw [split_of_opens hrest, partsOf_eq_unclosed_iff] at h
      exact ⟨rest, hrest, h⟩
    · rw [split_of_not_opens fun rest hrest => hopen ⟨rest, hrest⟩] at h
      simp at h
  · rintro ⟨rest, hopen, hnone⟩
    rw [split_of_opens hopen, partsOf_eq_unclosed_iff]
    exact hnone

/-- A document is nothing but a body exactly when it opens no front matter. -/
theorem split_eq_bodyOnly_iff : split content = .bodyOnly ↔ ∀ rest, ¬ Opens content rest := by
  refine ⟨fun h rest hopen => ?_, split_of_not_opens⟩
  rw [split_of_opens hopen, partsOf] at h
  split at h <;> simp at h

/-! ## Cutting at offsets -/

/-- What becomes of a document behind the fence that opens front matter, with cuts at offsets in
bytes. There is no answer when an offset is no place in the text. -/
def partsAtBytes? (rest : List Char) : Option Parts :=
  match byteOf? closing rest with
  | none => some .unclosed
  | some n =>
    match cutAtByte? n rest, cutAtByte? (n + 4) rest with
    | some (front, _), some (_, body) => some (.fenced front body)
    | _, _ => none

/-- Takes a document apart with cuts at offsets in bytes. -/
def splitAtBytes? (content : List Char) : Option Parts :=
  match after? fence (trimFront content) with
  | some rest => if AtLineEnd rest then partsAtBytes? rest else some .bodyOnly
  | none => some .bodyOnly

/-- The offsets at which front matter is closed are places in the text. -/
theorem partsAtBytes?_eq (rest : List Char) : partsAtBytes? rest = some (partsOf rest) := by
  rw [partsAtBytes?, partsOf, byteOf?_eq]
  rcases hcut : cutAt? closing rest with _ | ⟨front, body⟩
  · rfl
  · obtain rfl := eq_of_cutAt? hcut
    have hfront : cutAtByte? (String.utf8Len front) (front ++ closing ++ body) =
        some (front, closing ++ body) := cutAtByte?_eq_some_iff.mpr ⟨by simp, rfl⟩
    have hbody : cutAtByte? (String.utf8Len front + 4) (front ++ closing ++ body) =
        some (front ++ closing, body) :=
      cutAtByte?_eq_some_iff.mpr ⟨rfl, by rw [String.utf8Len_append]; rfl⟩
    simp only [Option.map_some, hfront, hbody]

/-- The offsets at which a document is taken apart are places in the text, and the parts are what
stands between them. -/
theorem splitAtBytes?_eq (content : List Char) : splitAtBytes? content = some (split content) := by
  rw [splitAtBytes?, split_eq]
  cases after? fence (trimFront content) with
  | none => rfl
  | some rest =>
    simp only [partsAtBytes?_eq]
    split <;> rfl

/-! ## The description -/

/-- A line is part of the prose: it is not blank, and its first character that is not blank marks no
heading. -/
def ProseLine (line : List Char) : Prop :=
  ∃ blanks c rest, line = blanks ++ c :: rest ∧ (∀ b ∈ blanks, isBlank b = true) ∧
    isBlank c = false ∧ c ≠ '#'

/-- Where the description of a manifest comes from: the front matter, unless it declares none or a
blank one; else the first line of prose in the body, without the blanks at its ends; else it is
empty. -/
inductive Description (declared : Option String) (body : List Char) : String → Prop
  | declared {text : String} (h : declared = some text) (htext : ¬ AllBlank text) :
      Description declared body text
  | prose {before after : List (List Char)} {line : List Char}
      (h : ∀ text, declared = some text → AllBlank text)
      (hlines : lines body = before ++ line :: after) (hfirst : ∀ l ∈ before, ¬ ProseLine l)
      (hline : ProseLine line) : Description declared body (String.ofList (trimChars line))
  | missing (h : ∀ text, declared = some text → AllBlank text)
      (hnone : ∀ l ∈ lines body, ¬ ProseLine l) : Description declared body ""

/-- Blanks are dropped from the end of a text behind its first character that is not blank. -/
theorem dropTail_cons {c : Char} (hc : isBlank c = false) (rest : List Char) :
    dropTail isBlank (c :: rest) = c :: dropTail isBlank rest := by
  rw [dropTail, dropTail, List.reverse_cons, List.dropWhile_append]
  split
  · rename_i hnil
    simp [List.isEmpty_iff.mp hnil, hc]
  · simp

/-- A line is part of the prose exactly when what is left of it without the blanks at its ends is
neither empty nor a heading. -/
theorem isProse_trimChars_iff (line : List Char) :
    isProse (trimChars line) = true ↔ ProseLine line := by
  constructor
  · intro h
    rcases hfront : trimFront line with _ | ⟨c, rest⟩
    · rw [trimChars, hfront] at h
      exact absurd h (by decide)
    · have hc : isBlank c = false := by
        have hhead := List.head?_dropWhile_not isBlank line
        rw [trimFront] at hfront
        simpa [hfront] using hhead
      rw [trimChars, hfront, dropTail_cons hc] at h
      refine ⟨line.takeWhile isBlank, c, rest, ?_, fun b hb => List.mem_takeWhile_imp hb, hc, ?_⟩
      · rw [← hfront]
        exact List.takeWhile_append_dropWhile.symm
      · rintro rfl
        simp [isProse] at h
  · rintro ⟨blanks, c, rest, rfl, hblanks, hc, hhead⟩
    have hfront : trimFront (blanks ++ c :: rest) = c :: rest := by
      rw [trimFront, List.dropWhile_append_of_pos hblanks, List.dropWhile_cons, hc]
      rfl
    rw [trimChars, hfront, dropTail_cons hc]
    simp [isProse, hhead]

/-- The first line of prose in a body. -/
theorem firstProse?_eq_some_iff : firstProse? body = some text ↔ ∃ before line after,
    lines body = before ++ line :: after ∧ (∀ l ∈ before, ¬ ProseLine l) ∧ ProseLine line ∧
      trimChars line = text := by
  rw [firstProse?, List.find?_map, Option.map_eq_some_iff]
  constructor
  · rintro ⟨line, hfind, htext⟩
    obtain ⟨hline, before, after, hlines, hfirst⟩ := List.find?_eq_some_iff_append.mp hfind
    refine ⟨before, line, after, hlines, fun l hl hprose => ?_,
      (isProse_trimChars_iff line).mp hline, htext⟩
    have hno := hfirst l hl
    simp [(isProse_trimChars_iff l).mpr hprose] at hno
  · rintro ⟨before, line, after, hlines, hfirst, hline, htext⟩
    refine ⟨line, List.find?_eq_some_iff_append.mpr
      ⟨(isProse_trimChars_iff line).mpr hline, before, after, hlines, fun l hl => ?_⟩, htext⟩
    have hno := mt (isProse_trimChars_iff l).mp (hfirst l hl)
    simpa using hno

/-- There is no first line of prose in a body exactly when none of its lines is one. -/
theorem firstProse?_eq_none_iff :
    firstProse? body = none ↔ ∀ l ∈ lines body, ¬ ProseLine l := by
  rw [firstProse?, List.find?_map, Option.map_eq_none_iff, List.find?_eq_none]
  simp only [Function.comp_apply, isProse_trimChars_iff]

/-- A blank description is none. -/
theorem filter_eq_none_of_blank {declared : Option String}
    (h : ∀ d, declared = some d → AllBlank d) :
    (declared.filter fun d => ¬ AllBlank d) = none := by
  rw [Option.filter_eq_none_iff]
  intro d hd
  simpa using h d hd

/-- A manifest is described from the first place that has a description. -/
theorem description_iff {declared : Option String} {text : String} :
    Description declared body text ↔
      ((declared.filter fun d => ¬ AllBlank d).orElse fun _ =>
        (firstProse? body).map String.ofList).getD "" = text := by
  have hfull {text : String} (h : declared = some text) (htext : ¬ AllBlank text) :
      (declared.filter fun d => ¬ AllBlank d) = some text := by simp [h, htext]
  constructor
  · rintro (⟨h, htext⟩ | ⟨h, hlines, hfirst, hline⟩ | ⟨h, hnone⟩)
    · rw [hfull h htext]
      rfl
    · rw [filter_eq_none_of_blank h, firstProse?_eq_some_iff.mpr ⟨_, _, _, hlines, hfirst, hline, rfl⟩]
      rfl
    · rw [filter_eq_none_of_blank h, firstProse?_eq_none_iff.mpr hnone]
      rfl
  · rintro rfl
    by_cases h : ∀ text, declared = some text → AllBlank text
    · rw [filter_eq_none_of_blank h]
      rcases hfirst : firstProse? body with _ | line
      · exact .missing h (firstProse?_eq_none_iff.mp hfirst)
      · obtain ⟨before, line, after, hlines, hbefore, hline, rfl⟩ :=
          firstProse?_eq_some_iff.mp hfirst
        exact .prose h hlines hbefore hline
    · push Not at h
      obtain ⟨text, hdeclared, htext⟩ := h
      rw [hfull hdeclared htext]
      exact .declared hdeclared htext

/-! ## The manifest -/

/-- What front matter declares in a document, and the body behind it. A document without front
matter declares nothing and is all body, and blank front matter is not read. -/
inductive Declares (engine : String → Option FrontMatter) (content : List Char) :
    FrontMatter → List Char → Prop
  | bare (h : ∀ rest, ¬ Opens content rest) : Declares engine content .empty content
  | blank {front body : List Char} (h : Fences content front body)
      (hblank : AllBlank (String.ofList front)) : Declares engine content .empty body
  | read {front body : List Char} {f : FrontMatter} (h : Fences content front body)
      (hfull : ¬ AllBlank (String.ofList front)) (hread : engine (String.ofList front) = some f) :
      Declares engine content f body

/-- The front matter of a document is not blank and cannot be read. -/
def Refuses (engine : String → Option FrontMatter) (content : List Char) : Prop :=
  ∃ front body, Fences content front body ∧ ¬ AllBlank (String.ofList front) ∧
    engine (String.ofList front) = none

/-- Where the fields of a manifest come from. -/
structure Describes (name : String) (f : FrontMatter) (body : List Char) (m : Manifest) :
    Prop where
  name : m.name = name
  description : Description f.description body m.description
  version : m.version = f.version.getD defaultVersion
  author : ∀ a, m.author = some a ↔ f.author = some a ∧ a ≠ ""
  tags : m.tags = f.tags
  tools : m.tools = []
  prompts : m.prompts = []
  location : m.location = none

/-- An author without a name is none. -/
theorem author_iff {author : Option String} : (∀ a, author = some a ↔ f.author = some a ∧ a ≠ "") ↔
    f.author.filter (fun a => !a.isEmpty) = author := by
  constructor
  · intro h
    apply Option.ext
    intro a
    rw [h, Option.filter_eq_some_iff]
    simp
  · rintro rfl a
    rw [Option.filter_eq_some_iff]
    simp

/-- The fields of one manifest come from where they should. -/
theorem describes_iff : Describes name f body m ↔ manifest name f body = m := by
  constructor
  · rintro ⟨rfl, hdescription, hversion, hauthor, htags, htools, hprompts, hlocation⟩
    rw [manifest, description_iff.mp hdescription, author_iff.mp hauthor, ← hversion, ← htags,
      ← htools, ← hprompts, ← hlocation]
  · rintro rfl
    exact ⟨rfl, description_iff.mpr rfl, rfl, author_iff.mpr rfl, rfl, rfl, rfl, rfl⟩

/-- What a document is read as. -/
theorem parseWith_eq_ok_iff : parseWith engine name source = .ok m ↔
    ∃ f body, Declares engine source.toList f body ∧ Describes name f body m := by
  simp only [describes_iff]
  constructor
  · intro h
    rw [parseWith] at h
    rcases hparts : split source.toList with _ | ⟨front, body⟩ | _
    · rw [hparts] at h
      exact ⟨_, _, .bare (split_eq_bodyOnly_iff.mp hparts), Except.ok.inj h⟩
    · have hfences := split_eq_fenced_iff.mp hparts
      simp only [hparts] at h
      by_cases hblank : AllBlank (String.ofList front)
      · rw [if_pos hblank] at h
        exact ⟨_, _, .blank hfences hblank, Except.ok.inj h⟩
      · rw [if_neg hblank] at h
        cases hread : engine (String.ofList front) with
        | none => simp [hread] at h
        | some f =>
          rw [hread] at h
          exact ⟨f, body, .read hfences hblank hread, Except.ok.inj h⟩
    · simp [hparts] at h
  · rintro ⟨f, body, hdeclares, rfl⟩
    rw [parseWith]
    rcases hdeclares with h | ⟨h, hblank⟩ | ⟨h, hfull, hread⟩
    · rw [split_of_not_opens h]
    · simp only [split_eq_fenced_iff.mpr h, if_pos hblank]
    · simp only [split_eq_fenced_iff.mpr h, if_neg hfull, hread]

/-- Reading a document fails exactly when its front matter is not closed or cannot be read. -/
theorem parseWith_eq_error_iff : (∃ e, parseWith engine name source = .error e) ↔
    StaysOpen source.toList ∨ Refuses engine source.toList := by
  constructor
  · rintro ⟨e, h⟩
    rw [parseWith] at h
    rcases hparts : split source.toList with _ | ⟨front, body⟩ | _
    · simp [hparts] at h
    · simp only [hparts] at h
      by_cases hblank : AllBlank (String.ofList front)
      · simp [hblank] at h
      · rw [if_neg hblank] at h
        cases hread : engine (String.ofList front) with
        | none => exact .inr ⟨front, body, split_eq_fenced_iff.mp hparts, hblank, hread⟩
        | some f => simp [hread] at h
    · exact .inl (split_eq_unclosed_iff.mp hparts)
  · rw [parseWith]
    rintro (h | ⟨front, body, h, hfull, hread⟩)
    · rw [split_eq_unclosed_iff.mpr h]
      exact ⟨_, rfl⟩
    · simp only [split_eq_fenced_iff.mpr h, if_neg hfull, hread]
      exact ⟨_, rfl⟩

/-- A document is read, or it is refused for front matter that is not closed or cannot be read. What
is read has every field from its one source. The offsets at which the document is cut are places in
it, and blanks, fences, front matter and body are all of it. -/
theorem parseWith_describes (engine : String → Option FrontMatter) (name source : String) :
    ((∃ e, parseWith engine name source = .error e) ↔
        StaysOpen source.toList ∨ Refuses engine source.toList) ∧
      (∀ m, parseWith engine name source = .ok m ↔
        ∃ f body, Declares engine source.toList f body ∧ Describes name f body m) ∧
      splitAtBytes? source.toList = some (split source.toList) ∧
      ∀ front body, split source.toList = .fenced front body ↔
        (∃ blanks, source.toList = blanks ++ fence ++ (front ++ closing ++ body) ∧
          (∀ c ∈ blanks, isBlank c = true) ∧ AtLineEnd (front ++ closing ++ body)) ∧
        ¬ closing <:+: front :=
  ⟨parseWith_eq_error_iff, fun _ => parseWith_eq_ok_iff, splitAtBytes?_eq source.toList,
    fun _ _ => split_eq_fenced_iff⟩

end Repertoire.NarrativeManifest
