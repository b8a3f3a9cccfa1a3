import Mathlib.Tactic.SplitIfs
import Repertoire.Proofs.Text.Draft
import Repertoire.Toml.Literal

/-!
# TOML strings with a gap

There are four forms of strings, and each is read piece by piece up to its closing mark. A word that
is made of characters that stand for themselves is itself in the gap of a string on one line. In a
string over several lines a line feed stands for itself as well, but the first character of the word
must be neither a mark nor, where blanks are dropped, a blank.
-/

namespace Repertoire.Toml.Literal

open Repertoire.Text

variable {c k : Char} {w cs lead x rest : List Char}

/-- A character that stands for itself in strings of every form. -/
def IsPlain (c : Char) : Prop := isBasicChar c = true ∧ c ≠ '\x27'

instance (c : Char) : Decidable (IsPlain c) := instDecidableAnd

/-- A word fits a gap in a string on one line if its characters stand for themselves there. -/
def FitsLine (plain : Char → Bool) (w : List Char) : Prop := ∀ c ∈ w, plain c = true

/-- A word fits a gap in a string over several lines if its characters stand for themselves there or
are line feeds, and if it starts with one that does so even after what is dropped. -/
def FitsLines (plain firm : Char → Bool) (w : List Char) : Prop :=
  (∀ c ∈ w, plain c = true ∨ c = '\x0a') ∧ ∃ c w', w = c :: w' ∧ firm c = true

/-- A character that stands for itself in a basic string, also where blanks are dropped. -/
def isFirmChar (c : Char) : Bool := isBasicChar c && !isSpace c

/-- The places in a document that may hold a gap. -/
inductive Spot where
  | basic
  | literal
  | basicLines
  | literalLines
  | comment

/-- A word fits a gap in a place if it means itself there. -/
def Spot.Fits : Spot → List Char → Prop
  | basic => FitsLine isBasicChar
  | literal => FitsLine isLiteralChar
  | basicLines => FitsLines isBasicChar isFirmChar
  | literalLines => FitsLines isLiteralChar isLiteralChar
  | comment => FitsLine isCommentChar

/-- The word fits the gap in each of the places. -/
def Meets (places : List Spot) (w : List Char) : Prop := ∀ p ∈ places, p.Fits w

@[simp] theorem meets_nil (w : List Char) : Meets [] w := fun _ hp => absurd hp List.not_mem_nil

@[simp] theorem meets_singleton {p : Spot} : Meets [p] w ↔ p.Fits w := by
  simp [Meets]

/-- Places are met when all of the first and all of the others are. -/
theorem meets_append {ps qs : List Spot} : Meets (ps ++ qs) w ↔ Meets ps w ∧ Meets qs w :=
  List.forall_mem_append

/-- One gap is in one place. -/
theorem exists_place {places : List Spot} (h : places.length ≤ 1) :
    ∃ p : Spot, ∀ w, p.Fits w → Meets places w := by
  match places, h with
  | [], _ => exact ⟨.comment, fun w _ => meets_nil w⟩
  | [p], _ => exact ⟨p, fun w hw => meets_singleton.mpr hw⟩

/-- What is between two drafts: gaps, as many as counted, in these places, and no gap is both there and
ahead. -/
structure Passes (places : List Spot) (gaps : ℕ) (d d' : Draft) : Prop where
  tail : d'.Tail d
  gaps_le : gaps ≤ places.length
  length_le : places.length + d'.gaps ≤ d.gaps

namespace Passes

variable {ps qs : List Spot} {n m : ℕ} {d d₁ d' : Draft}

/-- What has no gaps in it is passed without any. -/
theorem of_tail (h : d'.Tail d) : Passes [] 0 d d' := ⟨h, le_rfl, by simpa using h.gaps_le⟩

/-- What is passed with gaps is passed with fewer. -/
theorem mono (h : Passes ps n d d') (hle : m ≤ n) : Passes ps m d d' :=
  ⟨h.tail, hle.trans h.gaps_le, h.length_le⟩

/-- What is passed one after the other is passed with the gaps of both. -/
theorem trans (h : Passes ps n d d₁) (h' : Passes qs m d₁ d') :
    Passes (ps ++ qs) (n + m) d d' := by
  have hle := h.length_le
  have hle' := h'.length_le
  refine ⟨h.tail.trans h'.tail, ?_, ?_⟩ <;> rw [List.length_append]
  · exact Nat.add_le_add h.gaps_le h'.gaps_le
  · omega

/-- Gaps behind something without gaps. -/
theorem behind (h : Passes qs m d₁ d') (htail : d₁.Tail d) : Passes qs m d d' :=
  ⟨htail.trans h.tail, h.gaps_le, h.length_le.trans htail.gaps_le⟩

/-- Gaps before something without gaps. -/
theorem before (h : Passes ps n d d₁) (htail : d'.Tail d₁) : Passes ps n d d' := by
  have hle := htail.gaps_le
  have hlen := h.length_le
  exact ⟨h.tail.trans htail, h.gaps_le, by omega⟩

end Passes

/-- Basic strings hold what comments hold, apart from their mark and the backslash. -/
theorem isBasicChar_iff : isBasicChar c = true ↔
    isCommentChar c = true ∧ c ≠ '\x22' ∧ c ≠ '\\' := by
  by_cases htab : c = '\x09'
  · simp [isBasicChar, isCommentChar, htab]
  · simp only [isBasicChar, isCommentChar, htab, decide_false, Bool.false_or, Bool.and_eq_true,
      bne_iff_ne, and_assoc]

/-- Literal strings hold what comments hold, apart from their mark. -/
theorem isLiteralChar_iff : isLiteralChar c = true ↔ isCommentChar c = true ∧ c ≠ '\x27' := by
  by_cases htab : c = '\x09'
  · simp [isLiteralChar, isCommentChar, htab]
  · simp only [isLiteralChar, isCommentChar, htab, decide_false, Bool.false_or, Bool.and_eq_true,
      bne_iff_ne]

/-- A plain character may stand in a comment. -/
theorem IsPlain.isCommentChar (h : IsPlain c) : isCommentChar c = true := (isBasicChar_iff.mp h.1).1

/-- A plain word fits a comment. -/
theorem forall_isCommentChar (hw : ∀ c ∈ w, IsPlain c) : ∀ c ∈ w, isCommentChar c = true :=
  fun c hc => (hw c hc).isCommentChar

/-- A plain character may stand in a literal string. -/
theorem IsPlain.isLiteralChar (h : IsPlain c) : isLiteralChar c = true :=
  isLiteralChar_iff.mpr ⟨h.isCommentChar, h.2⟩

/-- A plain word that starts with a dollar sign fits every gap. -/
theorem meets_dollar {word : List Char} (hword : ∀ c ∈ '$' :: word, IsPlain c)
    (places : List Spot) : Meets places ('$' :: word) := by
  intro p _
  cases p with
  | basic => exact fun c hc => (hword c hc).1
  | literal => exact fun c hc => (hword c hc).isLiteralChar
  | basicLines => exact ⟨fun c hc => .inl (hword c hc).1, '$', word, rfl, by decide⟩
  | literalLines => exact ⟨fun c hc => .inl (hword c hc).isLiteralChar, '$', word, rfl, by decide⟩
  | comment => exact forall_isCommentChar hword

/-- Digits that write a code point are hexadecimal. -/
theorem not_mem_of_codePoint? {digits : List Char} {named : Char}
    (h : codePoint? digits = some named) (hk : isDigitOf 16 k = false) : k ∉ digits := by
  intro hmem
  obtain ⟨n, hn, -⟩ := Option.bind_eq_some_iff.mp h
  unfold number? at hn
  split_ifs at hn with hdigits
  have hall := List.all_eq_true.mp (Bool.and_eq_true_iff.mp hdigits).2 k hmem
  rw [hk] at hall
  exact absurd hall (by decide)

/-! ## Escapes -/

/-- An escape with the character it names. -/
inductive Escape : List Char → Char → Prop
  /-- An escape of one letter. -/
  | named (k c : Char) (h : named? k = some c) : Escape ['\\', k] c
  /-- An escape of four digits. -/
  | short (a b c d named : Char) (h : codePoint? [a, b, c, d] = some named) :
      Escape ['\\', 'u', a, b, c, d] named
  /-- An escape of eight digits. -/
  | long (a b c d e f g h named : Char) (hn : codePoint? [a, b, c, d, e, f, g, h] = some named) :
      Escape ['\\', 'U', a, b, c, d, e, f, g, h] named

/-- No dollar sign is in an escape. -/
theorem Escape.not_dollar (h : Escape lead c) : '$' ∉ lead := by
  have hdigit : isDigitOf 16 '$' = false := by decide
  cases h with
  | named k c h =>
    have hk : k ≠ '$' := by
      rintro rfl
      exact absurd h.symm (Option.some_ne_none c)
    simpa using fun h => hk h.symm
  | short a b c d named h => simpa using not_mem_of_codePoint? h hdigit
  | long a b c d e f g h named hn => simpa using not_mem_of_codePoint? hn hdigit

/-- No escape is empty. -/
theorem Escape.ne_nil (h : Escape lead c) : lead ≠ [] := by
  cases h <;> exact List.cons_ne_nil _ _

/-- An escape is read as the character that it names. -/
theorem Escape.scanBasic_append (h : Escape lead c) (cs : List Char) :
    scanBasic (lead ++ cs) = (scanBasic cs).map fun out => (c :: out.1, out.2) := by
  cases h with
  | named k c h =>
    rw [List.cons_append, List.singleton_append, scanBasic]
    · simp only [h]
    · rintro - - - - - rfl
      exact absurd h.symm (Option.some_ne_none c)
    · rintro - - - - - - - - - rfl
      exact absurd h.symm (Option.some_ne_none c)
  | short a b c d named h => simp [scanBasic, h]
  | long a b c d e f g h named hn => simp [scanBasic, hn]

/-- A character of basic strings is read as itself. -/
theorem scanBasic_char (h : isBasicChar c = true) (cs : List Char) :
    scanBasic (c :: cs) = (scanBasic cs).map fun out => (c :: out.1, out.2) := by
  have hmark : c ≠ '\x22' := by
    rintro rfl
    exact absurd h (by decide)
  have hescape : c ≠ '\\' := by
    rintro rfl
    exact absurd h (by decide)
  rw [scanBasic]
  · simp only [h, if_true]
  · exact fun h => hmark h
  · simp [hescape]
  · simp [hescape]
  · simp [hescape]

/-! ## Strings on one line -/

/-- The pieces of a basic string with their text. -/
inductive BasicPiece : List Char → List Char → Prop
  /-- A character that stands for itself. -/
  | char (c : Char) (h : isBasicChar c = true) : BasicPiece [c] [c]
  /-- An escape. -/
  | escape (lead : List Char) (c : Char) (h : Escape lead c) : BasicPiece lead [c]

/-- A dollar sign in a piece is the whole piece. -/
theorem dollar_singleton (c : Char) : '$' ∉ [c] ∨ [c] = ['$'] := by
  by_cases hc : c = '$'
  · exact .inr (by rw [hc])
  · exact .inl (by simpa using fun h => hc h.symm)

/-- A piece is read as its text. -/
theorem BasicPiece.scanBasic_append (h : BasicPiece lead x) (cs : List Char) :
    scanBasic (lead ++ cs) = (scanBasic cs).map fun out => (x ++ out.1, out.2) := by
  cases h with
  | char c h => exact scanBasic_char h cs
  | escape lead c h => exact h.scanBasic_append cs

/-- A basic string that is not over yet starts with a piece. -/
theorem scanBasic_cases (h : scanBasic cs = some (x, rest)) :
    cs = '\x22' :: rest ∧ x = [] ∨ ∃ lead y more x', BasicPiece lead y ∧ cs = lead ++ more ∧
      x = y ++ x' ∧ scanBasic more = some (x', rest) := by
  have hpiece : ∀ lead y more, cs = lead ++ more → BasicPiece lead y →
      ∃ lead y more x', BasicPiece lead y ∧ cs = lead ++ more ∧ x = y ++ x' ∧
        scanBasic more = some (x', rest) := by
    intro lead y more hcs hlead
    rw [hcs, hlead.scanBasic_append] at h
    obtain ⟨x', hmore, hx⟩ := exists_of_map_eq_some h
    exact ⟨lead, y, more, x', hlead, hcs, hx.symm, hmore⟩
  -- The branches of the reader in its order: no text left, the closing mark, the two numbered
  -- escapes, the named ones, and a character of its own.
  unfold scanBasic at h
  split at h
  · simp at h
  · obtain ⟨rfl, rfl⟩ := Prod.mk.inj (Option.some.inj h)
    exact .inl ⟨rfl, rfl⟩
  · rename_i a b c d more
    split at h
    · rename_i named hnamed
      exact .inr (hpiece ['\\', 'u', a, b, c, d] _ more rfl
        (.escape _ _ (.short a b c d named hnamed)))
    · simp at h
  · rename_i a b c d e f g h' more
    split at h
    · rename_i named hnamed
      exact .inr (hpiece ['\\', 'U', a, b, c, d, e, f, g, h'] _ more rfl
        (.escape _ _ (.long a b c d e f g h' named hnamed)))
    · simp at h
  · rename_i k more _ _
    split at h
    · rename_i named hnamed
      exact .inr (hpiece ['\\', k] _ more rfl (.escape _ _ (.named k named hnamed)))
    · simp at h
  · rename_i c more _ _ _ _
    split_ifs at h with hc
    exact .inr (hpiece [c] _ more rfl (.char c hc))

/-- A basic string is read piece by piece up to its closing mark. -/
theorem piecewise_scanBasic {word : List Char} (hword : ∀ c ∈ '$' :: word, IsPlain c) :
    Piecewise (FitsLine isBasicChar) '$' word 1 (fun _ : Unit => scanBasic)
      (fun _ lead y _ _ => BasicPiece lead y) (fun _ cs x rest => cs = '\x22' :: rest ∧ x = []) := by
  refine .ofMark (by decide) (fun c hc => (hword c hc).1) (fun cs => ?_) scanBasic_cases
    BasicPiece.scanBasic_append (fun h hnil => ?_) (fun h => ?_) (fun c hc => .char c hc)
  · rw [scanBasic]
  · cases h with
    | char c h => exact List.cons_ne_nil _ _ hnil
    | escape lead c h => exact h.ne_nil hnil
  · cases h with
    | char c h => exact dollar_singleton c
    | escape lead c h => exact .inl h.not_dollar

/-- A literal string is read character by character up to its closing mark. -/
theorem piecewise_scanLiteral {word : List Char} (hword : ∀ c ∈ '$' :: word, IsPlain c) :
    Piecewise (FitsLine isLiteralChar) '$' word 1 (fun _ : Unit => scanLiteral)
      (fun _ lead y _ _ => ∃ c, lead = [c] ∧ y = [c] ∧ isLiteralChar c = true)
      (fun _ cs x rest => cs = '\x27' :: rest ∧ x = []) := by
  have hpiece : ∀ c, isLiteralChar c = true → ∀ cs,
      scanLiteral (c :: cs) = (scanLiteral cs).map fun out => (c :: out.1, out.2) := by
    intro c hc cs
    rw [scanLiteral]
    · simp only [hc, if_true]
    · rintro rfl
      exact absurd hc (by decide)
  refine .ofMark (by decide) (fun c hc => (hword c hc).isLiteralChar) (fun cs => ?_)
    (fun {cs x rest} h => ?_) ?_ ?_ ?_ (fun c hc => ⟨c, rfl, rfl, hc⟩)
  · rw [scanLiteral]
  · unfold scanLiteral at h
    split at h
    · simp at h
    · obtain ⟨rfl, rfl⟩ := Prod.mk.inj (Option.some.inj h)
      exact .inl ⟨rfl, rfl⟩
    · rename_i c more _
      split_ifs at h with hc
      obtain ⟨x', hmore, rfl⟩ := exists_of_map_eq_some h
      exact .inr ⟨[c], [c], more, x', ⟨c, rfl, rfl, hc⟩, rfl, rfl, hmore⟩
  · rintro _ _ ⟨c, rfl, rfl, hc⟩ cs
    exact hpiece c hc cs
  · rintro _ _ ⟨c, rfl, rfl, hc⟩
    exact List.cons_ne_nil _ _
  · rintro _ _ ⟨c, rfl, rfl, hc⟩
    exact dollar_singleton c

/-! ## Strings over several lines -/

/-- The end of a string over several lines: three marks with up to two more in front. -/
def IsLinesEnd (mark : Char) (cs x rest : List Char) : Prop :=
  ∃ n ≤ 2, cs = List.replicate (3 + n) mark ++ rest ∧ x = List.replicate n mark ∧
    (n < 2 → ∀ z, rest ≠ mark :: z)

/-- The pieces of a basic string over several lines. The states say whether blanks and line ends are
dropped before and after the piece. -/
inductive LinesPiece : Bool → List Char → List Char → Bool → List Char → Prop
  /-- A line end. -/
  | feed (lead more : List Char) (h : lead = ['\x0a'] ∨ lead = ['\x0d', '\x0a']) :
      LinesPiece false lead ['\x0a'] false more
  /-- A line end that is dropped. -/
  | droppedFeed (lead more : List Char) (h : lead = ['\x0a'] ∨ lead = ['\x0d', '\x0a']) :
      LinesPiece true lead [] true more
  /-- An escape. -/
  | escape (s : Bool) (lead more : List Char) (c : Char) (h : Escape lead c) :
      LinesPiece s lead [c] false more
  /-- A backslash at the end of a line. -/
  | continuation (s : Bool) (more : List Char) (h : endsLine more = true) :
      LinesPiece s ['\\'] [] true more
  /-- A blank that is dropped. -/
  | blank (c : Char) (more : List Char) (h : isSpace c = true) : LinesPiece true [c] [] true more
  /-- A character that stands for itself. -/
  | char (s : Bool) (c : Char) (more : List Char) (h : isBasicChar c = true)
      (hs : (s && isSpace c) = false) : LinesPiece s [c] [c] false more
  /-- A mark that does not start the end. -/
  | mark (s : Bool) (more : List Char) (h : ∀ z, more ≠ '\x22' :: '\x22' :: z) :
      LinesPiece s ['\x22'] ['\x22'] false more

/-- An escape is read as the character that it names, and nothing is dropped after it. -/
theorem Escape.scanBasicLines_append (h : Escape lead c) (s : Bool) (cs : List Char) :
    scanBasicLines s (lead ++ cs) =
      (scanBasicLines false cs).map fun out => (c :: out.1, out.2) := by
  cases h with
  | named k c h =>
    rw [List.cons_append, List.singleton_append, scanBasicLines]
    · simp only [h]
    · rintro - - - - - rfl
      exact absurd h.symm (Option.some_ne_none c)
    · rintro - - - - - - - - - rfl
      exact absurd h.symm (Option.some_ne_none c)
  | short a b c d named h => simp [scanBasicLines, h]
  | long a b c d e f g h named hn => simp [scanBasicLines, hn]

/-- The head of a text that ends a line is no letter of an escape. -/
theorem exists_of_endsLine (h : endsLine cs = true) :
    ∃ c more, cs = c :: more ∧ named? c = none ∧ c ≠ 'u' ∧ c ≠ 'U' := by
  cases cs with
  | nil => exact absurd h (by decide)
  | cons c more =>
    refine ⟨c, more, rfl, ?_⟩
    by_cases hc : c = ' ' ∨ c = '\x09' ∨ c = '\x0a' ∨ c = '\x0d'
    · rcases hc with rfl | rfl | rfl | rfl <;> decide
    · simp only [not_or] at hc
      have hspace : isSpace c = false := by simp [isSpace, hc.1, hc.2.1]
      rw [endsLine, skipSpace, List.dropWhile_cons_of_neg (by simp [hspace])] at h
      exact absurd h (by simp [lineEnd?, hc.2.2.1, hc.2.2.2])

/-- A character of basic strings is read as itself unless blanks are dropped. -/
theorem scanBasicLines_char {s : Bool} (h : isBasicChar c = true) (hs : (s && isSpace c) = false)
    (cs : List Char) :
    scanBasicLines s (c :: cs) =
      (scanBasicLines false cs).map fun out => (c :: out.1, out.2) := by
  have hne : ∀ k, isBasicChar k = false → c ≠ k := by
    rintro k hk rfl
    rw [h] at hk
    exact absurd hk (by decide)
  have hfeed := hne '\x0a' (by decide)
  have hreturn := hne '\x0d' (by decide)
  have hmark := hne '\x22' (by decide)
  have hescape := hne '\\' (by decide)
  rw [scanBasicLines]
  · simp [h, hs]
  all_goals simp [hfeed, hreturn, hmark, hescape]

/-- A piece is read as its text. -/
theorem LinesPiece.scanBasicLines_append {s s' : Bool} {y more : List Char}
    (h : LinesPiece s lead y s' more) :
    scanBasicLines s (lead ++ more) =
      (scanBasicLines s' more).map fun out => (y ++ out.1, out.2) := by
  cases h with
  | feed lead more h =>
    rcases h with rfl | rfl <;> simp [scanBasicLines]
  | droppedFeed lead more h =>
    rcases h with rfl | rfl <;> simp [scanBasicLines]
  | escape s lead more c h => exact h.scanBasicLines_append s more
  | continuation s more h =>
    obtain ⟨c, more, rfl, hnamed, hu, hU⟩ := exists_of_endsLine h
    rw [List.singleton_append, scanBasicLines]
    · simp [hnamed, h]
    · simp [hu]
    · simp [hU]
  | blank c more h =>
    have hc : c = ' ' ∨ c = '\x09' := by simpa [isSpace] using h
    rw [List.singleton_append, scanBasicLines]
    · simp [h]
    all_goals rcases hc with rfl | rfl <;> simp
  | char s c more h hs => exact scanBasicLines_char h hs more
  | mark s more h =>
    rw [List.singleton_append, scanBasicLines]
    · simp [isSpace]
    all_goals simp_all

/-- The end of a basic string over several lines is read as its marks in front. -/
theorem scanBasicLines_end {s : Bool} (h : IsLinesEnd '\x22' cs x rest) :
    scanBasicLines s cs = some (x, rest) := by
  obtain ⟨n, hn, rfl, rfl, hrest⟩ := h
  obtain rfl | rfl | rfl : n = 0 ∨ n = 1 ∨ n = 2 := by omega
  · have hrest' := hrest (by decide)
    simp only [List.replicate_succ, List.replicate_zero, List.cons_append, List.nil_append]
    rw [scanBasicLines]
    all_goals simp_all
  · have hrest' := hrest (by decide)
    simp only [List.replicate_succ, List.replicate_zero, List.cons_append, List.nil_append]
    rw [scanBasicLines]
    all_goals simp_all
  · simp [List.replicate_succ, scanBasicLines]

/-- A basic string over several lines that is not over yet starts with a piece. -/
theorem scanBasicLines_cases {s : Bool} (h : scanBasicLines s cs = some (x, rest)) :
    IsLinesEnd '\x22' cs x rest ∨ ∃ lead y s' more x', LinesPiece s lead y s' more ∧
      cs = lead ++ more ∧ x = y ++ x' ∧ scanBasicLines s' more = some (x', rest) := by
  have hpiece : ∀ lead y s' more, cs = lead ++ more → LinesPiece s lead y s' more →
      ∃ lead y s' more x', LinesPiece s lead y s' more ∧ cs = lead ++ more ∧ x = y ++ x' ∧
        scanBasicLines s' more = some (x', rest) := by
    intro lead y s' more hcs hlead
    rw [hcs, hlead.scanBasicLines_append] at h
    obtain ⟨x', hmore, hx⟩ := exists_of_map_eq_some h
    exact ⟨lead, y, s', more, x', hlead, hcs, hx.symm, hmore⟩
  -- The branches of the reader in its order. A line feed is text or is dropped, depending on
  -- whether blanks are being skipped.
  unfold scanBasicLines at h
  split at h
  · simp at h
  · rename_i more
    cases s
    · exact .inr (hpiece ['\x0a'] _ _ more rfl (.feed _ more (.inl rfl)))
    · exact .inr (hpiece ['\x0a'] _ _ more rfl (.droppedFeed _ more (.inl rfl)))
  · rename_i more
    cases s
    · exact .inr (hpiece ['\x0d', '\x0a'] _ _ more rfl (.feed _ more (.inr rfl)))
    · exact .inr (hpiece ['\x0d', '\x0a'] _ _ more rfl (.droppedFeed _ more (.inr rfl)))
  -- Five, four and three marks end the string with two, one and no mark as text.
  · obtain ⟨rfl, rfl⟩ := Prod.mk.inj (Option.some.inj h)
    exact .inl ⟨2, le_rfl, rfl, rfl, fun h => absurd h (by decide)⟩
  · rename_i hmark
    obtain ⟨rfl, rfl⟩ := Prod.mk.inj (Option.some.inj h)
    exact .inl ⟨1, by decide, rfl, rfl, fun _ z hz => hmark z hz⟩
  · rename_i more hfive hfour
    obtain ⟨rfl, rfl⟩ := Prod.mk.inj (Option.some.inj h)
    exact .inl ⟨0, by decide, rfl, rfl, fun _ z hz => hfour z hz⟩
  -- Escapes come next; a backslash that names nothing has to end its line.
  · rename_i a b c d more
    split at h
    · rename_i named hnamed
      exact .inr (hpiece ['\\', 'u', a, b, c, d] _ _ more rfl
        (.escape s _ more _ (.short a b c d named hnamed)))
    · simp at h
  · rename_i a b c d e f g h' more
    split at h
    · rename_i named hnamed
      exact .inr (hpiece ['\\', 'U', a, b, c, d, e, f, g, h'] _ _ more rfl
        (.escape s _ more _ (.long a b c d e f g h' named hnamed)))
    · simp at h
  · rename_i k more _ _
    split at h
    · rename_i named hnamed
      exact .inr (hpiece ['\\', k] _ _ more rfl (.escape s _ more _ (.named k named hnamed)))
    · split_ifs at h with hends
      exact .inr (hpiece ['\\'] _ _ (k :: more) rfl (.continuation s _ hends))
  -- What is left is one character, which can be a mark that two others do not follow.
  · rename_i c more _ _ _ _ hthree _ _ _
    split_ifs at h with hblank hc
    · obtain ⟨rfl, hspace⟩ := Bool.and_eq_true_iff.mp hblank
      exact .inr (hpiece [c] _ _ more rfl (.blank c more hspace))
    · by_cases hmark : c = '\x22'
      · subst hmark
        exact .inr (hpiece ['\x22'] _ _ more rfl (.mark s more fun z hz => hthree z rfl hz))
      · have hbasic : isBasicChar c = true := by simpa [hmark] using hc
        exact .inr (hpiece [c] _ _ more rfl (.char s c more hbasic (by simpa using hblank)))

/-! ### With a gap -/

section

variable {word : List Char} {d : Draft}

/-- A line end is a line feed, which a carriage return may precede. -/
theorem lineEnd?_eq_some : lineEnd? cs = some rest ↔
    ∃ lead, (lead = ['\x0a'] ∨ lead = ['\x0d', '\x0a']) ∧ cs = lead ++ rest := by
  constructor
  · intro h
    unfold lineEnd? at h
    split at h
    · obtain rfl := Option.some.inj h
      exact ⟨_, .inl rfl, rfl⟩
    · obtain rfl := Option.some.inj h
      exact ⟨_, .inr rfl, rfl⟩
    · simp at h
  · rintro ⟨lead, rfl | rfl, rfl⟩ <;> rfl

/-- A line end stands before the gap or behind it. -/
theorem lineEnd?_draft (h : lineEnd? (d.fill ('$' :: word)) = some rest) :
    ∃ d' : Draft, d'.Tail d ∧ d'.fill ('$' :: word) = rest ∧
      ∀ w, lineEnd? (d.fill w) = some (d'.fill w) := by
  obtain ⟨lead, hlead, hd⟩ := lineEnd?_eq_some.mp h
  have hdollar : '$' ∉ lead := by rcases hlead with rfl | rfl <;> decide
  obtain ⟨d', rfl, rfl⟩ := Draft.peel lead hd hdollar
  exact ⟨d', .prepend lead d', rfl, fun w =>
    lineEnd?_eq_some.mpr ⟨lead, hlead, Draft.fill_prepend w lead d'⟩⟩

/-- What ends a line before or behind the gap ends it with every word. -/
theorem endsLine_draft (h : endsLine (d.fill ('$' :: word)) = true) (w : List Char) :
    endsLine (d.fill w) = true := by
  obtain ⟨rest, hrest⟩ := Option.isSome_iff_exists.mp h
  obtain ⟨d₁, -, hskip, -⟩ := Draft.dropWhile (show isSpace '$' = false by decide) fun z hz => by
    obtain ⟨lead, hlead, hcs⟩ := lineEnd?_eq_some.mp hrest
    rw [skipSpace, hz] at hcs
    rcases hlead with rfl | rfl <;> simp at hcs
  rw [skipSpace, hskip] at hrest
  obtain ⟨d', -, -, hline⟩ := lineEnd?_draft hrest
  rw [endsLine, skipSpace, hskip, hline]
  rfl

/-- With a word that starts firmly, and with every word if enough stands before the gap, a draft
starts with a mark only if it does with the word that starts with a dollar sign. -/
theorem not_prefix_fill {plain firm : Char → Bool} {mark : List Char}
    (hw : FitsLines plain firm w ∨ d.Beyond mark.length) (hmark : ∀ m ∈ mark, firm m = false)
    (h : ¬ mark <+: d.fill ('$' :: word)) : ¬ mark <+: d.fill w := by
  intro hprefix
  rcases hw with ⟨-, c, w, rfl, hc⟩ | hbeyond
  · rcases d with ⟨front, back⟩ | text
    · have hfront : front ++ [c] <+: (Draft.gapped front back).fill (c :: w) :=
        ⟨w ++ back, by simp⟩
      have hfresh : ¬ front ++ [c] <+: mark := fun hlead =>
        absurd (hmark c (hlead.subset (by simp))) (by simp [hc])
      rcases List.prefix_or_prefix_of_prefix hprefix hfront with hlead | hlead
      · rcases List.prefix_concat_iff.mp hlead with rfl | hlead
        · exact hfresh (List.prefix_refl _)
        · refine h (hlead.trans ?_)
          rw [Draft.fill_gapped, List.append_assoc]
          exact List.prefix_append _ _
      · exact hfresh hlead
    · exact h hprefix
  · have htake := List.prefix_iff_eq_take.mp hprefix
    rw [hbeyond.take_fill w ('$' :: word)] at htake
    exact h (List.prefix_iff_eq_take.mpr htake)

/-- Two marks do not come next with a word in the gap if they do not with the dollar sign. -/
theorem fill_ne_two {plain firm : Char → Bool} {m : Char}
    (hw : FitsLines plain firm w ∨ d.Beyond 2) (hm : firm m = false)
    (h : ∀ z, d.fill ('$' :: word) ≠ m :: m :: z) (z : List Char) : d.fill w ≠ m :: m :: z := by
  intro hz
  have hmarks : ¬ [m, m] <+: d.fill ('$' :: word) := fun ⟨z', hz'⟩ => h z' hz'.symm
  exact not_prefix_fill hw (by simp [hm]) hmarks ⟨z, hz.symm⟩

/-- The end of a string stands before the gap or behind it. -/
theorem isLinesEnd_draft {mark : Char} (hmark : mark ≠ '$')
    (h : IsLinesEnd mark (d.fill ('$' :: word)) x rest) (hdollar : ∀ z, rest ≠ '$' :: z) :
    ∃ (lead : List Char) (d' : Draft), d = d'.prepend lead ∧ 2 ≤ lead.length ∧
      ∀ w, IsLinesEnd mark (d.fill w) x (d'.fill w) := by
  obtain ⟨n, hn, hd, rfl, hrest⟩ := h
  have hnot : '$' ∉ List.replicate (3 + n) mark := fun hmem =>
    hmark (List.eq_of_mem_replicate hmem).symm
  obtain ⟨d', rfl, rfl⟩ := Draft.peel _ hd hnot
  refine ⟨_, d', rfl, by rw [List.length_replicate]; omega, fun w => ?_⟩
  exact ⟨n, hn, Draft.fill_prepend w _ d', rfl, fun hlt => Draft.fill_ne hdollar (hrest hlt) w⟩

/-- A fitting word is taken as it is, also where blanks are dropped. -/
theorem scanBasicLines_word {s : Bool} (hw : FitsLines isBasicChar isFirmChar w)
    (cs : List Char) : scanBasicLines s (w ++ cs) =
      (scanBasicLines false cs).map fun out => (w ++ out.1, out.2) := by
  have hchar : ∀ c, isBasicChar c = true ∨ c = '\x0a' → ∀ cs, scanBasicLines false (c :: cs) =
      (scanBasicLines false cs).map fun out => (c :: out.1, out.2) := by
    rintro c (hc | rfl) cs
    · exact scanBasicLines_char hc rfl cs
    · exact (LinesPiece.feed ['\x0a'] cs (.inl rfl)).scanBasicLines_append
  obtain ⟨hplain, c, w, rfl, hc⟩ := hw
  obtain ⟨hbasic, hspace⟩ := Bool.and_eq_true_iff.mp hc
  rw [List.cons_append, scanBasicLines_char hbasic (by simpa using fun _ => hspace),
    read_word hchar fun c' hc' => hplain c' (List.mem_cons_of_mem c hc'), Option.map_map]
  rfl

/-- A basic string over several lines is read piece by piece up to its end. -/
theorem piecewise_scanBasicLines (hword : ∀ c ∈ '$' :: word, IsPlain c) :
    Piecewise (FitsLines isBasicChar isFirmChar) '$' word 2 scanBasicLines LinesPiece
      (fun _ cs x rest => IsLinesEnd '\x22' cs x rest) where
  read_cases := scanBasicLines_cases
  read_end := scanBasicLines_end
  read_piece := LinesPiece.scanBasicLines_append
  piece_ne_nil := by
    intro s lead y s' more h
    cases h with
    | feed lead more h | droppedFeed lead more h => rcases h with rfl | rfl <;> simp
    | escape s lead more c h => exact h.ne_nil
    | _ => exact List.cons_ne_nil _ _
  end_draft := isLinesEnd_draft (by decide)
  piece_draft := by
    intro s lead y s' more h
    cases h with
    | feed lead more h | droppedFeed lead more h =>
      rcases h with rfl | rfl <;> exact .inl (by decide)
    | escape s lead more c h => exact .inl h.not_dollar
    | _ => exact dollar_singleton _
  more_draft := by
    intro s lead y s' d h w hw
    generalize hmore : d.fill ('$' :: word) = more at h
    cases h with
    | feed lead more h => exact .feed lead _ h
    | droppedFeed lead more h => exact .droppedFeed lead _ h
    | escape s lead more c h => exact .escape s lead _ c h
    | continuation s more h => exact .continuation s _ (endsLine_draft (hmore ▸ h) w)
    | blank c more h => exact .blank c _ h
    | char s c more h hs => exact .char s c _ h hs
    | mark s more h =>
      exact .mark s _ (fill_ne_two hw (by decide) (hmore ▸ h))
  read_gap := by
    intro s back x rest h
    have hfits : Spot.basicLines.Fits ('$' :: word) :=
      meets_dollar hword _ _ (List.mem_singleton_self _)
    rw [scanBasicLines_word hfits] at h
    obtain ⟨x', hback, -⟩ := exists_of_map_eq_some h
    exact ⟨x', fun w hw => by rw [scanBasicLines_word hw, hback, Option.map_some]⟩

/-! ### Literal strings -/

/-- The pieces of a literal string over several lines with their text. -/
inductive LiteralPiece : List Char → List Char → List Char → Prop
  /-- A line end with a carriage return. -/
  | feed (more : List Char) : LiteralPiece ['\x0d', '\x0a'] ['\x0a'] more
  /-- A character that stands for itself, or a line feed. -/
  | char (c : Char) (more : List Char) (h : isLiteralChar c = true ∨ c = '\x0a') :
      LiteralPiece [c] [c] more
  /-- A mark that does not start the end. -/
  | mark (more : List Char) (h : ∀ z, more ≠ '\x27' :: '\x27' :: z) :
      LiteralPiece ['\x27'] ['\x27'] more

/-- A piece is read as its text. -/
theorem LiteralPiece.scanLiteralLines_append {y more : List Char} (h : LiteralPiece lead y more) :
    scanLiteralLines (lead ++ more) =
      (scanLiteralLines more).map fun out => (y ++ out.1, out.2) := by
  cases h with
  | feed more => simp [scanLiteralLines]
  | char c more h =>
    have hne : ∀ k, isLiteralChar k = false → k ≠ '\x0a' → c ≠ k := by
      rintro k hk hfeed rfl
      rcases h with h | h
      · rw [h] at hk
        exact absurd hk (by decide)
      · exact hfeed h
    have hreturn := hne '\x0d' (by decide) (by decide)
    have hmark := hne '\x27' (by decide) (by decide)
    rw [List.singleton_append, scanLiteralLines]
    · rcases h with h | h <;> simp [h]
    all_goals simp [hreturn, hmark]
  | mark more h =>
    rw [List.singleton_append, scanLiteralLines]
    · simp
    all_goals simp_all

/-- The end of a literal string over several lines is read as its marks in front. -/
theorem scanLiteralLines_end (h : IsLinesEnd '\x27' cs x rest) :
    scanLiteralLines cs = some (x, rest) := by
  obtain ⟨n, hn, rfl, rfl, hrest⟩ := h
  obtain rfl | rfl | rfl : n = 0 ∨ n = 1 ∨ n = 2 := by omega
  · have hrest' := hrest (by decide)
    simp only [List.replicate_succ, List.replicate_zero, List.cons_append, List.nil_append]
    rw [scanLiteralLines]
    all_goals simp_all
  · have hrest' := hrest (by decide)
    simp only [List.replicate_succ, List.replicate_zero, List.cons_append, List.nil_append]
    rw [scanLiteralLines]
    all_goals simp_all
  · simp [List.replicate_succ, scanLiteralLines]

/-- A literal string over several lines that is not over yet starts with a piece. -/
theorem scanLiteralLines_cases (h : scanLiteralLines cs = some (x, rest)) :
    IsLinesEnd '\x27' cs x rest ∨ ∃ lead y more x', LiteralPiece lead y more ∧
      cs = lead ++ more ∧ x = y ++ x' ∧ scanLiteralLines more = some (x', rest) := by
  have hpiece : ∀ lead y more, cs = lead ++ more → LiteralPiece lead y more →
      ∃ lead y more x', LiteralPiece lead y more ∧ cs = lead ++ more ∧ x = y ++ x' ∧
        scanLiteralLines more = some (x', rest) := by
    intro lead y more hcs hlead
    rw [hcs, hlead.scanLiteralLines_append] at h
    obtain ⟨x', hmore, hx⟩ := exists_of_map_eq_some h
    exact ⟨lead, y, more, x', hlead, hcs, hx.symm, hmore⟩
  unfold scanLiteralLines at h
  split at h
  · simp at h
  · rename_i more
    exact .inr (hpiece ['\x0d', '\x0a'] _ more rfl (.feed more))
  · obtain ⟨rfl, rfl⟩ := Prod.mk.inj (Option.some.inj h)
    exact .inl ⟨2, le_rfl, rfl, rfl, fun h => absurd h (by decide)⟩
  · rename_i hmark
    obtain ⟨rfl, rfl⟩ := Prod.mk.inj (Option.some.inj h)
    exact .inl ⟨1, by decide, rfl, rfl, fun _ z hz => hmark z hz⟩
  · rename_i hfour
    obtain ⟨rfl, rfl⟩ := Prod.mk.inj (Option.some.inj h)
    exact .inl ⟨0, by decide, rfl, rfl, fun _ z hz => hfour z hz⟩
  · rename_i c more _ _ _ hthree
    split_ifs at h with hc
    by_cases hmark : c = '\x27'
    · subst hmark
      exact .inr (hpiece ['\x27'] _ more rfl (.mark more fun z hz => hthree z rfl hz))
    · exact .inr (hpiece [c] _ more rfl (.char c more (by simpa [hmark] using hc)))

/-- A literal string over several lines is read piece by piece up to its end. -/
theorem piecewise_scanLiteralLines (hword : ∀ c ∈ '$' :: word, IsPlain c) :
    Piecewise (FitsLines isLiteralChar isLiteralChar) '$' word 2 (fun _ : Unit => scanLiteralLines)
      (fun _ lead y _ more => LiteralPiece lead y more)
      (fun _ cs x rest => IsLinesEnd '\x27' cs x rest) := by
  have hchar : ∀ c, isLiteralChar c = true ∨ c = '\x0a' → ∀ cs, scanLiteralLines (c :: cs) =
      (scanLiteralLines cs).map fun out => (c :: out.1, out.2) := fun c hc cs =>
    (LiteralPiece.char c cs hc).scanLiteralLines_append
  refine {
    read_cases := ?_
    read_end := scanLiteralLines_end
    read_piece := LiteralPiece.scanLiteralLines_append
    piece_ne_nil := ?_
    end_draft := isLinesEnd_draft (by decide)
    piece_draft := ?_
    more_draft := ?_
    read_gap := ?_ }
  · intro _ cs x rest h
    rcases scanLiteralLines_cases h with hend | ⟨lead, y, more, x', hlead, hcs, hx, hmore⟩
    · exact .inl hend
    · exact .inr ⟨lead, y, (), more, x', hlead, hcs, hx, hmore⟩
  · intro _ lead y _ more h
    cases h <;> exact List.cons_ne_nil _ _
  · intro _ lead y _ more h
    cases h with
    | feed more => exact .inl (by decide)
    | _ => exact dollar_singleton _
  · intro _ lead y _ d h w hw
    generalize hmore : d.fill ('$' :: word) = more at h
    cases h with
    | feed more => exact .feed _
    | char c more h => exact .char c _ h
    | mark more h =>
      exact .mark _ (fill_ne_two hw (by decide) (hmore ▸ h))
  · intro _ back x rest h
    rw [read_word hchar fun c hc => .inl (hword c hc).isLiteralChar] at h
    obtain ⟨x', hback, -⟩ := exists_of_map_eq_some h
    exact ⟨x', fun w hw => by rw [read_word hchar hw.1, hback, Option.map_some]⟩

/-! ### Strings in any form -/

/-- A string at the front of a text with what it holds and what follows it. -/
inductive StringAt : List Char → List Char → List Char → Prop
  /-- A basic string over several lines. -/
  | basicLines (cs x rest : List Char) (h : scanBasicLines false (dropLineEnd cs) = some (x, rest)) :
      StringAt ('\x22' :: '\x22' :: '\x22' :: cs) x rest
  /-- A basic string. -/
  | basic (cs x rest : List Char) (hone : ∀ z, cs ≠ '\x22' :: '\x22' :: z)
      (h : scanBasic cs = some (x, rest)) : StringAt ('\x22' :: cs) x rest
  /-- A literal string over several lines. -/
  | literalLines (cs x rest : List Char) (h : scanLiteralLines (dropLineEnd cs) = some (x, rest)) :
      StringAt ('\x27' :: '\x27' :: '\x27' :: cs) x rest
  /-- A literal string. -/
  | literal (cs x rest : List Char) (hone : ∀ z, cs ≠ '\x27' :: '\x27' :: z)
      (h : scanLiteral cs = some (x, rest)) : StringAt ('\x27' :: cs) x rest

/-- The reader finds a string exactly where one stands. -/
theorem scanString_eq_some {text : String} :
    scanString cs = some (text, rest) ↔ ∃ x, text = String.ofList x ∧ StringAt cs x rest := by
  constructor
  · intro h
    obtain ⟨x, hscan, rfl⟩ := exists_of_map_eq_some h
    refine ⟨x, rfl, ?_⟩
    split at hscan
    · exact .basicLines _ _ _ hscan
    · rename_i more hone
      exact .basic more _ _ hone hscan
    · exact .literalLines _ _ _ hscan
    · rename_i more hone
      exact .literal more _ _ hone hscan
    · simp at hscan
  · rintro ⟨x, rfl, h⟩
    cases h with
    | basicLines cs x rest h => simp [scanString, h]
    | basic cs x rest hone h => simp [scanString, h]
    | literalLines cs x rest h => simp [scanString, h]
    | literal cs x rest hone h => simp [scanString, h]

/-- Dropping a line end makes no text longer. -/
theorem length_dropLineEnd_le (cs : List Char) : (dropLineEnd cs).length ≤ cs.length := by
  unfold dropLineEnd
  cases hend : lineEnd? cs with
  | none => exact le_rfl
  | some rest =>
    obtain ⟨lead, -, rfl⟩ := lineEnd?_eq_some.mp hend
    exact (List.suffix_append lead rest).length_le

/-- The end of a string takes at least one character. -/
theorem IsLinesEnd.length_lt {mark : Char} (h : IsLinesEnd mark cs x rest) :
    rest.length < cs.length := by
  obtain ⟨n, -, rfl, -, -⟩ := h
  rw [List.length_append, List.length_replicate]
  omega

/-- A dollar sign is plain. -/
theorem plain_dollar : ∀ c ∈ ['$'], IsPlain c := List.forall_mem_singleton.mpr (by decide)

/-- A basic string takes at least one character. -/
theorem length_lt_of_scanBasic (h : scanBasic cs = some (x, rest)) : rest.length < cs.length := by
  refine (piecewise_scanBasic plain_dollar).length_lt (s := ()) ?_ h
  rintro _ cs x rest ⟨rfl, -⟩
  exact Nat.lt_succ_self _

/-- A literal string takes at least one character. -/
theorem length_lt_of_scanLiteral (h : scanLiteral cs = some (x, rest)) :
    rest.length < cs.length := by
  refine (piecewise_scanLiteral plain_dollar).length_lt (s := ()) ?_ h
  rintro _ cs x rest ⟨rfl, -⟩
  exact Nat.lt_succ_self _

/-- What is left behind a string is shorter. -/
theorem StringAt.length_lt (h : StringAt cs x rest) : rest.length < cs.length := by
  cases h with
  | basicLines cs x rest h =>
    have hlt := (piecewise_scanBasicLines plain_dollar).length_lt IsLinesEnd.length_lt h
    have hle := length_dropLineEnd_le cs
    simp only [List.length_cons]
    omega
  | basic cs x rest hone h => exact (length_lt_of_scanBasic h).trans (Nat.lt_succ_self _)
  | literalLines cs x rest h =>
    have hlt := (piecewise_scanLiteralLines plain_dollar).length_lt (s := ())
      IsLinesEnd.length_lt h
    have hle := length_dropLineEnd_le cs
    simp only [List.length_cons]
    omega
  | literal cs x rest hone h => exact (length_lt_of_scanLiteral h).trans (Nat.lt_succ_self _)

/-- What follows a string does not start with the gap or with a mark. -/
def Closes (rest : List Char) : Prop :=
  ∀ c z, rest = c :: z → c ≠ '$' ∧ c ≠ '\x22' ∧ c ≠ '\x27'

/-- What is left of a draft behind a string does not start with a mark, whatever the word is. -/
theorem Closes.fill_ne {d : Draft} {m : Char} (h : Closes (d.fill ('$' :: word)))
    (hm : m = '\x22' ∨ m = '\x27') (w z : List Char) : d.fill w ≠ m :: z := by
  refine Draft.fill_ne (fun z hz => (h _ z hz).1 rfl) (fun z hz => ?_) w z
  rcases hm with rfl | rfl
  · exact (h _ z hz).2.1 rfl
  · exact (h _ z hz).2.2 rfl

/-- A text in a place is read with the gap ahead, whatever the word is, or with the gap in that
place. -/
theorem meets_of_readsText {p : Spot} {read : List Char → Option (List Char × List Char)}
    {width : ℕ} (h : ReadsText p.Fits read width d x rest) :
    ∃ (places : List Spot) (o d' : Draft), Passes places o.gaps d d' ∧ ∀ w, Meets places w →
      (p.Fits w ∨ d.Beyond width) ∧ read (d.fill w) = some (o.fill w, d'.fill w) := by
  rcases h with ⟨d', hahead⟩ | ⟨front, back, hreads⟩
  · exact ⟨[], .whole x, d', .of_tail hahead.tail, fun w _ =>
      ⟨.inr hahead.beyond, hahead.read_eq w⟩⟩
  · refine ⟨[p], .gapped front back, .whole rest, ⟨hreads.tail, le_rfl, hreads.gaps_le⟩,
      fun w hw => ?_⟩
    have hfits := meets_singleton.mp hw
    exact ⟨.inl hfits, hreads.read_eq w hfits⟩

/-- A line end behind the opening marks is there or not, whatever the word is. -/
theorem dropLineEnd_draft (plain : Char → Bool) {firm : Char → Bool} (hfeed : firm '\x0a' = false)
    (hreturn : firm '\x0d' = false) (d : Draft) (word : List Char) :
    ∃ d' : Draft, d'.Tail d ∧ dropLineEnd (d.fill ('$' :: word)) = d'.fill ('$' :: word) ∧
      ∀ w, FitsLines plain firm w ∨ d'.Beyond 2 → dropLineEnd (d.fill w) = d'.fill w := by
  cases hend : lineEnd? (d.fill ('$' :: word)) with
  | some rest =>
    obtain ⟨d', htail, rfl, hline⟩ := lineEnd?_draft hend
    exact ⟨d', htail, by rw [dropLineEnd, hend]; rfl, fun w _ => by
      rw [dropLineEnd, hline, Option.getD_some]⟩
  | none =>
    refine ⟨d, .refl d, by rw [dropLineEnd, hend]; rfl, fun w hw => ?_⟩
    have hraw : ∀ lead, (lead = ['\x0a'] ∨ lead = ['\x0d', '\x0a']) →
        ¬ lead <+: d.fill ('$' :: word) := fun lead hlead ⟨rest, hcs⟩ =>
      Option.some_ne_none rest ((lineEnd?_eq_some.mpr ⟨lead, hlead, hcs.symm⟩).symm.trans hend)
    have hnone : lineEnd? (d.fill w) = none := by
      rw [Option.eq_none_iff_forall_ne_some]
      intro rest hrest
      obtain ⟨lead, hlead, hcs⟩ := lineEnd?_eq_some.mp hrest
      refine not_prefix_fill (hw.imp_right fun hbeyond => hbeyond.mono ?_) ?_ (hraw lead hlead)
        ⟨rest, hcs.symm⟩
      · rcases hlead with rfl | rfl <;> simp [hfeed, hreturn]
      · rcases hlead with rfl | rfl <;> decide
    rw [dropLineEnd, hnone, Option.getD_none]

/-- A string over several lines is read the same with any fitting word in the gap. -/
theorem scanLines_draft {scanLines : List Char → Option (List Char × List Char)}
    {plain firm : Char → Bool} {more : List Char} (p : Spot) (marks : List Char)
    (hd : d.fill ('$' :: word) = marks ++ more) (hmarks : '$' ∉ marks)
    (hp : ∀ {w}, p.Fits w → FitsLines plain firm w)
    (hfirm : firm '\x0a' = false ∧ firm '\x0d' = false)
    (hlines : ∀ d : Draft, scanLines (d.fill ('$' :: word)) = some (x, rest) →
      ReadsText p.Fits scanLines 2 d x rest)
    (hstring : ∀ cs x rest, scanLines (dropLineEnd cs) = some (x, rest) →
      StringAt (marks ++ cs) x rest)
    (h : scanLines (dropLineEnd more) = some (x, rest)) :
    ∃ (places : List Spot) (o d' : Draft), Passes places o.gaps d d' ∧
      ∀ w, Meets places w → StringAt (d.fill w) (o.fill w) (d'.fill w) := by
  obtain ⟨d₁, rfl, rfl⟩ := Draft.peel marks hd hmarks
  obtain ⟨d₂, htail, hdrop, hdrop'⟩ := dropLineEnd_draft plain hfirm.1 hfirm.2 d₁ word
  obtain ⟨places, o, d', hpasses, hread⟩ := meets_of_readsText (hlines d₂ (hdrop ▸ h))
  refine ⟨places, o, d', (hpasses.behind htail).behind (.prepend marks d₁), fun w hw => ?_⟩
  obtain ⟨hfits, hread⟩ := hread w hw
  rw [Draft.fill_prepend]
  refine hstring _ _ _ ?_
  rw [hdrop' w (hfits.imp_left hp)]
  exact hread

/-- A string on one line is read the same with any fitting word in the gap. -/
theorem scanLine_draft (hword : ∀ c ∈ '$' :: word, IsPlain c)
    {scanLine : List Char → Option (List Char × List Char)} {m : Char} {more : List Char}
    (p : Spot) (hd : d.fill ('$' :: word) = m :: more) (hm : m = '\x22' ∨ m = '\x27')
    (hline : ∀ d : Draft, scanLine (d.fill ('$' :: word)) = some (x, rest) →
      ReadsText p.Fits scanLine 1 d x rest)
    (hempty : ∀ z, scanLine (m :: z) = some ([], z))
    (hstring : ∀ cs x rest, (∀ z, cs ≠ m :: m :: z) → scanLine cs = some (x, rest) →
      StringAt (m :: cs) x rest)
    (h : scanLine more = some (x, rest)) (hrest : Closes rest) :
    ∃ (places : List Spot) (o d' : Draft), Passes places o.gaps d d' ∧
      ∀ w, Meets places w → StringAt (d.fill w) (o.fill w) (d'.fill w) := by
  have hdollar : '$' ∉ [m] := by rcases hm with rfl | rfl <;> decide
  obtain ⟨d₁, rfl, rfl⟩ := Draft.peel [m] hd hdollar
  obtain ⟨places, o, d', hpasses, hread⟩ := meets_of_readsText (hline d₁ h)
  have hraw := h.symm.trans (hread _ (meets_dollar hword places)).2
  rw [Option.some.injEq, Prod.mk.injEq] at hraw
  obtain ⟨-, rfl⟩ := hraw
  refine ⟨places, o, d', hpasses.behind (.prepend [m] d₁), fun w hw => ?_⟩
  obtain ⟨-, hread⟩ := hread w hw
  rw [Draft.fill_prepend, List.singleton_append]
  refine hstring _ _ _ (fun z hz => ?_) hread
  -- with three marks in front the string would be empty and a mark would follow it
  rw [hz, hempty, Option.some.injEq, Prod.mk.injEq] at hread
  exact hrest.fill_ne hm w z hread.2.symm

/-- A string is read the same with any fitting word in the gap, in the string or behind it. -/
theorem scanString_draft (hword : ∀ c ∈ '$' :: word, IsPlain c) {text : String}
    (h : scanString (d.fill ('$' :: word)) = some (text, rest)) (hrest : Closes rest) :
    ∃ (places : List Spot) (o d' : Draft), Passes places o.gaps d d' ∧ ∀ w, Meets places w →
      scanString (d.fill w) = some (String.ofList (o.fill w), d'.fill w) := by
  have hdollar : ∀ z, rest ≠ '$' :: z := fun z hz => (hrest _ z hz).1 rfl
  obtain ⟨x, rfl, hstring⟩ := scanString_eq_some.mp h
  suffices hat : ∃ (places : List Spot) (o d' : Draft), Passes places o.gaps d d' ∧
      ∀ w, Meets places w → StringAt (d.fill w) (o.fill w) (d'.fill w) by
    obtain ⟨places, o, d', hpasses, hat⟩ := hat
    exact ⟨places, o, d', hpasses, fun w hw => scanString_eq_some.mpr ⟨_, rfl, hat w hw⟩⟩
  generalize hcs : d.fill ('$' :: word) = cs at hstring
  cases hstring with
  | basicLines cs x rest h =>
    exact scanLines_draft .basicLines ['\x22', '\x22', '\x22'] hcs (by decide) id (by decide)
      (fun d hread => (piecewise_scanBasicLines hword).reads false hread hdollar) .basicLines h
  | literalLines cs x rest h =>
    exact scanLines_draft .literalLines ['\x27', '\x27', '\x27'] hcs (by decide) id (by decide)
      (fun d hread => (piecewise_scanLiteralLines hword).reads () hread hdollar) .literalLines h
  | basic cs x rest hone h =>
    exact scanLine_draft hword .basic hcs (.inl rfl)
      (fun d hread => (piecewise_scanBasic hword).reads () hread hdollar)
      (fun z => by rw [scanBasic]) .basic h hrest
  | literal cs x rest hone h =>
    exact scanLine_draft hword .literal hcs (.inr rfl)
      (fun d hread => (piecewise_scanLiteral hword).reads () hread hdollar)
      (fun z => by rw [scanLiteral]) .literal h hrest

end

end Repertoire.Toml.Literal
