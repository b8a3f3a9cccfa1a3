import Mathlib.Tactic.SplitIfs
import Repertoire.Json.Value
import Repertoire.Proofs.Text.Token

/-!
# JSON literals and numbers with a gap

A literal is read piece by piece, and a plain word is as many pieces as it has characters. So a gap
in a literal holds any plain word, and what the literal names has the word where the gap is. A gap
that comes after a literal plays no part in reading it, and no number has a gap.
-/

namespace Repertoire.Json

open Repertoire.Text

namespace Quoted

variable {c : Char} {w cs lead literal rest : List Char}

/-- A character that stands for itself in a literal. -/
def IsPlain (c : Char) : Prop := c ≠ '\x22' ∧ c ≠ '\\' ∧ ¬ c.toNat < 0x20

instance (c : Char) : Decidable (IsPlain c) := instDecidableAnd

/-- The pieces of a literal: characters and escapes. -/
inductive Piece : List Char → Prop
  /-- A character that stands for itself. -/
  | plain (c : Char) (h : IsPlain c) : Piece [c]
  /-- An escape of one letter. -/
  | named (k : Char) (h : (named? k).isSome) : Piece ['\\', k]
  /-- An escape of four digits. -/
  | unit (a b c d : Char) (h : (unit? a b c d).isSome) : Piece ['\\', 'u', a, b, c, d]

/-- A piece in front of a literal is taken into it. -/
theorem Piece.scan_append (h : Piece lead) (rest : List Char) :
    scan (lead ++ rest) = (scan rest).map fun out => (lead ++ out.1, out.2) := by
  cases h with
  | plain c h =>
    rw [List.singleton_append, scan]
    · simp [h.2.1, h.2.2]
    · exact h.1
    · simp [h.2.1]
    · simp [h.2.1]
  | named k h =>
    rw [List.cons_append, List.singleton_append, scan]
    · simp [h]
    · rintro - - - - - rfl
      exact absurd h (by decide)
  | unit a b c d h =>
    simp [scan, h]

/-- A literal that is not over yet starts with a piece. -/
theorem scan_cases (h : scan cs = some (literal, rest)) :
    cs = '\x22' :: rest ∧ literal = [] ∨
      ∃ lead more literal', Piece lead ∧ cs = lead ++ more ∧ literal = lead ++ literal' ∧
        scan more = some (literal', rest) := by
  have hmap : ∀ {lead more : List Char}, Piece lead →
      scan (lead ++ more) = some (literal, rest) →
      ∃ literal', literal = lead ++ literal' ∧ scan more = some (literal', rest) := by
    intro lead more hlead hscan
    rw [hlead.scan_append] at hscan
    obtain ⟨literal', hmore, hliteral⟩ := exists_of_map_eq_some hscan
    exact ⟨literal', hliteral.symm, hmore⟩
  have hpiece : ∀ lead more, cs = lead ++ more → Piece lead →
      ∃ lead more literal', Piece lead ∧ cs = lead ++ more ∧ literal = lead ++ literal' ∧
        scan more = some (literal', rest) := by
    intro lead more hcs hlead
    obtain ⟨literal', hliteral, hmore⟩ := hmap hlead (hcs ▸ h)
    exact ⟨lead, more, literal', hlead, hcs, hliteral, hmore⟩
  unfold scan at h
  split at h
  · simp at h
  · obtain ⟨rfl, rfl⟩ := Prod.mk.inj (Option.some.inj h)
    exact .inl ⟨rfl, rfl⟩
  · rename_i a b c d more
    split_ifs at h with hunit
    exact .inr (hpiece ['\\', 'u', a, b, c, d] more rfl (.unit a b c d hunit))
  · rename_i k more _
    split_ifs at h with hnamed
    exact .inr (hpiece ['\\', k] more rfl (.named k hnamed))
  · rename_i c more hmark _ _
    split_ifs at h with hc
    simp only [Bool.or_eq_true, decide_eq_true_eq, not_or] at hc
    exact .inr (hpiece [c] more rfl (.plain c ⟨hmark, hc.2, hc.1⟩))

/-- A character that is no digit is in no escape of four digits. -/
theorem not_mem_unit {a b c d k : Char} (h : (unit? a b c d).isSome) (hk : isDigitOf 16 k = false) :
    k ∉ [a, b, c, d] := by
  intro hmem
  unfold unit? number? at h
  split_ifs at h with hdigits
  · have hall := List.all_eq_true.mp (Bool.and_eq_true_iff.mp hdigits).2 k hmem
    rw [hk] at hall
    exact absurd hall (by decide)
  · exact absurd h (by decide)

/-- A dollar sign in a piece is the whole piece. -/
theorem Piece.dollar (h : Piece lead) : '$' ∉ lead ∨ lead = ['$'] := by
  cases h with
  | plain c h =>
    by_cases hc : c = '$'
    · exact .inr (by rw [hc])
    · exact .inl (by simpa using fun h => hc h.symm)
  | named k h =>
    refine .inl ?_
    have hk : k ≠ '$' := by
      rintro rfl
      exact absurd h (by decide)
    simpa using fun h => hk h.symm
  | unit a b c d h =>
    have hdigits := not_mem_unit h (show isDigitOf 16 '$' = false by decide)
    exact .inl (by simpa using hdigits)

/-- A word fits a gap in a literal if its characters stand for themselves. -/
def Fits (w : List Char) : Prop := ∀ c ∈ w, IsPlain c

/-- A literal is read piece by piece up to its closing mark. -/
theorem piecewise_scan {word : List Char} (hword : ∀ c ∈ '$' :: word, IsPlain c) :
    Piecewise Fits '$' word 1 (fun _ : Unit => scan) (fun _ lead y _ _ => Piece lead ∧ y = lead)
      (fun _ cs literal rest => cs = '\x22' :: rest ∧ literal = []) := by
  refine .ofMark (by decide) hword (fun cs => ?_) (fun h => ?_) ?_ ?_ (fun h => h.1.dollar)
    (fun c hc => ⟨.plain c hc, rfl⟩)
  · rw [scan]
  · rcases scan_cases h with hend | ⟨lead, more, literal', hlead, hcs, hliteral, hmore⟩
    · exact .inl hend
    · exact .inr ⟨lead, lead, more, literal', ⟨hlead, rfl⟩, hcs, hliteral, hmore⟩
  · rintro lead _ ⟨hlead, rfl⟩ cs
    exact hlead.scan_append cs
  · rintro lead _ ⟨hlead, rfl⟩ hnil
    cases hlead <;> exact List.cons_ne_nil _ _ hnil

/-- What is left behind a literal is shorter. -/
theorem length_lt_of_scan (h : scan cs = some (literal, rest)) : rest.length < cs.length := by
  have hword : ∀ c ∈ ['$'], IsPlain c := List.forall_mem_singleton.mpr (by decide)
  refine (piecewise_scan hword).length_lt (s := ()) ?_ h
  rintro _ cs x rest ⟨rfl, -⟩
  exact Nat.lt_succ_self _

/-! ### What literals name -/

/-- The pieces of a literal with what they name. A backslash that nothing follows names itself. -/
inductive Names : List Char → List Char → List Char → Prop
  /-- A character that starts no escape. -/
  | plain (c : Char) (more : List Char) (h : c ≠ '\\') : Names [c] [c] more
  /-- A backslash at the end. -/
  | last : Names ['\\'] ['\\'] []
  /-- An escape of one letter. -/
  | named (k c : Char) (more : List Char) (h : named? k = some c) : Names ['\\', k] [c] more
  /-- An escape of four digits that is no surrogate. -/
  | unit (a b c d : Char) (n : ℕ) (more : List Char) (h : unit? a b c d = some n)
      (hlow : isLowSurrogate n = false) (hhigh : isHighSurrogate n = false) :
      Names ['\\', 'u', a, b, c, d] [Char.ofNat n] more
  /-- Two escapes that are a surrogate pair. -/
  | pair (a b c d e f g h : Char) (n m : ℕ) (more : List Char) (hn : unit? a b c d = some n)
      (hlow : isLowSurrogate n = false) (hhigh : isHighSurrogate n = true)
      (hm : unit? e f g h = some m) (hlow' : isLowSurrogate m = true) :
      Names ['\\', 'u', a, b, c, d, '\\', 'u', e, f, g, h] [paired n m] more

/-- A piece in front of a literal names its characters. -/
theorem Names.decode_append {named more : List Char} (h : Names lead named more) :
    decode (lead ++ more) = (decode more).map (named ++ ·) := by
  cases h with
  | plain c more h =>
    rw [List.singleton_append, decode]
    · rfl
    · simp [h]
    · simp [h]
  | last => rfl
  | named k c more h =>
    rw [List.cons_append, List.singleton_append, decode]
    · simp [h]
    · rintro - - - - - rfl
      exact absurd h.symm (Option.some_ne_none c)
  | unit a b c d n more h hlow hhigh => simp [decode, h, hlow, hhigh]
  | pair a b c d e f g h n m more hn hlow hhigh hm hlow' =>
    simp [decode, hn, hlow, hhigh, hm, hlow']

/-- A literal that names characters is empty or starts with a piece. -/
theorem decode_cases {x : List Char} (h : decode cs = some x) :
    cs = [] ∧ x = [] ∨ ∃ lead more named x', Names lead named more ∧ cs = lead ++ more ∧
      x = named ++ x' ∧ decode more = some x' := by
  have hpiece : ∀ lead more named, cs = lead ++ more → Names lead named more →
      ∃ lead more named x', Names lead named more ∧ cs = lead ++ more ∧ x = named ++ x' ∧
        decode more = some x' := by
    intro lead more named hcs hlead
    rw [hcs, hlead.decode_append] at h
    obtain ⟨x', hmore, hx⟩ := Option.map_eq_some_iff.mp h
    exact ⟨lead, more, named, x', hlead, hcs, hx.symm, hmore⟩
  -- The branches of the reader in its order: the end, a code unit with or without a second one, a
  -- named escape, and a character of its own.
  unfold decode at h
  split at h
  · exact .inl ⟨rfl, (Option.some.inj h).symm⟩
  · rename_i a b c d more
    split at h
    · simp at h
    · rename_i n hn
      split_ifs at h with hlow hhigh
      · split at h
        · rename_i e f g h' more
          split at h
          · simp at h
          · rename_i m hm
            split_ifs at h with hlow'
            exact .inr (hpiece ['\\', 'u', a, b, c, d, '\\', 'u', e, f, g, h'] more _ rfl
              (.pair a b c d e f g h' n m more hn (by simpa using hlow) hhigh hm hlow'))
        · simp at h
      · exact .inr (hpiece ['\\', 'u', a, b, c, d] more _ rfl
          (.unit a b c d n more hn (by simpa using hlow) (by simpa using hhigh)))
  · rename_i k more _
    split at h
    · rename_i c hc
      exact .inr (hpiece ['\\', k] more _ rfl (.named k c more hc))
    · simp at h
  · rename_i c more _ hescape
    by_cases hc : c = '\\'
    · subst hc
      cases more with
      | nil => exact .inr (hpiece ['\\'] [] _ rfl .last)
      | cons c more => exact absurd rfl (hescape c more rfl)
    · exact .inr (hpiece [c] more _ rfl (.plain c more hc))

/-- A dollar sign in a piece is the whole piece. -/
theorem Names.dollar {named more : List Char} (h : Names lead named more) :
    '$' ∉ lead ∨ lead = ['$'] := by
  have hdigit : isDigitOf 16 '$' = false := by decide
  cases h with
  | plain c more h =>
    by_cases hc : c = '$'
    · exact .inr (by rw [hc])
    · exact .inl (by simpa using fun h => hc h.symm)
  | last => exact .inl (by decide)
  | named k c more h =>
    refine .inl ?_
    have hk : k ≠ '$' := by
      rintro rfl
      exact absurd h.symm (Option.some_ne_none c)
    simpa using fun h => hk h.symm
  | unit a b c d n more h =>
    have hdigits := not_mem_unit (Option.isSome_of_eq_some h) hdigit
    exact .inl (by simpa using hdigits)
  | pair a b c d e f g h n m more hn _ _ hm =>
    have hfirst := not_mem_unit (Option.isSome_of_eq_some hn) hdigit
    have hsecond := not_mem_unit (Option.isSome_of_eq_some hm) hdigit
    refine .inl ?_
    simp only [List.mem_cons, not_or] at hfirst hsecond ⊢
    exact ⟨by decide, by decide, hfirst.1, hfirst.2.1, hfirst.2.2.1, hfirst.2.2.2.1, by decide,
      by decide, hsecond⟩

/-- A plain word names itself. -/
theorem decode_word (hw : ∀ c ∈ w, IsPlain c) (cs : List Char) :
    decode (w ++ cs) = (decode cs).map (w ++ ·) := by
  induction w with
  | nil => simp
  | cons c w ih =>
    have hc := (Names.plain c (w ++ cs) (hw c List.mem_cons_self).2.1).decode_append
    rw [List.cons_append, ← List.singleton_append, hc,
      ih fun c' hc' => hw c' (List.mem_cons_of_mem c hc'), Option.map_map]
    rfl

/-- What a literal names is read piece by piece up to its end. -/
theorem piecewise_decode {word : List Char} (hword : ∀ c ∈ '$' :: word, IsPlain c) :
    Piecewise Fits '$' word 0 (fun (_ : Unit) cs => (decode cs).map fun x => (x, []))
      (fun _ lead named _ more => Names lead named more)
      (fun _ cs x rest => cs = [] ∧ x = [] ∧ rest = []) where
  read_cases := by
    intro _ cs x rest h
    obtain ⟨x, hdecode, hout⟩ := Option.map_eq_some_iff.mp h
    obtain ⟨rfl, rfl⟩ := Prod.mk.inj hout
    rcases decode_cases hdecode with ⟨hcs, hx⟩ | ⟨lead, more, named, x', hnames, hcs, hx, hmore⟩
    · exact .inl ⟨hcs, hx, rfl⟩
    · exact .inr ⟨lead, named, (), more, x', hnames, hcs, hx, by rw [hmore, Option.map_some]⟩
  read_end := by
    rintro _ cs x rest ⟨rfl, rfl, rfl⟩
    rfl
  read_piece := by
    intro _ lead named _ more h
    rw [h.decode_append, Option.map_map, Option.map_map]
    rfl
  piece_ne_nil := by
    intro _ lead _ _ more h hnil
    cases h <;> exact List.cons_ne_nil _ _ hnil
  end_draft := by
    rintro _ d x rest ⟨hd, rfl, rfl⟩ -
    obtain rfl := Draft.eq_whole_nil hd
    exact ⟨[], .whole [], rfl, le_rfl, fun w => ⟨rfl, rfl, rfl⟩⟩
  piece_draft := Names.dollar
  more_draft := by
    intro _ lead named _ d h w _
    -- Only `last` looks at what is behind the piece, and there nothing is.
    generalize hmore : d.fill ('$' :: word) = more at h
    cases h with
    | plain c more h => exact .plain c _ h
    | last => rw [Draft.eq_whole_nil hmore, Draft.fill_whole]; exact .last
    | named k c more h => exact .named k c _ h
    | unit a b c d n more h hlow hhigh => exact .unit a b c d n _ h hlow hhigh
    | pair a b c d e f g h n m more hn hlow hhigh hm hlow' =>
      exact .pair a b c d e f g h n m _ hn hlow hhigh hm hlow'
  read_gap := by
    intro _ back x rest h
    obtain ⟨x, hdecode, hout⟩ := Option.map_eq_some_iff.mp h
    obtain ⟨-, rfl⟩ := Prod.mk.inj hout
    rw [decode_word hword] at hdecode
    obtain ⟨x', hback, -⟩ := Option.map_eq_some_iff.mp hdecode
    exact ⟨x', fun w hw => by rw [decode_word hw, hback, Option.map_some, Option.map_some]⟩

/-- What a literal with a gap names has the word where the gap is. -/
theorem decode_draft {word x : List Char} (hword : ∀ c ∈ '$' :: word, IsPlain c) {d : Draft}
    (h : decode (d.fill ('$' :: word)) = some x) :
    ∃ o : Draft, o.gaps ≤ d.gaps ∧ o.fill ('$' :: word) = x ∧
      ∀ w, (∀ c ∈ w, IsPlain c) → decode (d.fill w) = some (o.fill w) := by
  obtain ⟨o, d', hreads⟩ := (piecewise_decode hword).reads_draft ()
    (show (decode (d.fill ('$' :: word))).map (fun x => (x, [])) = some (x, []) by
      rw [h, Option.map_some]) fun z hz => List.cons_ne_nil _ _ hz.symm
  have hdecode : ∀ w, (∀ c ∈ w, IsPlain c) → decode (d.fill w) = some (o.fill w) := by
    intro w hw
    obtain ⟨x', hx', hout⟩ := Option.map_eq_some_iff.mp (hreads.read_eq w hw)
    rw [hx', (Prod.mk.inj hout).1]
  exact ⟨o, (Nat.le_add_right _ _).trans hreads.gaps_le,
    Option.some.inj ((hdecode _ hword).symm.trans h), hdecode⟩

end Quoted

/-! ## Numbers -/

namespace Numeral

/-- A character that is in no number. -/
structure EndsNumber (k : Char) : Prop where
  digit : isDigit k = false
  mark : k ∉ ['.', 'e', 'E', '+', '-']

/-- Digits are tokens. -/
theorem isToken_scanDigits : IsToken EndsNumber scanDigits where
  leaves := by
    intro cs digits rest h
    simp only [scanDigits] at h
    split_ifs at h
    obtain ⟨-, rfl⟩ := Prod.mk.inj (Option.some.inj h)
    exact List.dropWhile_suffix isDigit
  stopsAt := by
    intro k hk cs t
    simp only [scanDigits, takeWhile_append_cons hk.digit, dropWhile_append_cons hk.digit]
    split_ifs <;> rfl

/-- Whole numbers are tokens. -/
theorem isToken_scanWhole : IsToken EndsNumber scanWhole :=
  isToken_scanDigits.filter fun digits => digits = ['0'] || digits.head? ≠ some '0'

/-- Fractions are tokens, and so is their absence. -/
theorem isToken_scanFraction : IsToken EndsNumber scanFraction := by
  refine .branch [(['.'], fun cs => (scanDigits cs).map fun out => (some out.1, out.2))]
    (fun hk => ?_) (by simp [scanFraction]) (fun cs h => ?_)
    (by simpa using isToken_scanDigits.map some) (.pure none)
  · have hmark := hk.mark
    simp_all
  · unfold scanFraction
    split
    · exact absurd rfl (h _ List.mem_cons_self _)
    · rfl

/-- A minus sign is a token, and so is its absence. -/
theorem isToken_scanMinus : IsToken EndsNumber fun cs => some (scanMinus cs) := by
  refine .branch [(['-'], fun cs => some (true, cs))] (fun hk => ?_) (by simp [scanMinus])
    (fun cs h => ?_) (by simpa using .pure true) (.pure false)
  · have hmark := hk.mark
    simp_all
  · unfold scanMinus
    split
    · exact absurd rfl (h _ List.mem_cons_self _)
    · rfl

/-- Signs are tokens, and so is their absence. -/
theorem isToken_scanSign : IsToken EndsNumber fun cs => some (scanSign cs) := by
  refine .branch [(['+'], fun cs => some (false, cs))] (fun hk => ?_) (by simp [scanSign])
    (fun cs h => ?_) (by simpa using .pure false) isToken_scanMinus
  · have hmark := hk.mark
    simp_all
  · unfold scanSign
    split
    · exact absurd rfl (h _ List.mem_cons_self _)
    · rfl

/-- Powers of ten are tokens. -/
theorem isToken_scanPower : IsToken EndsNumber scanPower :=
  isToken_scanSign.bind fun minus => isToken_scanDigits.map fun digits => (minus, digits)

/-- Exponents are tokens, and so is their absence. -/
theorem isToken_scanExponent : IsToken EndsNumber scanExponent := by
  let power : List Char → Option (Option (Bool × List Char) × List Char) := fun cs =>
    (scanPower cs).map fun out => (some out.1, out.2)
  refine .branch [(['e'], power), (['E'], power)] (fun hk => ?_) (by simp [scanExponent, power])
    (fun cs h => ?_) (by simpa using isToken_scanPower.map some) (.pure none)
  · have hmark := hk.mark
    simp_all
  · unfold scanExponent
    split
    · exact absurd rfl (h _ List.mem_cons_self _)
    · exact absurd rfl (h _ (List.mem_cons_of_mem _ List.mem_cons_self) _)
    · rfl

/-- Numbers are tokens. -/
theorem isToken_scan : IsToken EndsNumber scan :=
  isToken_scanMinus.bind fun negative => isToken_scanWhole.bind fun whole =>
    isToken_scanFraction.bind fun fraction => isToken_scanExponent.bind fun exponent =>
      .pure (Numeral.mk negative whole fraction exponent)

/-- Digits are taken from a text that starts with one. -/
theorem exists_digit_of_scanDigits {cs digits rest : List Char}
    (h : scanDigits cs = some (digits, rest)) :
    ∃ c more, cs = c :: more ∧ isDigit c = true ∧ rest <:+ more := by
  simp only [scanDigits] at h
  split_ifs at h with hempty
  obtain ⟨-, rfl⟩ := Prod.mk.inj (Option.some.inj h)
  cases cs with
  | nil => exact absurd rfl hempty
  | cons c more =>
    by_cases hc : isDigit c
    · exact ⟨c, more, rfl, hc, by simpa [hc] using List.dropWhile_suffix isDigit⟩
    · exact absurd (by simp [hc]) hempty

/-- A number is taken from a text that starts with a digit or a minus sign. -/
theorem exists_front_of_scan {cs rest : List Char} {n : Numeral} (h : scan cs = some (n, rest)) :
    ∃ c more, cs = c :: more ∧ (c = '-' ∨ isDigit c = true) ∧ rest.length ≤ more.length := by
  obtain ⟨⟨whole, rest₁⟩, hwhole, h⟩ := Option.bind_eq_some_iff.mp h
  have hle : rest.length ≤ rest₁.length :=
    ((isToken_scanFraction.bind fun fraction => isToken_scanExponent.bind fun exponent =>
      .pure (Numeral.mk (scanMinus cs).1 whole fraction exponent)).leaves h).length_le
  obtain ⟨c, more, hcs, hc, hrest⟩ :=
    exists_digit_of_scanDigits (Option.filter_eq_some_iff.mp hwhole).1
  have hmore := hrest.length_le
  split at hcs
  · subst hcs
    exact ⟨'-', c :: more, rfl, .inl rfl, by rw [List.length_cons]; omega⟩
  · subst hcs
    exact ⟨c, more, rfl, .inr hc, hmore.trans' hle⟩

/-- No number starts with a character that is neither a digit nor a minus sign. -/
theorem ne_of_scan {cs rest : List Char} {n : Numeral} (h : scan cs = some (n, rest))
    {k : Char} (hdigit : isDigit k = false) (hminus : k ≠ '-') (z : List Char) : cs ≠ k :: z := by
  rintro rfl
  obtain ⟨c, more, hcs, hc, -⟩ := exists_front_of_scan h
  obtain ⟨rfl, -⟩ := List.cons.inj hcs
  rcases hc with hc | hc
  · exact hminus hc
  · exact absurd hc (by simp [hdigit])

end Numeral

end Repertoire.Json
