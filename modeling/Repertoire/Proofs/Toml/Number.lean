import Mathlib.Tactic.SplitIfs
import Repertoire.Proofs.Text.Token
import Repertoire.Toml.Literal

/-!
# TOML numbers and dates are tokens

Numbers, dates and times end at the first character that none of them can hold. Where a reader
tries one form after another, none of them sees more than that.
-/

namespace Repertoire.Toml

open Repertoire.Text

/-- A character that is in no number, date or time. -/
structure EndsNumber (k : Char) : Prop where
  digit : digitValue? k = none
  mark : k ∉ ['+', '-', '.', ':', '_', ' ', 'T', 't', 'Z', 'z', 'x', 'o', 'i', 'n']

variable {k : Char}

/-- What ends a number is a digit to no base. -/
theorem EndsNumber.isDigitOf (hk : EndsNumber k) (base : ℕ) : isDigitOf base k = false := by
  rw [Text.isDigitOf, hk.digit]

/-- What ends a number is no digit. -/
theorem EndsNumber.isDigit (hk : EndsNumber k) : isDigit k = false := hk.isDigitOf 10

/-- What ends a number is none of the characters in numbers. -/
theorem EndsNumber.ne (hk : EndsNumber k) {c : Char}
    (hc : (digitValue? c).isSome ∨
      c ∈ ['+', '-', '.', ':', '_', ' ', 'T', 't', 'Z', 'z', 'x', 'o', 'i', 'n']) : k ≠ c := by
  rintro rfl
  rcases hc with hc | hc
  · rw [hk.digit] at hc
    exact absurd hc (by decide)
  · exact hk.mark hc

namespace DateTime

/-- Digits of a given count are a token. -/
theorem isToken_scanDigits (count : ℕ) : IsToken EndsNumber (scanDigits count) where
  leaves := by
    intro cs n rest h
    simp only [scanDigits] at h
    split_ifs at h
    obtain ⟨-, rfl⟩ := Prod.mk.inj (Option.some.inj h)
    exact List.drop_suffix count cs
  stopsAt := by
    intro k hk cs t
    rcases le_or_gt count cs.length with hle | hlt
    · simp only [scanDigits, List.take_append_of_le_length hle, List.drop_append_of_le_length hle]
      split_ifs <;> rfl
    · -- the digits would go on behind the text
      have htake : k ∈ (cs ++ k :: t).take count := by
        rw [List.take_append, List.mem_append]
        refine .inr ?_
        obtain ⟨n, hn⟩ : ∃ n, count - cs.length = n + 1 := ⟨count - cs.length - 1, by omega⟩
        rw [hn, List.take_succ_cons]
        exact List.mem_cons_self
      have hdigit : ((cs ++ k :: t).take count).all isDigit = false := by
        rw [List.all_eq_false]
        exact ⟨k, htake, by simp [hk.isDigit]⟩
      have hlen : (cs.take count).length ≠ count := by
        rw [List.length_take]
        omega
      simp only [scanDigits, hdigit, hlen, Bool.and_false, decide_false, Bool.false_and,
        Bool.false_eq_true, if_false, Option.map_none]

/-- A number between bounds is a token. -/
theorem isToken_scanBetween (count low high : ℕ) :
    IsToken EndsNumber (scanBetween count low high) :=
  (isToken_scanDigits count).bind fun n => .guard (low ≤ n ∧ n ≤ high) n

/-- One digit or more are a token that is not empty. -/
theorem isSolid_scanDigits (count : ℕ) : IsSolid EndsNumber (scanDigits (count + 1)) where
  toIsToken := isToken_scanDigits (count + 1)
  length_lt := by
    intro cs n rest h
    simp only [scanDigits] at h
    split_ifs at h with hdigits
    obtain ⟨-, rfl⟩ := Prod.mk.inj (Option.some.inj h)
    have hlen := of_decide_eq_true (Bool.and_eq_true_iff.mp hdigits).1
    rw [List.length_take] at hlen
    rw [List.length_drop]
    omega

/-- A number between bounds of one digit or more is a token that is not empty. -/
theorem isSolid_scanBetween (count low high : ℕ) :
    IsSolid EndsNumber (scanBetween (count + 1) low high) :=
  (isSolid_scanDigits count).bind fun n => .guard (low ≤ n ∧ n ≤ high) n

/-- A token behind a mark is a token with it. -/
theorem isToken_scanMark {α : Type} {read : List Char → Option (α × List Char)} {mark : Char}
    (hmark : ∀ {k}, EndsNumber k → k ≠ mark) (h : IsToken EndsNumber read) :
    IsToken EndsNumber fun cs => (scanMark mark cs).bind read := by
  refine .branch [([mark], read)] (fun hk => ?_) (by simp [scanMark]) (fun cs hcs => ?_)
    (by simpa using h) .fail
  · simpa using hmark hk
  · cases cs with
    | nil => rfl
    | cons c cs =>
      have hc : c ≠ mark := by
        rintro rfl
        exact absurd rfl (hcs _ List.mem_cons_self cs)
      simp [scanMark, hc]

/-- Dates are tokens that are not empty. -/
theorem isSolid_scanDate : IsSolid EndsNumber scanDate :=
  have hdash : ∀ {k}, EndsNumber k → k ≠ '-' := fun hk => hk.ne (by decide)
  (isSolid_scanDigits 3).bind fun year => isToken_scanMark hdash <|
    (isToken_scanBetween 2 1 12).bind fun month => isToken_scanMark hdash <|
      (isToken_scanBetween 2 1 (daysIn year month)).bind fun day => .pure (Date.mk year month day)

/-- Fractions of a second are tokens, and so is their absence. -/
theorem isToken_scanFraction : IsToken EndsNumber fun cs => some (scanFraction cs) where
  leaves := by
    intro cs n rest h
    simp only [scanFraction] at h
    split at h
    · split_ifs at h
      · obtain ⟨-, rfl⟩ := Prod.mk.inj (Option.some.inj h)
        exact List.suffix_rfl
      · obtain ⟨-, rfl⟩ := Prod.mk.inj (Option.some.inj h)
        exact (List.dropWhile_suffix _).trans (List.suffix_cons _ _)
    · obtain ⟨-, rfl⟩ := Prod.mk.inj (Option.some.inj h)
      exact List.suffix_rfl
  stopsAt := by
    intro k hk cs t
    have hpoint : k ≠ '.' := hk.ne (by decide)
    rcases cs with _ | ⟨c, cs⟩
    · simp [scanFraction, hpoint]
    · by_cases hc : c = '.'
      · subst hc
        simp only [List.cons_append, scanFraction, takeWhile_append_cons hk.isDigit,
          dropWhile_append_cons hk.isDigit]
        split_ifs <;> rfl
      · simp [scanFraction, hc]

/-- Times are tokens that are not empty. -/
theorem isSolid_scanTime : IsSolid EndsNumber scanTime :=
  have hcolon : ∀ {k}, EndsNumber k → k ≠ ':' := fun hk => hk.ne (by decide)
  (isSolid_scanBetween 1 0 23).bind fun hour => isToken_scanMark hcolon <|
    (isToken_scanBetween 2 0 59).bind fun minute => isToken_scanMark hcolon <|
      (isToken_scanBetween 2 0 60).bind fun second => isToken_scanFraction.bind fun nanosecond =>
        .pure (Time.mk hour minute second nanosecond)

/-- The minutes of an offset are tokens. -/
theorem isToken_scanOffsetMinutes (negative : Bool) :
    IsToken EndsNumber (scanOffsetMinutes negative) :=
  have hcolon : ∀ {k}, EndsNumber k → k ≠ ':' := fun hk => hk.ne (by decide)
  (isToken_scanBetween 2 0 23).bind fun hour => isToken_scanMark hcolon <|
    (isToken_scanBetween 2 0 59).bind fun minute =>
      .pure (Offset.minutes (if negative then -((hour : Int) * 60 + minute) else hour * 60 + minute))

/-- Offsets are tokens. -/
theorem isToken_scanOffset : IsToken EndsNumber scanOffset := by
  refine .branch [(['Z'], fun cs => some (.zulu, cs)), (['z'], fun cs => some (.zulu, cs)),
    (['+'], scanOffsetMinutes false), (['-'], scanOffsetMinutes true)] (fun hk => ?_)
    (by simp [scanOffset]) (fun cs h => ?_)
    (by simpa using ⟨.pure Offset.zulu, isToken_scanOffsetMinutes false,
      isToken_scanOffsetMinutes true⟩) .fail
  · have hmark := hk.mark
    simp_all
  · simp only [List.mem_cons, List.not_mem_nil, or_false, forall_eq_or_imp, forall_eq] at h
    unfold scanOffset
    split
    · exact absurd rfl (h.1 _)
    · exact absurd rfl (h.2.1 _)
    · exact absurd rfl (h.2.2.1 _)
    · exact absurd rfl (h.2.2.2 _)
    · rfl

/-- A date-time starts with a date or is a time. -/
theorem scan_cases {cs rest : List Char} {x : DateTime} (h : scan cs = some (x, rest)) :
    (∃ d rest', scanDate cs = some (d, rest') ∧ rest <:+ rest') ∨
      ∃ t, scanTime cs = some (t, rest) := by
  unfold scan at h
  split at h
  · obtain ⟨t, htime, -⟩ := exists_of_map_eq_some h
    exact .inr ⟨t, htime⟩
  · rename_i d rest' hdate
    refine .inl ⟨d, rest', hdate, ?_⟩
    split at h
    · obtain ⟨-, rfl⟩ := Prod.mk.inj (Option.some.inj h)
      exact List.suffix_rfl
    · rename_i c more
      split_ifs at h
      · split at h
        · obtain ⟨-, rfl⟩ := Prod.mk.inj (Option.some.inj h)
          exact List.suffix_rfl
        · rename_i t rest₂ htime
          have hrest₂ := (isSolid_scanTime.leaves htime).trans (List.suffix_cons c more)
          split at h
          · obtain ⟨-, rfl⟩ := Prod.mk.inj (Option.some.inj h)
            exact hrest₂
          · rename_i o rest₃ hoffset
            obtain ⟨-, rfl⟩ := Prod.mk.inj (Option.some.inj h)
            exact (isToken_scanOffset.leaves hoffset).trans hrest₂
      · obtain ⟨-, rfl⟩ := Prod.mk.inj (Option.some.inj h)
        exact List.suffix_rfl

/-- Dates and times are tokens, with the blank that may stand between them. -/
theorem isSolid_scan : IsSolid EndsNumber scan where
  leaves := by
    intro cs x rest h
    rcases scan_cases h with ⟨d, rest', hdate, hrest⟩ | ⟨t, htime⟩
    · exact hrest.trans (isSolid_scanDate.leaves hdate)
    · exact isSolid_scanTime.leaves htime
  length_lt := by
    intro cs x rest h
    rcases scan_cases h with ⟨d, rest', hdate, hrest⟩ | ⟨t, htime⟩
    · exact hrest.length_le.trans_lt (isSolid_scanDate.length_lt hdate)
    · exact isSolid_scanTime.length_lt htime
  stopsAt := by
    intro k hk cs t
    have hdelimiter : isDelimiter k = false := by
      simp [isDelimiter, hk.ne (c := 'T') (by decide), hk.ne (c := 't') (by decide),
        hk.ne (c := ' ') (by decide)]
    simp only [scan, isSolid_scanDate.stopsAt hk]
    rcases scanDate cs with _ | ⟨d, rest⟩
    · simp only [Option.map_none, isSolid_scanTime.stopsAt hk]
      cases scanTime cs <;> rfl
    · rcases rest with _ | ⟨c, more⟩
      · simp [hdelimiter]
      · simp only [Option.map_some, List.cons_append, isSolid_scanTime.stopsAt hk]
        split_ifs
        · rcases scanTime more with _ | ⟨time, rest⟩
          · rfl
          · simp only [Option.map_some, isToken_scanOffset.stopsAt hk]
            cases scanOffset rest <;> rfl
        · rfl

end DateTime

namespace Literal

/-- A digit is taken, and any other character but a line between digits ends them. -/
theorem scanDigits_cons {c : Char} (hc : c ≠ '_') (base : ℕ) (cs : List Char) :
    scanDigits base (c :: cs) = if isDigitOf base c then
      (c :: (scanDigits base cs).1, (scanDigits base cs).2) else ([], c :: cs) := by
  rw [scanDigits]
  exact fun _ _ h => absurd h hc

/-- The line between digits is no digit. -/
theorem ne_line_of_isDigitOf {base : ℕ} {c : Char} (hc : isDigitOf base c = true) : c ≠ '_' := by
  rintro rfl
  exact absurd hc (by simp [isDigitOf, digitValue?])

/-- Digits with lines between them are tokens. -/
theorem isToken_scanDigits (base : ℕ) :
    IsToken EndsNumber fun cs => some (scanDigits base cs) where
  leaves := by
    intro cs digits rest h
    obtain ⟨-, rfl⟩ := Prod.mk.inj (Option.some.inj h)
    clear h
    fun_induction scanDigits base cs with
    | case1 => exact List.suffix_rfl
    | case2 c rest hc digits rest' heq ih =>
      rw [heq] at ih
      exact (ih.trans (List.suffix_cons c rest)).trans (List.suffix_cons '_' _)
    | case3 c rest hc => exact List.suffix_rfl
    | case4 c rest hmark hc digits rest' heq ih =>
      rw [heq] at ih
      exact ih.trans (List.suffix_cons c rest)
    | case5 c rest hmark hc => exact List.suffix_rfl
  stopsAt := by
    intro k hk cs t
    have hdigit := hk.isDigitOf base
    have hline : k ≠ '_' := hk.ne (by decide)
    fun_induction scanDigits base cs with
    | case1 => simp [scanDigits_cons hline, hdigit]
    | case2 c rest hc digits rest' heq ih =>
      rw [heq, Option.map_some, Option.some.injEq] at ih
      simp [scanDigits, hc, ih]
    | case3 c rest hc => simp [scanDigits, hc]
    | case4 c rest hmark hc digits rest' heq ih =>
      rw [heq, Option.map_some, Option.some.injEq] at ih
      simp [scanDigits_cons (ne_line_of_isDigitOf hc), hc, ih]
    | case5 c rest hmark hc =>
      by_cases hc' : c = '_'
      · subst hc'
        cases rest with
        | nil => simp [scanDigits, hdigit]
        | cons c rest => exact absurd rfl (hmark c rest rfl)
      · simp [scanDigits_cons hc', hc]

/-- Numbers without a sign are tokens that are not empty. -/
theorem isSolid_scanNumber (base : ℕ) : IsSolid EndsNumber (scanNumber base) where
  leaves := by
    intro cs digits rest h
    unfold scanNumber at h
    split at h
    · split_ifs at h
      exact (isToken_scanDigits base).leaves h
    · simp at h
  length_lt := by
    intro cs digits rest h
    unfold scanNumber at h
    split at h
    · rename_i c more
      split_ifs at h with hc
      rw [scanDigits_cons (ne_line_of_isDigitOf hc), if_pos hc] at h
      obtain ⟨-, rfl⟩ := Prod.mk.inj (Option.some.inj h)
      exact Nat.lt_succ_of_le ((isToken_scanDigits base).leaves rfl).length_le
    · simp at h
  stopsAt := by
    intro k hk cs t
    cases cs with
    | nil => simp [scanNumber, hk.isDigitOf base]
    | cons c cs =>
      have hdigits := (isToken_scanDigits base).stopsAt hk (c :: cs) t
      simp only [List.cons_append, scanNumber] at hdigits ⊢
      split_ifs
      · exact hdigits
      · rfl

/-- Signs are tokens, and so is their absence. -/
theorem isToken_scanSign : IsToken EndsNumber fun cs => some (scanSign cs) := by
  refine .branch [(['+'], fun cs => some (false, cs)), (['-'], fun cs => some (true, cs))]
    (fun hk => ?_) (by simp [scanSign]) (fun cs h => ?_)
    (by simpa using ⟨.pure false, .pure true⟩) (.pure false)
  · have hmark := hk.mark
    simp_all
  · simp only [List.mem_cons, List.not_mem_nil, or_false, forall_eq_or_imp, forall_eq] at h
    unfold scanSign
    split
    · exact absurd rfl (h.1 _)
    · exact absurd rfl (h.2 _)
    · rfl

/-- Whole numbers are tokens that are not empty. -/
theorem isSolid_scanWhole : IsSolid EndsNumber scanWhole := by
  refine .branch [(['0'], fun cs => some (['0'], cs))] (fun hk => ?_) (by simp)
    (by simp [scanWhole]) (fun cs h => ?_) (by simpa using .pure ['0']) (isSolid_scanNumber 10)
  · simpa using hk.ne (c := '0') (by decide)
  · unfold scanWhole
    split
    · exact absurd rfl (h _ List.mem_cons_self _)
    · rfl

/-- Powers of ten are tokens. -/
theorem isToken_scanPower : IsToken EndsNumber scanPower :=
  isToken_scanSign.bind fun negative => (isSolid_scanNumber 10).toIsToken.map fun digits =>
    (negative, digits)

/-- Exponents are tokens. -/
theorem isToken_scanExponent : IsToken EndsNumber scanExponent := by
  refine .branch [(['e'], scanPower), (['E'], scanPower)] (fun hk => ?_) (by simp [scanExponent])
    (fun cs h => ?_) (by simpa using isToken_scanPower) .fail
  · simpa using ⟨hk.ne (c := 'e') (by decide), hk.ne (c := 'E') (by decide)⟩
  · simp only [List.mem_cons, List.not_mem_nil, or_false, forall_eq_or_imp, forall_eq] at h
    unfold scanExponent
    split
    · exact absurd rfl (h.1 _)
    · exact absurd rfl (h.2 _)
    · rfl

/-- Exponents are tokens, and so is their absence. -/
theorem isToken_scanOptionalExponent :
    IsToken EndsNumber fun cs => some (scanOptionalExponent cs) where
  leaves := by
    intro cs x rest h
    unfold scanOptionalExponent at h
    cases hexponent : scanExponent cs with
    | none =>
      rw [hexponent] at h
      obtain ⟨-, rfl⟩ := Prod.mk.inj (Option.some.inj h)
      exact List.suffix_rfl
    | some out =>
      rw [hexponent] at h
      exact isToken_scanExponent.leaves (hexponent.trans h)
  stopsAt := by
    intro k hk cs t
    simp only [scanOptionalExponent, isToken_scanExponent.stopsAt hk]
    cases scanExponent cs <;> rfl

/-- What follows the whole digits of a float is a token. -/
theorem isToken_scanFraction : IsToken EndsNumber scanFraction := by
  refine .branch [(['.'], fun cs => (scanNumber 10 cs).bind fun out =>
      (some (scanOptionalExponent out.2)).bind fun out' => some ((out.1, out'.1), out'.2))]
    (fun hk => ?_) (fun b hb cs => ?_) (fun cs h => ?_) ?_
    (isToken_scanExponent.map fun exponent => (([], exponent)))
  · simpa using hk.ne (c := '.') (by decide)
  · obtain rfl := List.mem_singleton.mp hb
    rfl
  · unfold scanFraction
    split
    · exact absurd rfl (h _ List.mem_cons_self _)
    · rfl
  · simpa using (isSolid_scanNumber 10).toIsToken.bind fun fraction =>
      isToken_scanOptionalExponent.bind fun exponent => .pure (fraction, exponent)

/-- Floats in digits are tokens that are not empty. -/
theorem isSolid_scanFloat : IsSolid EndsNumber scanFloat :=
  .after isToken_scanSign fun negative => isSolid_scanWhole.bind fun whole =>
    isToken_scanFraction.bind fun parts => .guard
      (floatOf negative whole parts.1 parts.2 ≠ .number false .infinite)
      (floatOf negative whole parts.1 parts.2)

/-- The names of floats are tokens that are not empty. -/
theorem isSolid_scanFloatName (negative : Bool) : IsSolid EndsNumber (scanFloatName negative) := by
  refine .branch [(['i', 'n', 'f'], fun cs => some (.number negative .infinite, cs)),
    (['n', 'a', 'n'], fun cs => some (.notANumber, cs))] (fun hk => ?_) (by simp)
    (by simp [scanFloatName]) (fun cs h => ?_)
    (by simpa using ⟨.pure _, .pure _⟩) .fail
  · simp [hk.ne (c := 'i') (by decide), hk.ne (c := 'n') (by decide),
      hk.ne (c := 'f') (by decide), hk.ne (c := 'a') (by decide)]
  · simp only [List.mem_cons, List.not_mem_nil, or_false, forall_eq_or_imp, forall_eq] at h
    unfold scanFloatName
    split
    · exact absurd rfl (h.1 _)
    · exact absurd rfl (h.2 _)
    · rfl

/-- Floats in words are tokens that are not empty. -/
theorem isSolid_scanSpecialFloat : IsSolid EndsNumber scanSpecialFloat :=
  .after isToken_scanSign isSolid_scanFloatName

/-- Decimal integers are tokens that are not empty. -/
theorem isSolid_scanDecimal : IsSolid EndsNumber scanDecimal :=
  .after isToken_scanSign fun negative => isSolid_scanWhole.map fun digits =>
    if negative then -(numberOf 10 digits : Int) else numberOf 10 digits

/-- Integers to another base are tokens that are not empty. -/
theorem isSolid_scanBased (base : ℕ) : IsSolid EndsNumber (scanBased base) :=
  (isSolid_scanNumber base).map fun digits => (numberOf base digits : Int)

/-- Integers of any size are tokens that are not empty. -/
theorem isSolid_scanUnbounded : IsSolid EndsNumber scanUnbounded := by
  refine .branch [(['0', 'x'], scanBased 16), (['0', 'o'], scanBased 8),
    (['0', 'b'], scanBased 2)] (fun hk => ?_) (by simp) (by simp [scanUnbounded])
    (fun cs h => ?_) (by simpa using ⟨(isSolid_scanBased 16).toIsToken,
      (isSolid_scanBased 8).toIsToken, (isSolid_scanBased 2).toIsToken⟩) isSolid_scanDecimal
  · have hzero := hk.ne (c := '0') (by decide)
    simpa using ⟨⟨hzero, hk.ne (c := 'x') (by decide)⟩, ⟨hzero, hk.ne (c := 'o') (by decide)⟩,
      hzero, hk.ne (c := 'b') (by decide)⟩
  · simp only [List.mem_cons, List.not_mem_nil, or_false, forall_eq_or_imp, forall_eq] at h
    unfold scanUnbounded
    split
    · exact absurd rfl (h.1 _)
    · exact absurd rfl (h.2.1 _)
    · exact absurd rfl (h.2.2 _)
    · rfl

/-- Integers are tokens that are not empty. -/
theorem isSolid_scanInteger : IsSolid EndsNumber scanInteger :=
  isSolid_scanUnbounded.filter inRange

/-- A number or date is what one of the readers finds. -/
theorem scanNumeric_cases {cs rest : List Char} {v : Value} (h : scanNumeric cs = some (v, rest)) :
    (∃ d, DateTime.scan cs = some (d, rest)) ∨ (∃ x, scanFloat cs = some (x, rest)) ∨
      (∃ x, scanSpecialFloat cs = some (x, rest)) ∨ ∃ n, scanInteger cs = some (n, rest) := by
  unfold scanNumeric at h
  split at h
  · rename_i d rest' hdate
    obtain ⟨-, rfl⟩ := Prod.mk.inj (Option.some.inj h)
    exact .inl ⟨d, hdate⟩
  · split at h
    · rename_i x rest' hfloat
      obtain ⟨-, rfl⟩ := Prod.mk.inj (Option.some.inj h)
      exact .inr (.inl ⟨x, hfloat⟩)
    · split at h
      · rename_i x rest' hspecial
        obtain ⟨-, rfl⟩ := Prod.mk.inj (Option.some.inj h)
        exact .inr (.inr (.inl ⟨x, hspecial⟩))
      · obtain ⟨n, hinteger, -⟩ := exists_of_map_eq_some h
        exact .inr (.inr (.inr ⟨n, hinteger⟩))

/-- Numbers and dates are tokens that are not empty. -/
theorem isSolid_scanNumeric : IsSolid EndsNumber scanNumeric where
  leaves := by
    intro cs x rest h
    rcases scanNumeric_cases h with ⟨d, hd⟩ | ⟨x, hx⟩ | ⟨x, hx⟩ | ⟨n, hn⟩
    · exact DateTime.isSolid_scan.leaves hd
    · exact isSolid_scanFloat.leaves hx
    · exact isSolid_scanSpecialFloat.leaves hx
    · exact isSolid_scanInteger.leaves hn
  length_lt := by
    intro cs x rest h
    rcases scanNumeric_cases h with ⟨d, hd⟩ | ⟨x, hx⟩ | ⟨x, hx⟩ | ⟨n, hn⟩
    · exact DateTime.isSolid_scan.length_lt hd
    · exact isSolid_scanFloat.length_lt hx
    · exact isSolid_scanSpecialFloat.length_lt hx
    · exact isSolid_scanInteger.length_lt hn
  stopsAt := by
    intro k hk cs t
    simp only [scanNumeric, DateTime.isSolid_scan.stopsAt hk, isSolid_scanFloat.stopsAt hk,
      isSolid_scanSpecialFloat.stopsAt hk, isSolid_scanInteger.stopsAt hk]
    rcases DateTime.scan cs with _ | ⟨d, rest⟩
    · rcases scanFloat cs with _ | ⟨x, rest⟩
      · rcases scanSpecialFloat cs with _ | ⟨x, rest⟩
        · cases scanInteger cs <;> rfl
        · rfl
      · rfl
    · rfl

/-- No number or date starts with the letter of a truth value. -/
theorem scanNumeric_letter {c : Char} (hc : c = 't' ∨ c = 'f') (cs : List Char) :
    scanNumeric (c :: cs) = none := by
  have hdigits : ∀ count, DateTime.scanDigits (count + 1) (c :: cs) = none := by
    intro count
    have hdigit : isDigit c = false := by rcases hc with rfl | rfl <;> decide
    simp [DateTime.scanDigits, hdigit]
  have hdate : DateTime.scan (c :: cs) = none := by
    simp [DateTime.scan, DateTime.scanDate, DateTime.scanTime, DateTime.scanBetween, hdigits]
  rw [scanNumeric, hdate]
  rcases hc with rfl | rfl <;> rfl

end Literal

end Repertoire.Toml
