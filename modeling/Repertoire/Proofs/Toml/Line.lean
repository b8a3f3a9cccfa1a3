import Repertoire.Proofs.Text.Outline
import Repertoire.Proofs.Toml.Quoted

/-!
# TOML keys and blank lines with a gap

Keys and what may stand between the parts of a document are read the same with any word in a gap
behind them. A key with the gap in one of its parts has the word in that part. A comment may have the
gap in it, and then the reader goes past the gap with any word that has no control characters.
-/

namespace Repertoire.Toml.Literal

open Repertoire.Text

variable {c : Char} {w cs x rest word : List Char} {part : String} {path : List String} {d : Draft}

/-! ## Keys -/

/-- One part of a key at the front of a text with what it holds and what follows it. -/
inductive KeyPartAt : List Char → List Char → List Char → Prop
  /-- A basic string. -/
  | basic (cs x rest : List Char) (h : scanBasic cs = some (x, rest)) :
      KeyPartAt ('\x22' :: cs) x rest
  /-- A literal string. -/
  | literal (cs x rest : List Char) (h : scanLiteral cs = some (x, rest)) :
      KeyPartAt ('\x27' :: cs) x rest
  /-- A part without marks. -/
  | bare (x rest : List Char) (hne : x ≠ []) (hx : ∀ c ∈ x, isBare c = true)
      (hrest : ∀ c z, rest = c :: z → isBare c = false) : KeyPartAt (x ++ rest) x rest

/-- The reader finds a part of a key exactly where one stands. -/
theorem scanSimpleKey_eq_some : scanSimpleKey cs = some (part, rest) ↔
    ∃ x, part = String.ofList x ∧ KeyPartAt cs x rest := by
  constructor
  · intro h
    obtain ⟨x, hscan, rfl⟩ := exists_of_map_eq_some h
    refine ⟨x, rfl, ?_⟩
    split at hscan
    · exact .basic _ _ _ hscan
    · exact .literal _ _ _ hscan
    · dsimp only at hscan
      split_ifs at hscan with hempty
      obtain ⟨rfl, rfl⟩ := Prod.mk.inj (Option.some.inj hscan)
      have hparts := List.takeWhile_append_dropWhile (p := isBare) (l := cs)
      have hbare := KeyPartAt.bare (cs.takeWhile isBare) (cs.dropWhile isBare)
        (by simpa using hempty) (fun c hc => List.mem_takeWhile_imp hc) fun c z hz => by
          have hhead := List.head?_dropWhile_not isBare cs
          rwa [hz] at hhead
      rwa [hparts] at hbare
  · rintro ⟨x, rfl, h⟩
    cases h with
    | basic cs x rest h => simp [scanSimpleKey, h]
    | literal cs x rest h => simp [scanSimpleKey, h]
    | bare x rest hne hx hrest =>
      have htake : (x ++ rest).takeWhile isBare = x := by
        rw [List.takeWhile_append_of_pos hx]
        cases rest with
        | nil => simp
        | cons c z => simp [hrest c z rfl]
      have hdrop : (x ++ rest).dropWhile isBare = rest := by
        rw [List.dropWhile_append_of_pos hx]
        cases rest with
        | nil => rfl
        | cons c z => simp [hrest c z rfl]
      have hempty : x.isEmpty = false := by simpa using hne
      -- A bare part starts with neither mark, which rules the first two branches out.
      unfold scanSimpleKey
      dsimp only
      split
      case h_3 => simp only [htake, hdrop, hempty, Bool.false_eq_true, if_false, Option.map_some]
      all_goals
        rename_i more hcs
        cases x with
        | nil => exact absurd rfl hne
        | cons c x =>
          obtain ⟨rfl, -⟩ := List.cons.inj hcs
          exact absurd (hx _ List.mem_cons_self) (by decide)

/-- A part of a key in a draft stands before the gap, unless the word is in it. -/
theorem keyPartAt_draft (hword : ∀ c ∈ '$' :: word, IsPlain c)
    (h : KeyPartAt (d.fill ('$' :: word)) x rest) (hx : ¬ '$' :: word <:+: x)
    (hrest : ∀ z, rest ≠ '$' :: z) :
    ∃ d' : Draft, d'.Tail d ∧ d'.fill ('$' :: word) = rest ∧
      ∀ w, KeyPartAt (d.fill w) x (d'.fill w) := by
  generalize hcs : d.fill ('$' :: word) = cs at h
  cases h with
  | basic cs x rest h =>
    obtain ⟨d₁, rfl, rfl⟩ := Draft.peel ['\x22'] hcs (by decide)
    have hraw : ∀ c ∈ '$' :: word, isBasicChar c = true := fun c hc => (hword c hc).1
    obtain ⟨d', hahead⟩ := (piecewise_scanBasic hword).reads_outside () hraw h hrest hx
    refine ⟨d', (Draft.Tail.prepend _ d₁).trans hahead.tail, hahead.fill_eq h, fun w => ?_⟩
    rw [Draft.fill_prepend]
    exact .basic _ _ _ (hahead.read_eq w)
  | literal cs x rest h =>
    obtain ⟨d₁, rfl, rfl⟩ := Draft.peel ['\x27'] hcs (by decide)
    have hraw : ∀ c ∈ '$' :: word, isLiteralChar c = true := fun c hc => (hword c hc).isLiteralChar
    obtain ⟨d', hahead⟩ := (piecewise_scanLiteral hword).reads_outside () hraw h hrest hx
    refine ⟨d', (Draft.Tail.prepend _ d₁).trans hahead.tail, hahead.fill_eq h, fun w => ?_⟩
    rw [Draft.fill_prepend]
    exact .literal _ _ _ (hahead.read_eq w)
  | bare x rest hne hbare hend =>
    have hdollar : '$' ∉ x := fun hmem => absurd (hbare _ hmem) (by decide)
    obtain ⟨d', rfl, rfl⟩ := Draft.peel x hcs hdollar
    refine ⟨d', .prepend x d', rfl, fun w => ?_⟩
    rw [Draft.fill_prepend]
    refine .bare x _ hne hbare fun c z hz => ?_
    by_contra hc
    exact Draft.fill_ne hrest (fun z' hz' => hc (hend c z' hz')) w z hz

/-- The rest of a key is a part, and a point with more of them or the end. -/
theorem scanKeyParts_eq_some {n : ℕ} : scanKeyParts (n + 1) cs = some (path, rest) ↔
    ∃ part after, scanSimpleKey (skipSpace cs) = some (part, after) ∧
      ((∃ more parts, skipSpace after = '.' :: more ∧ scanKeyParts n more = some (parts, rest) ∧
        path = part :: parts) ∨
      (∀ z, skipSpace after ≠ '.' :: z) ∧ skipSpace after = rest ∧ path = [part]) := by
  constructor
  · intro h
    rw [scanKeyParts] at h
    split at h
    · simp at h
    · rename_i part after hpart
      refine ⟨part, after, hpart, ?_⟩
      split at h
      · rename_i more hpoint
        obtain ⟨parts, hmore, rfl⟩ := exists_of_map_eq_some h
        exact .inl ⟨more, parts, hpoint, hmore, rfl⟩
      · rename_i hpoint
        obtain ⟨rfl, rfl⟩ := Prod.mk.inj (Option.some.inj h)
        exact .inr ⟨hpoint, rfl, rfl⟩
  · rintro ⟨part, after, hpart, ⟨more, parts, hpoint, hmore, rfl⟩ | ⟨hpoint, rfl, rfl⟩⟩
    · simp only [scanKeyParts, hpart, hpoint, hmore, Option.map_some]
    · simp only [scanKeyParts, hpart]

/-- A dollar sign is no blank. -/
theorem not_isSpace_dollar : isSpace '$' = false := by decide

/-- A key starts with a mark or a character that needs none. -/
theorem skipSpace_ne_of_scanKeyParts {n : ℕ} (h : scanKeyParts n cs = some (path, rest))
    (hbare : isBare c = false) (hmark : c ≠ '\x22' ∧ c ≠ '\x27') (z : List Char) :
    skipSpace cs ≠ c :: z := by
  intro hz
  cases n with
  | zero => simp [scanKeyParts] at h
  | succ n =>
    obtain ⟨part, after, hpart, -⟩ := scanKeyParts_eq_some.mp h
    obtain ⟨x, -, hat⟩ := scanSimpleKey_eq_some.mp hpart
    rw [hz] at hat
    generalize hcs : c :: z = cs at hat
    cases hat with
    | basic cs => exact hmark.1 (List.cons.inj hcs).1
    | literal cs => exact hmark.2 (List.cons.inj hcs).1
    | bare x rest hne hx =>
      cases x with
      | nil => exact hne rfl
      | cons c' x =>
        obtain ⟨rfl, -⟩ := List.cons.inj hcs
        rw [hx _ List.mem_cons_self] at hbare
        exact absurd hbare (by decide)

/-- Dropping blanks makes no text longer. -/
theorem length_skipSpace_le (cs : List Char) : (skipSpace cs).length ≤ cs.length :=
  (List.dropWhile_suffix isSpace).length_le

/-- A part of a key takes at least one character. -/
theorem KeyPartAt.length_lt (h : KeyPartAt cs x rest) : rest.length < cs.length := by
  cases h with
  | basic cs x rest h => exact (length_lt_of_scanBasic h).trans (Nat.lt_succ_self _)
  | literal cs x rest h => exact (length_lt_of_scanLiteral h).trans (Nat.lt_succ_self _)
  | bare x rest hne =>
    have hpos := List.length_pos_iff.mpr hne
    rw [List.length_append]
    omega

/-- What is left behind a key is shorter. -/
theorem length_lt_of_scanKeyParts {n : ℕ} (h : scanKeyParts n cs = some (path, rest)) :
    rest.length < cs.length := by
  induction n generalizing cs path with
  | zero => simp [scanKeyParts] at h
  | succ n ih =>
    obtain ⟨part, after, hpart, hnext⟩ := scanKeyParts_eq_some.mp h
    obtain ⟨x, -, hat⟩ := scanSimpleKey_eq_some.mp hpart
    have hlt := hat.length_lt
    have hle := length_skipSpace_le cs
    have hle' := length_skipSpace_le after
    rcases hnext with ⟨more, parts, hpoint, hmore, -⟩ | ⟨-, rfl, -⟩
    · have hlt' := ih hmore
      rw [hpoint, List.length_cons] at hle'
      omega
    · omega

/-- A key in a draft stands before the gap, unless the word is in one of its parts. -/
theorem scanKeyParts_draft (hword : ∀ c ∈ '$' :: word, IsPlain c) {n : ℕ}
    (h : scanKeyParts n (d.fill ('$' :: word)) = some (path, rest))
    (hpath : Unnamed word (path.map String.toList)) (hrest : ∀ z, rest ≠ '$' :: z) :
    ∃ d' : Draft, d'.Tail d ∧ d'.fill ('$' :: word) = rest ∧
      ∀ w, scanKeyParts n (d.fill w) = some (path, d'.fill w) := by
  -- On the number of parts that may still come. A part is followed with the blanks around it; then
  -- a point leads to the parts that are left.
  induction n generalizing d path with
  | zero => simp [scanKeyParts] at h
  | succ n ih =>
    obtain ⟨part, after, hpart, hnext⟩ := scanKeyParts_eq_some.mp h
    obtain ⟨x, rfl, hat⟩ := scanSimpleKey_eq_some.mp hpart
    have hx : ¬ '$' :: word <:+: x := by
      rcases hnext with ⟨_, parts, -, -, rfl⟩ | ⟨-, -, rfl⟩
      · simpa using hpath _ (List.mem_map_of_mem List.mem_cons_self)
      · simpa using hpath _ (List.mem_map_of_mem List.mem_cons_self)
    have hfront := skipSpace_ne_of_scanKeyParts h (show isBare '$' = false by decide) (by decide)
    have hafter : ∀ z, skipSpace after ≠ '$' :: z := by
      rcases hnext with ⟨_, _, hpoint, -⟩ | ⟨-, hafter, -⟩
      · simp [hpoint]
      · rwa [hafter]
    obtain ⟨d₁, htail₁, hskip₁, -⟩ := Draft.dropWhile not_isSpace_dollar hfront
    have hskip₁' : ∀ w, skipSpace (d.fill w) = d₁.fill w := hskip₁
    rw [hskip₁'] at hat
    obtain ⟨d₂, htail₂, rfl, hat'⟩ := keyPartAt_draft hword hat hx fun z hz => by
      refine hafter z ?_
      rw [hz, skipSpace, List.dropWhile_cons_of_neg (by decide)]
    have hpart' : ∀ w, scanSimpleKey (skipSpace (d.fill w)) =
        some (String.ofList x, d₂.fill w) := fun w => by
      rw [hskip₁']
      exact scanSimpleKey_eq_some.mpr ⟨x, rfl, hat' w⟩
    obtain ⟨d₃, htail₃, hskip₃, -⟩ := Draft.dropWhile not_isSpace_dollar hafter
    have hskip₃' : ∀ w, skipSpace (d₂.fill w) = d₃.fill w := hskip₃
    rw [hskip₃'] at hafter hnext
    have htail := (htail₁.trans htail₂).trans htail₃
    rcases hnext with ⟨more, parts, hpoint, hmore, rfl⟩ | ⟨hpoint, rfl, rfl⟩
    · obtain ⟨d₄, rfl, rfl⟩ := Draft.peel ['.'] hpoint (by decide)
      obtain ⟨d', htail', hfill, hmore'⟩ := ih hmore fun name hname =>
        hpath name (List.mem_cons_of_mem _ hname)
      refine ⟨d', (htail.trans (.prepend _ d₄)).trans htail', hfill, fun w => ?_⟩
      exact scanKeyParts_eq_some.mpr ⟨_, _, hpart' w, .inl ⟨_, _,
        (hskip₃' w).trans (Draft.fill_prepend w _ d₄), hmore' w, rfl⟩⟩
    · refine ⟨d₃, htail, rfl, fun w => scanKeyParts_eq_some.mpr
        ⟨_, _, hpart' w, .inr ⟨fun z => ?_, hskip₃' w, rfl⟩⟩⟩
      rw [hskip₃']
      exact Draft.fill_ne hrest hpoint w z

/-- A key with a mark behind it in a draft stands before the gap, unless the word is in it. -/
theorem scanKey_draft (hword : ∀ c ∈ '$' :: word, IsPlain c)
    (h : scanKey (d.fill ('$' :: word)) = some (path, c :: rest))
    (hpath : Unnamed word (path.map String.toList)) (hc : c ≠ '$') :
    ∃ d' : Draft, d'.Tail d ∧ d'.fill ('$' :: word) = rest ∧
      ∀ w, scanKey (d.fill w) = some (path, c :: d'.fill w) := by
  obtain ⟨d₁, htail, hfill, hkey⟩ := scanKeyParts_draft hword h hpath fun z hz =>
    hc (List.cons.inj hz).1
  obtain ⟨d', rfl, rfl⟩ := Draft.peel [c] hfill (by simpa using hc.symm)
  exact ⟨d', htail.trans (.prepend _ d'), rfl, fun w => by
    rw [scanKey, hkey w, Draft.fill_prepend, List.singleton_append]⟩

/-- What is left behind a key is shorter. -/
theorem length_lt_of_scanKey (h : scanKey cs = some (path, rest)) : rest.length < cs.length :=
  length_lt_of_scanKeyParts h

/-! ## Blank lines -/

/-- Where there is no comment nothing is skipped. -/
theorem skipComment_of_ne (h : ∀ z, cs ≠ '#' :: z) : skipComment cs = cs := by
  unfold skipComment
  split
  · exact absurd rfl (h _)
  · rfl

/-- A comment is skipped the same with any word in the gap, or with any that fits it if the gap is
in it. -/
theorem skipComment_draft (d : Draft) (h : ∀ z, d.fill ('$' :: word) ≠ '$' :: z) :
    ∃ (places : List Spot) (d' : Draft), Passes places 0 d d' ∧
      ∀ w, Meets places w → skipComment (d.fill w) = d'.fill w := by
  by_cases hcomment : ∃ z, d.fill ('$' :: word) = '#' :: z
  · obtain ⟨z, hz⟩ := hcomment
    obtain ⟨d₁, rfl, rfl⟩ := Draft.peel ['#'] hz (by decide)
    rcases Draft.dropWhile_of_word d₁ isCommentChar with ⟨d', htail, hdrop⟩ | ⟨hgaps, rest, hdrop⟩
    · refine ⟨[], d', (Passes.of_tail htail).behind (.prepend _ d₁), fun w _ => ?_⟩
      rw [Draft.fill_prepend]
      exact hdrop w
    · refine ⟨[.comment], .whole rest, ⟨.past _ _, Nat.zero_le _, by simp [hgaps]⟩,
        fun w hw => ?_⟩
      rw [Draft.fill_prepend]
      exact hdrop w (meets_singleton.mp hw)
  · exact ⟨[], d, .of_tail (.refl d), fun w _ =>
      skipComment_of_ne (Draft.fill_ne h (fun z hz => hcomment ⟨z, hz⟩) w)⟩

/-- Blanks are skipped the same with any word in the gap, and then a comment. -/
theorem skipBlank_draft (h : ∀ z, skipSpace (d.fill ('$' :: word)) ≠ '$' :: z) :
    ∃ (places : List Spot) (d' : Draft), Passes places 0 d d' ∧
      ∀ w, Meets places w → skipComment (skipSpace (d.fill w)) = d'.fill w := by
  obtain ⟨d₁, htail, hskip, -⟩ := Draft.dropWhile not_isSpace_dollar h
  have hskip' : ∀ w, skipSpace (d.fill w) = d₁.fill w := hskip
  obtain ⟨places, d', hpasses, hcomment⟩ := skipComment_draft d₁ (hskip' _ ▸ h)
  exact ⟨places, d', hpasses.behind htail, fun w hw => by rw [hskip', hcomment w hw]⟩

/-- No line ends where the gap comes next. -/
theorem ne_dollar_of_lineEnd? (h : lineEnd? (skipComment (skipSpace cs)) = some rest)
    (z : List Char) : skipSpace cs ≠ '$' :: z := by
  intro hz
  rw [hz, skipComment_of_ne (by simp)] at h
  obtain ⟨lead, rfl | rfl, hlead⟩ := lineEnd?_eq_some.mp h <;> simp at hlead

/-- A line end behind blanks and a comment is not reached without taking something. -/
theorem length_lt_of_lineEnd? (h : lineEnd? (skipComment (skipSpace cs)) = some rest) :
    rest.length < cs.length := by
  have hspace := length_skipSpace_le cs
  have hcomment : ∀ cs : List Char, (skipComment cs).length ≤ cs.length := by
    intro cs
    unfold skipComment
    split
    · rename_i more
      exact (List.dropWhile_suffix isCommentChar).length_le.trans (Nat.le_succ _)
    · exact le_rfl
  have hle := hcomment (skipSpace cs)
  obtain ⟨lead, hlead, hcs⟩ := lineEnd?_eq_some.mp h
  rw [hcs, List.length_append] at hle
  have hpos : 0 < lead.length := by rcases hlead with rfl | rfl <;> simp
  omega

/-- A blank line is skipped, and then the lines behind it. -/
theorem skipLines_of_some {n : ℕ} (h : lineEnd? (skipComment (skipSpace cs)) = some rest) :
    skipLines (n + 1) cs = skipLines n rest := by
  simp only [skipLines, h]

/-- In front of a line that is not blank only blanks are skipped. -/
theorem skipLines_of_none {n : ℕ} (h : lineEnd? (skipComment (skipSpace cs)) = none) :
    skipLines (n + 1) cs = skipSpace cs := by
  simp only [skipLines, h]

/-- Skipping lines makes no text longer. -/
theorem length_skipLines_le (n : ℕ) (cs : List Char) : (skipLines n cs).length ≤ cs.length := by
  induction n generalizing cs with
  | zero => exact le_rfl
  | succ n ih =>
    cases hend : lineEnd? (skipComment (skipSpace cs)) with
    | some next =>
      rw [skipLines_of_some hend]
      exact (ih next).trans (length_lt_of_lineEnd? hend).le
    | none =>
      rw [skipLines_of_none hend]
      exact length_skipSpace_le cs

/-- A line end behind blanks and a comment is found the same with any word in the gap, or with any
that fits the comment if the gap is in it. -/
theorem lineEnd?_blank_draft (hword : ∀ c ∈ '$' :: word, IsPlain c)
    (h : lineEnd? (skipComment (skipSpace (d.fill ('$' :: word)))) = some rest) :
    ∃ (places : List Spot) (d' : Draft), Passes places 0 d d' ∧ d'.fill ('$' :: word) = rest ∧
      ∀ w, Meets places w → lineEnd? (skipComment (skipSpace (d.fill w))) = some (d'.fill w) := by
  obtain ⟨places, d₁, hpasses, hskip⟩ := skipBlank_draft (ne_dollar_of_lineEnd? h)
  rw [hskip _ (meets_dollar hword places)] at h
  obtain ⟨d', htail, hfill, hline⟩ := lineEnd?_draft h
  exact ⟨places, d', hpasses.before htail, hfill, fun w hw => by rw [hskip w hw, hline]⟩

/-- Where no line ends, none ends with any word in a gap that does not come next. -/
theorem lineEnd?_blank_eq_none (h : lineEnd? (d.fill ('$' :: word)) = none)
    (hne : ∀ c ∈ ['$', '\x0d', '#'], ∀ z, d.fill ('$' :: word) ≠ c :: z) (w : List Char) :
    lineEnd? (skipComment (d.fill w)) = none := by
  have hfill : ∀ c, (∀ z, d.fill ('$' :: word) ≠ c :: z) → ∀ z, d.fill w ≠ c :: z := fun c hc =>
    Draft.fill_ne (hne '$' (by decide)) hc w
  rw [skipComment_of_ne (hfill '#' (hne '#' (by decide))), Option.eq_none_iff_forall_ne_some]
  intro rest hrest
  obtain ⟨lead, rfl | rfl, hcs⟩ := lineEnd?_eq_some.mp hrest
  · refine hfill '\x0a' (fun z hz => ?_) _ hcs
    rw [hz] at h
    exact absurd h (Option.some_ne_none z)
  · exact hfill '\x0d' (hne '\x0d' (by decide)) _ hcs

/-- Blank lines in a draft are skipped the same with any word in the gap that fits the comments
among them. -/
theorem skipLines_draft (hword : ∀ c ∈ '$' :: word, IsPlain c) {n : ℕ}
    (hn : (d.fill ('$' :: word)).length ≤ n)
    (hne : ∀ c ∈ ['$', '\x0d', '#'], ∀ z, skipLines n (d.fill ('$' :: word)) ≠ c :: z) :
    ∃ (places : List Spot) (d' : Draft), Passes places 0 d d' ∧
      skipLines n (d.fill ('$' :: word)) = d'.fill ('$' :: word) ∧
      ∀ w, Meets places w → ∀ m, (d.fill w).length ≤ m → skipLines m (d.fill w) = d'.fill w := by
  induction n generalizing d with
  | zero =>
    obtain rfl := Draft.eq_whole_nil (List.eq_nil_of_length_eq_zero (Nat.le_zero.mp hn))
    refine ⟨[], .whole [], .of_tail (.refl _), rfl, fun w _ m _ => ?_⟩
    cases m <;> rfl
  | succ n ih =>
    cases hend : lineEnd? (skipComment (skipSpace (d.fill ('$' :: word)))) with
    | some next =>
      have hlt := length_lt_of_lineEnd? hend
      rw [skipLines_of_some hend] at hne ⊢
      obtain ⟨ps, d₁, hps, rfl, hline⟩ := lineEnd?_blank_draft hword hend
      obtain ⟨qs, d', hqs, hraw, hfill⟩ := ih (by omega) hne
      refine ⟨ps ++ qs, d', hps.trans hqs, hraw, fun w hw m hm => ?_⟩
      obtain ⟨hwps, hwqs⟩ := meets_append.mp hw
      have hlt' := length_lt_of_lineEnd? (hline w hwps)
      obtain ⟨m, rfl⟩ : ∃ m', m = m' + 1 := ⟨m - 1, by omega⟩
      rw [skipLines_of_some (hline w hwps)]
      exact hfill w hwqs m (by omega)
    | none =>
      rw [skipLines_of_none hend] at hne ⊢
      obtain ⟨d', htail, hskip, -⟩ := Draft.dropWhile not_isSpace_dollar (hne '$' (by decide))
      have hskip' : ∀ w, skipSpace (d.fill w) = d'.fill w := hskip
      rw [hskip'] at hne hend ⊢
      rw [skipComment_of_ne (hne '#' (by decide))] at hend
      refine ⟨[], d', .of_tail htail, rfl, fun w _ m hm => ?_⟩
      have hend' := lineEnd?_blank_eq_none hend hne w
      cases m with
      | zero =>
        rw [← hskip', List.eq_nil_of_length_eq_zero (Nat.le_zero.mp hm)]
        rfl
      | succ m => rw [skipLines_of_none (by rw [hskip', hend']), hskip']

/-- A character behind blank lines in a draft stands there with any word in the gap that fits the
comments among them. -/
theorem skipLines_cons (hword : ∀ c ∈ '$' :: word, IsPlain c)
    (h : skipLines (d.fill ('$' :: word)).length (d.fill ('$' :: word)) = c :: rest)
    (hc : c ∉ ['$', '\x0d', '#']) :
    ∃ (places : List Spot) (d' : Draft), Passes places 0 d d' ∧ d'.fill ('$' :: word) = rest ∧
      ∀ w, Meets places w → skipLines (d.fill w).length (d.fill w) = c :: d'.fill w := by
  have hne : ∀ k ∈ ['$', '\x0d', '#'], ∀ z,
      skipLines (d.fill ('$' :: word)).length (d.fill ('$' :: word)) ≠ k :: z := by
    intro k hk z hz
    obtain ⟨rfl, -⟩ := List.cons.inj (h.symm.trans hz)
    exact hc hk
  obtain ⟨places, d₁, hpasses, hraw, hfill⟩ := skipLines_draft hword le_rfl hne
  have hdollar : '$' ∉ [c] := by
    rintro hmem
    obtain rfl := List.mem_singleton.mp hmem
    exact hc (by decide)
  obtain ⟨d', rfl, rfl⟩ := Draft.peel [c] (hraw.symm.trans h) hdollar
  refine ⟨places, d', hpasses.before (.prepend _ d'), rfl, fun w hw => ?_⟩
  rw [hfill w hw _ le_rfl, Draft.fill_prepend, List.singleton_append]

/-- A comment at the end of a document is there with any word in the gap that fits the comments. -/
theorem skipLines_comment (hword : ∀ c ∈ '$' :: word, IsPlain c) {n : ℕ}
    (hn : (d.fill ('$' :: word)).length ≤ n)
    (h : skipLines n (d.fill ('$' :: word)) = '#' :: rest)
    (hrest : ∀ c ∈ rest, isCommentChar c = true) :
    ∃ places : List Spot, places.length ≤ d.gaps ∧ ∀ w, Meets places w →
      ∃ z, (∀ c ∈ z, isCommentChar c = true) ∧
        ∀ m, (d.fill w).length ≤ m → skipLines m (d.fill w) = '#' :: z := by
  induction n generalizing d with
  | zero =>
    rw [List.eq_nil_of_length_eq_zero (Nat.le_zero.mp hn)] at h
    exact absurd h.symm (List.cons_ne_nil _ _)
  | succ n ih =>
    cases hend : lineEnd? (skipComment (skipSpace (d.fill ('$' :: word)))) with
    | some next =>
      have hlt := length_lt_of_lineEnd? hend
      rw [skipLines_of_some hend] at h
      obtain ⟨ps, d₁, hps, rfl, hline⟩ := lineEnd?_blank_draft hword hend
      obtain ⟨qs, hqs, hfill⟩ := ih (by omega) h
      have hlen := hps.length_le
      refine ⟨ps ++ qs, by rw [List.length_append]; omega, fun w hw => ?_⟩
      obtain ⟨hwps, hwqs⟩ := meets_append.mp hw
      obtain ⟨z, hz, hskip⟩ := hfill w hwqs
      refine ⟨z, hz, fun m hm => ?_⟩
      have hlt' := length_lt_of_lineEnd? (hline w hwps)
      obtain ⟨m, rfl⟩ : ∃ m', m = m' + 1 := ⟨m - 1, by omega⟩
      rw [skipLines_of_some (hline w hwps)]
      exact hskip m (by omega)
    | none =>
      rw [skipLines_of_none hend] at h
      obtain ⟨d', htail, rfl, hskip⟩ := Draft.dropWhile_cons not_isSpace_dollar h (by decide)
      have hskip' : ∀ w, skipSpace (d.fill w) = '#' :: d'.fill w := hskip
      -- the gap is in the comment or nowhere
      refine ⟨List.replicate d'.gaps .comment, by simpa using htail.gaps_le, fun w hw => ?_⟩
      have hcomment : ∀ c ∈ d'.fill w, isCommentChar c = true := by
        cases d' with
        | whole text => exact hrest
        | gapped front back => exact Draft.forall_fill hrest (meets_singleton.mp hw)
      refine ⟨d'.fill w, hcomment, fun m hm => ?_⟩
      have hend' : lineEnd? (skipComment (skipSpace (d.fill w))) = none := by
        rw [hskip', skipComment, List.dropWhile_eq_nil_iff.mpr hcomment]
        rfl
      have hpos := (List.dropWhile_suffix isSpace (l := d.fill w)).length_le
      rw [hskip w, List.length_cons] at hpos
      obtain ⟨m, rfl⟩ : ∃ m', m = m' + 1 := ⟨m - 1, by omega⟩
      rw [skipLines_of_none hend', hskip']

/-- A line ends at the end of the document or at a line end. -/
theorem endOfLine?_eq_some : endOfLine? cs = some rest ↔
    skipComment (skipSpace cs) = [] ∧ rest = [] ∨
      lineEnd? (skipComment (skipSpace cs)) = some rest := by
  unfold endOfLine?
  split
  · rename_i hend
    simp [hend, lineEnd?, eq_comm]
  · rename_i hend
    constructor
    · exact .inr
    · rintro (⟨hnil, -⟩ | h)
      · exact absurd hnil (by simpa using hend)
      · exact h

/-- The end of a line makes no text longer. -/
theorem length_le_of_endOfLine? (h : endOfLine? cs = some rest) : rest.length ≤ cs.length := by
  rcases endOfLine?_eq_some.mp h with ⟨-, rfl⟩ | hend
  · exact Nat.zero_le _
  · exact (length_lt_of_lineEnd? hend).le

/-- The end of a line in a draft is found the same with any word in the gap, or with any that fits the
comment there if the gap is in it. -/
theorem endOfLine?_draft (hword : ∀ c ∈ '$' :: word, IsPlain c)
    (h : endOfLine? (d.fill ('$' :: word)) = some rest) :
    ∃ (places : List Spot) (d' : Draft), Passes places 0 d d' ∧ d'.fill ('$' :: word) = rest ∧
      ∀ w, Meets places w → endOfLine? (d.fill w) = some (d'.fill w) := by
  rcases endOfLine?_eq_some.mp h with ⟨hnil, rfl⟩ | hend
  · have hfront : ∀ z, skipSpace (d.fill ('$' :: word)) ≠ '$' :: z := by
      intro z hz
      rw [hz, skipComment_of_ne (by simp)] at hnil
      exact List.cons_ne_nil _ _ hnil
    obtain ⟨places, d', hpasses, hskip⟩ := skipBlank_draft hfront
    rw [hskip _ (meets_dollar hword places)] at hnil
    obtain rfl := Draft.eq_whole_nil hnil
    exact ⟨places, .whole [], hpasses, rfl, fun w hw =>
      endOfLine?_eq_some.mpr (.inl ⟨hskip w hw, rfl⟩)⟩
  · obtain ⟨places, d', hpasses, hfill, hline⟩ := lineEnd?_blank_draft hword hend
    exact ⟨places, d', hpasses, hfill, fun w hw =>
      endOfLine?_eq_some.mpr (.inr (hline w hw))⟩

end Repertoire.Toml.Literal
