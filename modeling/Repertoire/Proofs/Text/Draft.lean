import Mathlib.Data.List.TakeWhile
import Mathlib.Data.Nat.Notation

/-!
# Texts with a gap

A draft is a text that may have a gap for a word. What a reader does on a draft is told from what
it does with one word in the gap: as long as the word starts with a character at which the reader
cannot go on, everything that is read stands before the gap, and reads the same with any other word.

A reader is followed through a draft from its front to its end. What it takes off the front is
again a draft, or something made of drafts, and so is what it leaves; the gap is in at most one of
the two.
-/

namespace Repertoire.Text

/-- A text that may have a gap. -/
inductive Draft where
  | gapped (front back : List Char)
  | whole (text : List Char)

namespace Draft

variable {d d' d'' : Draft} {c k : Char} {w word : List Char}

/-- The text with a word in the gap. -/
def fill (w : List Char) : Draft → List Char
  | gapped front back => front ++ w ++ back
  | whole text => text

/-- The number of gaps. -/
def gaps : Draft → ℕ
  | gapped _ _ => 1
  | whole _ => 0

/-- The draft with a text in front. -/
def prepend (lead : List Char) : Draft → Draft
  | gapped front back => gapped (lead ++ front) back
  | whole text => whole (lead ++ text)

@[simp] theorem fill_gapped (w front back : List Char) :
    (gapped front back).fill w = front ++ w ++ back := rfl

@[simp] theorem fill_whole (w text : List Char) : (whole text).fill w = text := rfl

@[simp] theorem gaps_gapped (front back : List Char) : (gapped front back).gaps = 1 := rfl

@[simp] theorem gaps_whole (text : List Char) : (whole text).gaps = 0 := rfl

@[simp] theorem fill_prepend (w lead : List Char) (d : Draft) :
    (d.prepend lead).fill w = lead ++ d.fill w := by
  cases d with
  | gapped front back => simp [prepend]
  | whole text => rfl

@[simp] theorem gaps_prepend (lead : List Char) (d : Draft) : (d.prepend lead).gaps = d.gaps := by
  cases d <;> rfl

/-- A draft has one gap at most. -/
theorem gaps_le_one (d : Draft) : d.gaps ≤ 1 := by
  cases d with
  | gapped front back => exact le_rfl
  | whole text => exact Nat.zero_le 1

/-- What is put in front of what was put in front stands before it. -/
theorem prepend_prepend (lead lead' : List Char) (d : Draft) :
    (d.prepend lead').prepend lead = d.prepend (lead ++ lead') := by
  cases d <;> simp [prepend]

/-- The gap is not among the first characters, or there is none. -/
def Beyond (n : ℕ) : Draft → Prop
  | gapped front _ => n ≤ front.length
  | whole _ => True

/-- Behind a text in front the gap is beyond the text. -/
theorem beyond_prepend {n : ℕ} {lead : List Char} (h : n ≤ lead.length) (d : Draft) :
    (d.prepend lead).Beyond n := by
  cases d with
  | gapped front back =>
    simp only [prepend, Beyond, List.length_append]
    omega
  | whole text => trivial

/-- A gap beyond a place is beyond every place before it. -/
theorem Beyond.mono {n m : ℕ} (h : d.Beyond n) (hle : m ≤ n) : d.Beyond m := by
  cases d with
  | gapped front back => exact hle.trans h
  | whole text => trivial

/-- The characters before the gap do not depend on the word. -/
theorem Beyond.take_fill {n : ℕ} (h : d.Beyond n) (w w' : List Char) :
    (d.fill w).take n = (d.fill w').take n := by
  cases d with
  | gapped front back =>
    simp only [fill_gapped, List.append_assoc]
    rw [List.take_append_of_le_length h, List.take_append_of_le_length h]
  | whole text => rfl

/-- What is left of a draft when something has been taken off its front. -/
inductive Tail : Draft → Draft → Prop
  /-- The gap is still ahead. -/
  | ahead (taken front back : List Char) : Tail (gapped front back) (gapped (taken ++ front) back)
  /-- The gap has been passed, or there was none. -/
  | past (text : List Char) (d : Draft) : Tail (whole text) d

namespace Tail

/-- A draft is a tail of itself. -/
theorem refl (d : Draft) : Tail d d := by
  cases d with
  | gapped front back => exact .ahead [] front back
  | whole text => exact .past text _

/-- A tail of a tail is a tail. -/
theorem trans (h : Tail d' d) (h' : Tail d'' d') : Tail d'' d := by
  cases h' with
  | past text => exact .past text d
  | ahead taken' front back =>
    cases h with
    | ahead taken => rw [← List.append_assoc]; exact .ahead _ front back

/-- A draft is a tail of what it becomes with a text in front. -/
theorem prepend (lead : List Char) (d : Draft) : Tail d (d.prepend lead) := by
  cases d with
  | gapped front back => exact .ahead lead front back
  | whole text => exact .past text _

/-- A tail has no more gaps. -/
theorem gaps_le (h : Tail d' d) : d'.gaps ≤ d.gaps := by
  cases h with
  | ahead => exact le_rfl
  | past => exact Nat.zero_le _

end Tail

/-- A text in front that has nothing of the start of the word stands in the draft itself. -/
theorem peel (lead : List Char) {z : List Char} (h : d.fill (k :: word) = lead ++ z)
    (hlead : k ∉ lead) : ∃ d' : Draft, d = d'.prepend lead ∧ d'.fill (k :: word) = z := by
  cases d with
  | whole text => exact ⟨whole z, congrArg whole h, rfl⟩
  | gapped front back =>
    rw [fill_gapped, List.append_assoc, List.append_eq_append_iff] at h
    rcases h with ⟨more, hmore, hz⟩ | ⟨more, rfl, hz⟩
    · cases more with
      | nil => exact ⟨gapped [] back, by simp [prepend, hmore], by simpa using hz⟩
      | cons c more =>
        obtain ⟨rfl, -⟩ := List.cons.inj hz
        exact absurd (hmore ▸ List.mem_append_right _ List.mem_cons_self) hlead
    · exact ⟨gapped more back, rfl, by rw [hz, fill_gapped, List.append_assoc]⟩

/-- A draft that does not start with the word in its gap starts the same with any word. -/
theorem head?_fill (h : ∀ z, d.fill (k :: word) ≠ k :: z) (w : List Char) :
    (d.fill w).head? = (d.fill (k :: word)).head? := by
  cases d with
  | whole text => rfl
  | gapped front back =>
    cases front with
    | nil => exact absurd rfl (h _)
    | cons c front => rfl

/-- What a draft does not start with, with a word in its gap that is not in front, it starts with
for no word. -/
theorem fill_ne (h : ∀ z, d.fill (k :: word) ≠ k :: z) (hc : ∀ z, d.fill (k :: word) ≠ c :: z)
    (w z : List Char) : d.fill w ≠ c :: z := by
  intro hz
  have hhead := head?_fill h w
  rw [hz, List.head?_cons, eq_comm, List.head?_eq_some_iff] at hhead
  obtain ⟨z', hz'⟩ := hhead
  exact hc z' hz'

/-- A draft that ends with the word in its gap has no gap. -/
theorem eq_whole_nil (h : d.fill (k :: word) = []) : d = whole [] := by
  cases d with
  | whole text => exact congrArg whole h
  | gapped front back => simp at h

/-- What holds of every character with one word in the gap holds with another if it does in it. -/
theorem forall_fill {p : Char → Prop} (h : ∀ c ∈ d.fill (k :: word), p c) (hw : ∀ c ∈ w, p c) :
    ∀ c ∈ d.fill w, p c := by
  cases d with
  | whole text => exact h
  | gapped front back =>
    simp only [fill_gapped, List.mem_append] at h ⊢
    rintro c ((hc | hc) | hc)
    · exact h c (.inl (.inl hc))
    · exact hw c hc
    · exact h c (.inr hc)

/-- Dropping characters that are not in front of the word does not reach the gap, unless nothing
else stands before it. -/
theorem dropWhile {p : Char → Bool} (hk : p k = false)
    (h : ∀ z, (d.fill (k :: word)).dropWhile p ≠ k :: z) :
    ∃ d', Tail d' d ∧ (∀ w, (d.fill w).dropWhile p = d'.fill w) ∧
      ∀ w, (d.fill w).takeWhile p = (d.fill (k :: word)).takeWhile p := by
  cases d with
  | whole text => exact ⟨whole (text.dropWhile p), .past _ _, fun _ => rfl, fun _ => rfl⟩
  | gapped front back =>
    have hsplit : ∀ w, (front.dropWhile p ≠ []) →
        ((front ++ w ++ back).dropWhile p = front.dropWhile p ++ w ++ back ∧
          (front ++ w ++ back).takeWhile p = front.takeWhile p) := by
      intro w hne
      rw [List.append_assoc, List.append_assoc, List.dropWhile_append, List.takeWhile_append]
      have hlt : (front.takeWhile p).length ≠ front.length := by
        intro hlen
        have hparts := congrArg List.length (List.takeWhile_append_dropWhile (p := p) (l := front))
        rw [List.length_append, hlen] at hparts
        exact hne (List.eq_nil_of_length_eq_zero (by omega))
      simp [hne, hlt]
    have hne : front.dropWhile p ≠ [] := by
      intro hnil
      refine h (word ++ back) ?_
      simp [List.append_assoc, List.dropWhile_append, hnil, hk]
    refine ⟨gapped (front.dropWhile p) back, ?_, fun w => (hsplit w hne).1, fun w => ?_⟩
    · have htail := Tail.ahead (front.takeWhile p) (front.dropWhile p) back
      rwa [List.takeWhile_append_dropWhile] at htail
    · exact (hsplit w hne).2.trans (hsplit _ hne).2.symm

/-- What is dropped up to a character before the word is dropped with any word. -/
theorem dropWhile_cons {p : Char → Bool} {rest : List Char} (hk : p k = false)
    (h : (d.fill (k :: word)).dropWhile p = c :: rest) (hc : c ≠ k) :
    ∃ d' : Draft, d'.Tail d ∧ d'.fill (k :: word) = rest ∧
      ∀ w, (d.fill w).dropWhile p = c :: d'.fill w := by
  obtain ⟨d₁, htail, hdrop, -⟩ := dropWhile hk fun z hz => hc (List.cons.inj (h.symm.trans hz)).1
  obtain ⟨d', rfl, hrest⟩ := peel [c] ((hdrop _).symm.trans h) (by simpa using hc.symm)
  exact ⟨d', htail.trans (.prepend [c] d'), hrest, fun w => by
    rw [hdrop, fill_prepend, List.singleton_append]⟩

/-- A draft of which all is dropped with the word in its gap has no gap that can be seen. -/
theorem dropWhile_nil {p : Char → Bool} (hk : p k = false)
    (h : (d.fill (k :: word)).dropWhile p = []) (w : List Char) :
    (d.fill w).dropWhile p = [] := by
  obtain ⟨d₁, -, hdrop, -⟩ := dropWhile hk fun z hz => List.cons_ne_nil k z (hz.symm.trans h)
  rw [hdrop, eq_whole_nil ((hdrop _).symm.trans h), fill_whole]

/-- Dropping characters leaves the gap ahead with every word, or goes past it with every word that
is made of them. -/
theorem dropWhile_of_word (d : Draft) (p : Char → Bool) :
    (∃ d', Tail d' d ∧ ∀ w, (d.fill w).dropWhile p = d'.fill w) ∨
      d.gaps = 1 ∧ ∃ rest, ∀ w, (∀ c ∈ w, p c = true) → (d.fill w).dropWhile p = rest := by
  cases d with
  | whole text => exact .inl ⟨whole (text.dropWhile p), .past _ _, fun _ => rfl⟩
  | gapped front back =>
    by_cases hfront : ∀ c ∈ front, p c = true
    · refine .inr ⟨rfl, back.dropWhile p, fun w hw => ?_⟩
      rw [fill_gapped, List.append_assoc, List.dropWhile_append_of_pos hfront,
        List.dropWhile_append_of_pos hw]
    · have hne : front.dropWhile p ≠ [] := fun hnil =>
        hfront (List.dropWhile_eq_nil_iff.mp hnil)
      refine .inl ⟨gapped (front.dropWhile p) back, ?_, fun w => ?_⟩
      · have htail := Tail.ahead (front.takeWhile p) (front.dropWhile p) back
        rwa [List.takeWhile_append_dropWhile] at htail
      · simp [List.append_assoc, List.dropWhile_append, hne]

end Draft

/-! ## Following a reader -/

variable {α : Type}

/-- A reader that makes something of what another one reads leaves what that one leaves. -/
theorem exists_of_map_eq_some {β : Type} {f : α → β} {out : Option (α × List Char)} {y : β}
    {rest : List Char} (h : (out.map fun (x, rest) => (f x, rest)) = some (y, rest)) :
    ∃ x, out = some (x, rest) ∧ f x = y := by
  obtain ⟨⟨x, rest'⟩, hread, hout⟩ := Option.map_eq_some_iff.mp h
  obtain ⟨hx, rfl⟩ := Prod.mk.inj hout
  exact ⟨x, hread, hx⟩

/-- Whatever fitting word is in the gap of `d`, the reader takes what `view` shows off the front and
leaves `d'`. What it takes has the given number of gaps. -/
structure Reads (fits : List Char → Prop) (read : List Char → Option (α × List Char))
    (d : Draft) (view : List Char → α) (gaps : ℕ) (d' : Draft) : Prop where
  tail : d'.Tail d
  gaps_le : gaps + d'.gaps ≤ d.gaps
  read_eq : ∀ w, fits w → read (d.fill w) = some (view w, d'.fill w)

/-- Whatever word is in the gap of `d`, the reader takes the same off the front, which has at least
the given length, and leaves `d'` with the gap. -/
structure ReadsAhead (read : List Char → Option (α × List Char)) (width : ℕ) (d : Draft) (x : α)
    (d' : Draft) : Prop where
  split : ∃ lead, d = d'.prepend lead ∧ width ≤ lead.length
  read_eq : ∀ w, read (d.fill w) = some (x, d'.fill w)

/-- The reader takes a text off the front of `d` with the gap ahead or, with a fitting word, with the
word in it. -/
def ReadsText (fits : List Char → Prop) (read : List Char → Option (List Char × List Char))
    (width : ℕ) (d : Draft) (x rest : List Char) : Prop :=
  (∃ d', ReadsAhead read width d x d') ∨
    ∃ front back, Reads fits read d (Draft.gapped front back).fill 1 (.whole rest)

section

variable {fits : List Char → Prop} {read : List Char → Option (α × List Char)} {d d' d₀ : Draft}
  {view : List Char → α} {gaps width : ℕ} {w rest : List Char} {x : α}

/-- What a reader does with one fitting word is what it is followed to do. -/
theorem Reads.eq (h : Reads fits read d view gaps d') (hw : fits w)
    (hread : read (d.fill w) = some (x, rest)) : view w = x ∧ d'.fill w = rest := by
  rw [h.read_eq w hw, Option.some.injEq, Prod.mk.injEq] at hread
  exact hread

/-- The gap is beyond what was read before it. -/
theorem ReadsAhead.beyond (h : ReadsAhead read width d x d') : d.Beyond width := by
  obtain ⟨lead, rfl, hwidth⟩ := h.split
  exact Draft.beyond_prepend hwidth d'

/-- What is left is a tail. -/
theorem ReadsAhead.tail (h : ReadsAhead read width d x d') : d'.Tail d := by
  obtain ⟨lead, rfl, -⟩ := h.split
  exact .prepend lead d'

/-- What is left with one word is what the reader is followed to leave. -/
theorem ReadsAhead.fill_eq (h : ReadsAhead read width d x d')
    (hread : read (d.fill w) = some (x, rest)) : d'.fill w = rest := by
  rw [h.read_eq w, Option.some.injEq, Prod.mk.injEq] at hread
  exact hread.2

/-- What is read before the gap is read with every word, and has no gap. -/
theorem ReadsAhead.reads (h : ReadsAhead read width d x d') (fits : List Char → Prop) :
    Reads fits read d (fun _ => x) 0 d' := by
  obtain ⟨lead, rfl, -⟩ := h.split
  exact ⟨.prepend lead d', by simp, fun w _ => h.read_eq w⟩

end

/-! ## Reading piece by piece -/

variable {σ : Type}

/-- A reader of texts that reads one piece after another until it finds the end. What it does with
a piece depends on a state and on what follows, of which it sees as many characters as the end has
at least. With any fitting word in the gap it finds the same pieces before the gap, and the word
itself is taken as it is. -/
structure Piecewise (fits : List Char → Prop) (k : Char) (word : List Char) (width : ℕ)
    (read : σ → List Char → Option (List Char × List Char))
    (IsPiece : σ → List Char → List Char → σ → List Char → Prop)
    (IsEnd : σ → List Char → List Char → List Char → Prop) : Prop where
  read_cases : ∀ {s cs x rest}, read s cs = some (x, rest) → IsEnd s cs x rest ∨
    ∃ lead y s' more x', IsPiece s lead y s' more ∧ cs = lead ++ more ∧ x = y ++ x' ∧
      read s' more = some (x', rest)
  read_end : ∀ {s cs x rest}, IsEnd s cs x rest → read s cs = some (x, rest)
  read_piece : ∀ {s lead y s' more}, IsPiece s lead y s' more →
    read s (lead ++ more) = (read s' more).map fun out => (y ++ out.1, out.2)
  piece_ne_nil : ∀ {s lead y s' more}, IsPiece s lead y s' more → lead ≠ []
  end_draft : ∀ {s} {d : Draft} {x rest}, IsEnd s (d.fill (k :: word)) x rest →
    (∀ z, rest ≠ k :: z) → ∃ (lead : List Char) (d' : Draft), d = d'.prepend lead ∧
      width ≤ lead.length ∧ ∀ w, IsEnd s (d.fill w) x (d'.fill w)
  piece_draft : ∀ {s lead y s' more}, IsPiece s lead y s' more → k ∉ lead ∨ lead = [k]
  more_draft : ∀ {s lead y s'} {d : Draft}, IsPiece s lead y s' (d.fill (k :: word)) →
    ∀ w, fits w ∨ d.Beyond width → IsPiece s lead y s' (d.fill w)
  read_gap : ∀ {s back x rest}, read s (k :: word ++ back) = some (x, rest) →
    ∃ x', ∀ w, fits w → read s (w ++ back) = some (w ++ x', rest)

section

variable {fits : List Char → Prop} {k : Char} {word : List Char} {width : ℕ}
  {read : σ → List Char → Option (List Char × List Char)}
  {IsPiece : σ → List Char → List Char → σ → List Char → Prop}
  {IsEnd : σ → List Char → List Char → List Char → Prop}
  (h : Piecewise fits k word width read IsPiece IsEnd)

include h

/-- A text that is read piece by piece leaves the gap ahead, or has it where the word is. -/
theorem Piecewise.reads (s : σ) {d : Draft} {x rest : List Char}
    (hread : read s (d.fill (k :: word)) = some (x, rest)) (hrest : ∀ z, rest ≠ k :: z) :
    ReadsText fits (read s) width d x rest := by
  -- On the length of the text, since a piece takes a front of any length off.
  induction hn : (d.fill (k :: word)).length using Nat.strong_induction_on
    generalizing s d x with
  | _ n ih =>
    rcases h.read_cases hread with hend | ⟨lead, y, s', more, x', hpiece, hcs, rfl, hmore⟩
    · obtain ⟨lead, d', hd, hwidth, hfill⟩ := h.end_draft hend hrest
      exact .inl ⟨d', ⟨lead, hd, hwidth⟩, fun w => h.read_end (hfill w)⟩
    · -- the piece stands before the gap, or the gap comes next
      have hahead : ∀ d₁ : Draft, d = d₁.prepend lead → d₁.fill (k :: word) = more →
          ReadsText fits (read s) width d (y ++ x') rest := by
        rintro d₁ rfl rfl
        have hlen : 0 < lead.length := List.length_pos_iff.mpr (h.piece_ne_nil hpiece)
        have hlt : (d₁.fill (k :: word)).length < n := by
          rw [← hn, Draft.fill_prepend, List.length_append]
          omega
        rcases ih _ hlt s' hmore rfl with ⟨d', hreads⟩ | ⟨front, back, hreads⟩
        · refine .inl ⟨d', ?_, fun w => ?_⟩
          · obtain ⟨lead', rfl, hwidth⟩ := hreads.split
            refine ⟨lead ++ lead', Draft.prepend_prepend lead lead' d', ?_⟩
            rw [List.length_append]
            omega
          · rw [Draft.fill_prepend, h.read_piece (h.more_draft hpiece w (.inr hreads.beyond)),
              hreads.read_eq w, Option.map_some]
        · refine .inr ⟨y ++ front, back, .past _ _, by simpa using hreads.gaps_le, fun w hw => ?_⟩
          rw [Draft.fill_prepend, h.read_piece (h.more_draft hpiece w (.inl hw)),
            hreads.read_eq w hw, Option.map_some]
          simp
      -- A piece that holds the mark of the gap is that mark alone. It stands before the gap, or
      -- opens it when nothing is left of the front.
      rcases h.piece_draft hpiece with hlead | rfl
      · obtain ⟨d₁, hd, hd₁⟩ := Draft.peel lead hcs hlead
        exact hahead d₁ hd hd₁
      · cases d with
        | whole text => exact hahead (.whole more) (congrArg Draft.whole hcs) rfl
        | gapped front back =>
          cases front with
          | cons c front =>
            obtain ⟨rfl, hd₁⟩ := List.cons.inj hcs
            exact hahead (.gapped front back) rfl hd₁
          | nil =>
            obtain ⟨x'', hgap⟩ := h.read_gap hread
            exact .inr ⟨[], x'', .past _ _, by simp, fun w hw => hgap w hw⟩

/-- What is left behind a text that is read piece by piece is shorter, if its end is something. -/
theorem Piecewise.length_lt
    (hend : ∀ {s cs x rest}, IsEnd s cs x rest → rest.length < cs.length) {s : σ}
    {cs x rest : List Char} (hread : read s cs = some (x, rest)) : rest.length < cs.length := by
  induction hn : cs.length using Nat.strong_induction_on generalizing s cs x with
  | _ n ih =>
    rcases h.read_cases hread with hcs | ⟨lead, y, s', more, x', hpiece, rfl, -, hmore⟩
    · exact hn ▸ hend hcs
    · have hpos := List.length_pos_iff.mpr (h.piece_ne_nil hpiece)
      rw [List.length_append] at hn
      have hlt := ih more.length (by omega) hmore rfl
      omega

/-- A text without the word in it leaves the gap ahead. -/
theorem Piecewise.reads_outside (s : σ) {d : Draft} {x rest : List Char} (hword : fits (k :: word))
    (hread : read s (d.fill (k :: word)) = some (x, rest)) (hrest : ∀ z, rest ≠ k :: z)
    (hx : ¬ k :: word <:+: x) : ∃ d', ReadsAhead (read s) width d x d' := by
  rcases h.reads s hread hrest with hahead | ⟨front, back, hreads⟩
  · exact hahead
  · exact absurd ⟨front, back, (hreads.eq hword hread).1⟩ hx

/-- A text is read with the gap in it or ahead. -/
theorem Piecewise.reads_draft (s : σ) {d : Draft} {x rest : List Char}
    (hread : read s (d.fill (k :: word)) = some (x, rest)) (hrest : ∀ z, rest ≠ k :: z) :
    ∃ o d' : Draft, Reads fits (read s) d o.fill o.gaps d' := by
  rcases h.reads s hread hrest with ⟨d', hahead⟩ | ⟨front, back, hreads⟩
  · exact ⟨.whole x, d', hahead.reads fits⟩
  · exact ⟨.gapped front back, .whole rest, hreads⟩

end

/-- A word made of characters that are pieces is taken as it is. -/
theorem read_word {read : List Char → Option (List Char × List Char)} {p : Char → Prop}
    (hchar : ∀ c, p c → ∀ cs, read (c :: cs) = (read cs).map fun out => (c :: out.1, out.2))
    {w : List Char} (hw : ∀ c ∈ w, p c) (cs : List Char) :
    read (w ++ cs) = (read cs).map fun out => (w ++ out.1, out.2) := by
  induction w with
  | nil => simp
  | cons c w ih =>
    rw [List.cons_append, hchar c (hw c List.mem_cons_self),
      ih fun c' hc' => hw c' (List.mem_cons_of_mem c hc'), Option.map_map]
    rfl

/-- A reader up to a mark, whose pieces do not depend on what is around them. -/
theorem Piecewise.ofMark {k mark : Char} {word : List Char}
    {read : List Char → Option (List Char × List Char)} {p : Char → Prop}
    {IsPiece : List Char → List Char → Prop} (hmark : mark ≠ k) (hword : ∀ c ∈ k :: word, p c)
    (read_mark : ∀ cs, read (mark :: cs) = some ([], cs))
    (read_cases : ∀ {cs x rest}, read cs = some (x, rest) → cs = mark :: rest ∧ x = [] ∨
      ∃ lead y more x', IsPiece lead y ∧ cs = lead ++ more ∧ x = y ++ x' ∧
        read more = some (x', rest))
    (read_piece : ∀ {lead y}, IsPiece lead y → ∀ cs,
      read (lead ++ cs) = (read cs).map fun out => (y ++ out.1, out.2))
    (piece_ne_nil : ∀ {lead y}, IsPiece lead y → lead ≠ [])
    (piece_draft : ∀ {lead y}, IsPiece lead y → k ∉ lead ∨ lead = [k])
    (piece_char : ∀ c, p c → IsPiece [c] [c]) :
    Piecewise (fun w => ∀ c ∈ w, p c) k word 1 (fun _ : Unit => read)
      (fun _ lead y _ _ => IsPiece lead y) (fun _ cs x rest => cs = mark :: rest ∧ x = []) where
  read_cases := by
    intro _ cs x rest h
    rcases read_cases h with hend | ⟨lead, y, more, x', hlead, hcs, hx, hmore⟩
    · exact .inl hend
    · exact .inr ⟨lead, y, (), more, x', hlead, hcs, hx, hmore⟩
  read_end := by
    rintro _ cs x rest ⟨rfl, rfl⟩
    exact read_mark rest
  read_piece := fun h => read_piece h _
  piece_ne_nil := piece_ne_nil
  end_draft := by
    rintro _ d x rest ⟨hd, rfl⟩ -
    obtain ⟨d', rfl, rfl⟩ := Draft.peel [mark] hd (by simpa using hmark.symm)
    exact ⟨[mark], d', rfl, le_rfl, fun w => ⟨Draft.fill_prepend w _ d', rfl⟩⟩
  piece_draft := piece_draft
  more_draft := fun h _ _ => h
  read_gap := by
    intro _ back x rest h
    have hchar : ∀ c, p c → ∀ cs, read (c :: cs) = (read cs).map fun out =>
        (c :: out.1, out.2) := fun c hc cs => read_piece (piece_char c hc) cs
    -- Every character of the word is a piece of its own, so the word is read off and put back.
    rw [read_word hchar hword] at h
    obtain ⟨x', hback, -⟩ := exists_of_map_eq_some h
    exact ⟨x', fun w hw => by rw [read_word hchar hw, hback, Option.map_some]⟩

end Repertoire.Text
