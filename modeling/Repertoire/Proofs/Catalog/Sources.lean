import Repertoire.Catalog.Source
import Repertoire.Proofs.Text.Ends
import Repertoire.Proofs.Text.Lines

/-!
# Reading sources

A source names an owner and a repository with a slash between them. An address of the host may stand
in front of them, suffixes and then slashes behind them, and blanks at both ends. In every text there
is exactly one part that is left when as much of all this is taken off as there is. The text is read
as a source exactly when that part is two names, and otherwise it is refused and quoted.

What is taken off can reach into the names: a repository whose name ends in the suffix cannot be
written, and an owner with the name of the host can only be written behind an address.
-/

namespace Repertoire.CatalogSource

open Repertoire.Text

variable {cs part lead : List Char} {source : CatalogSource}

/-- A name of an owner or of a repository. -/
structure IsName (name : String) : Prop where
  ne_nil : name.toList ≠ []
  whole : '/' ∉ name.toList

/-- Both parts of a source are names. -/
def IsNamed (source : CatalogSource) : Prop := IsName source.owner ∧ IsName source.repo

/-- What stands around a part of a text. -/
structure Wrapping where
  front : List Char
  lead : List Char
  suffixes : ℕ
  slashes : ℕ
  back : List Char

namespace Wrapping

/-- The part between a lead and suffixes. -/
def suffixed (w : Wrapping) (part : List Char) : List Char :=
  w.lead ++ part ++ copies w.suffixes suffix

/-- The part with all that stands around it but the blanks. -/
def address (w : Wrapping) (part : List Char) : List Char :=
  w.suffixed part ++ List.replicate w.slashes '/'

/-- The text with all that stands around the part. -/
def around (w : Wrapping) (part : List Char) : List Char := w.front ++ w.address part ++ w.back

/-- Nothing more can be taken off a part: there is no blank at an end of the address, no slash in
front of the slashes, no suffix in front of the suffixes, and no address of the host behind none. -/
structure Bares (w : Wrapping) (part : List Char) : Prop where
  front : ∀ c ∈ w.front, isBlank c = true
  back : ∀ c ∈ w.back, isBlank c = true
  unpadded : Unpadded (w.address part)
  unslashed : (w.suffixed part).getLast? ≠ some '/'
  unsuffixed : ¬ suffix <:+ w.lead ++ part
  host : w.lead ∈ hosts ∨ w.lead = [] ∧ ∀ lead ∈ hosts, ¬ lead <+: part

/-- The ways in which a source can be written. -/
structure Spells (w : Wrapping) (source : CatalogSource) : Prop where
  front : ∀ c ∈ w.front, isBlank c = true
  back : ∀ c ∈ w.back, isBlank c = true
  lead : w.lead = [] ∨ w.lead ∈ hosts
  named : source.IsNamed
  owner : Unpadded source.owner.toList
  repo : Unpadded source.repo.toList
  unsuffixed : ¬ suffix <:+ source.repo.toList
  notHost : w.lead = [] → source.owner ≠ "github.com"

end Wrapping

/-- The part is what is left of a text when all that may stand around it is taken off. -/
def IsBare (cs part : List Char) : Prop := ∃ w : Wrapping, cs = w.around part ∧ w.Bares part

/-! ## Taking off what stands around -/

/-- No address of the host starts with another one. -/
theorem hosts_incomparable : ∀ a ∈ hosts, ∀ b ∈ hosts, a <+: b → a = b := by
  decide

/-- At most one address is taken off the front, and one is if there is any. -/
theorem dropLead_hosts_iff :
    dropLead hosts cs = part ↔
      (∃ lead ∈ hosts, cs = lead ++ part) ∨ cs = part ∧ ∀ lead ∈ hosts, ¬ lead <+: part := by
  rw [dropLead]
  cases hfind : hosts.findSome? fun lead => after? lead cs with
  | none =>
    have hnone : ∀ lead ∈ hosts, ¬ lead <+: cs := by
      rintro lead hlead ⟨rest, hrest⟩
      have hafter := List.findSome?_eq_none_iff.mp hfind lead hlead
      rw [after?_eq_some_iff.mpr hrest.symm] at hafter
      exact absurd hafter (Option.some_ne_none _)
    constructor
    · rintro rfl
      exact .inr ⟨rfl, hnone⟩
    · rintro (⟨lead, hlead, hcs⟩ | ⟨hcs, -⟩)
      · exact absurd ⟨part, hcs.symm⟩ (hnone lead hlead)
      · exact hcs
  | some rest =>
    obtain ⟨first, hfirst, hafter⟩ := List.exists_of_findSome?_eq_some hfind
    have hcs := after?_eq_some_iff.mp hafter
    constructor
    · rintro rfl
      exact .inl ⟨first, hfirst, hcs⟩
    · rintro (⟨lead, hlead, hother⟩ | ⟨rfl, hno⟩)
      · have hprefix : lead <+: cs := ⟨part, hother.symm⟩
        -- No address is a front of another one, so one of them at most is at the front.
        have hsame : first = lead := by
          rcases List.prefix_or_prefix_of_prefix ⟨rest, hcs.symm⟩ hprefix with hle | hle
          · exact hosts_incomparable first hfirst lead hlead hle
          · exact (hosts_incomparable lead hlead first hfirst hle).symm
        rw [hcs, hsame] at hother
        exact List.append_cancel_left hother
      · exact absurd ⟨rest, hcs.symm⟩ (hno first hfirst)

/-- What is taken as the core of a text is its bare part. -/
theorem core_eq_iff : core cs = part ↔ IsBare cs part := by
  have hsuffix : suffix ≠ [] := by decide
  constructor
  · intro hcore
    obtain ⟨front, back, hcs, hfront, hback, hends⟩ := trimChars_eq_iff.mp (Eq.refl (trimChars cs))
    obtain ⟨⟨m, hslashes⟩, hlast⟩ :=
      dropTail_beq_iff.mp (Eq.refl (dropTail (· == '/') (trimChars cs)))
    obtain ⟨⟨n, hcopies⟩, hsuffixed⟩ := (dropAllCopies_eq_iff hsuffix).mp
      (Eq.refl (dropAllCopies suffix (dropTail (· == '/') (trimChars cs))))
    rw [hcopies] at hslashes hlast
    rw [hslashes] at hcs hends
    rw [core] at hcore
    generalize dropAllCopies suffix (dropTail (· == '/') (trimChars cs)) = rest at *
    rcases dropLead_hosts_iff.mp hcore with ⟨lead, hlead, rfl⟩ | ⟨rfl, hno⟩
    · exact ⟨⟨front, lead, n, m, back⟩, hcs, hfront, hback, hends, hlast, hsuffixed, .inl hlead⟩
    · exact ⟨⟨front, [], n, m, back⟩, hcs, hfront, hback, hends, hlast, hsuffixed, .inr ⟨rfl, hno⟩⟩
  · rintro ⟨w, hcs, hw⟩
    have htrim : trimChars cs = w.address part :=
      trimChars_eq_iff.mpr ⟨w.front, w.back, hcs, hw.front, hw.back, hw.unpadded⟩
    have hslashes : dropTail (· == '/') (w.address part) = w.suffixed part :=
      dropTail_beq_iff.mpr ⟨⟨w.slashes, rfl⟩, hw.unslashed⟩
    have hcopies : dropAllCopies suffix (w.suffixed part) = w.lead ++ part :=
      (dropAllCopies_eq_iff hsuffix).mpr ⟨⟨w.suffixes, rfl⟩, hw.unsuffixed⟩
    rw [core, htrim, hslashes, hcopies, dropLead_hosts_iff]
    rcases hw.host with hlead | ⟨hlead, hno⟩
    · exact .inl ⟨w.lead, hlead, rfl⟩
    · exact .inr ⟨by rw [hlead, List.nil_append], hno⟩

/-! ## Two names -/

/-- The text of a source is its two names with a slash between them. -/
theorem toList_text (source : CatalogSource) :
    source.text.toList = source.owner.toList ++ '/' :: source.repo.toList := by
  simp [text]

/-- A text is split into two names exactly when it is the text of a source with such names. -/
theorem split?_eq_some_iff :
    split? cs = some source ↔ cs = source.text.toList ∧ source.IsNamed := by
  rw [split?, toList_text]
  constructor
  · intro h
    split at h
    · rename_i owner repo hpieces
      have hcs : cs = owner ++ '/' :: repo := by
        rw [← intercalate_pieces '/' cs, hpieces]
        simp [List.intercalate]
      have hwhole : ∀ piece ∈ [owner, repo], '/' ∉ piece := fun piece hpiece =>
        not_mem_of_mem_pieces (hpieces ▸ hpiece)
      split at h
      · simp at h
      · rename_i hne
        simp only [Bool.or_eq_true, List.isEmpty_iff, not_or] at hne
        obtain rfl := Option.some.inj h
        refine ⟨by simpa using hcs, ⟨?_, ?_⟩, ?_, ?_⟩
        · simpa using hne.1
        · simpa using hwhole owner (by simp)
        · simpa using hne.2
        · simpa using hwhole repo (by simp)
    · simp at h
  · rintro ⟨rfl, howner, hrepo⟩
    rw [pieces_append, pieces_of_not_mem howner.whole, pieces_of_not_mem hrepo.whole]
    simp [howner.ne_nil, hrepo.ne_nil]

/-- A text is read as a source exactly when its bare part is the text of that source. -/
theorem parse_eq_ok_iff {text : String} :
    parse text = .ok source ↔ IsBare text.toList source.text.toList ∧ source.IsNamed := by
  rw [← core_eq_iff, ← split?_eq_some_iff, parse]
  cases split? (core text.toList) with
  | none => simp
  | some other => simp

/-! ## Writing a source -/

variable {w : Wrapping}

/-- A text that starts as two names do has the first name in front of its first slash, and what
follows that slash is within the second. -/
theorem prefix_text {front rest : List Char} (hfront : '/' ∉ front) (hnamed : source.IsNamed)
    (h : front ++ '/' :: rest <+: source.text.toList) :
    front = source.owner.toList ∧ rest <+: source.repo.toList := by
  obtain ⟨more, hmore⟩ := h
  have hpieces : pieces '/' (front ++ '/' :: (rest ++ more)) = pieces '/' source.text.toList := by
    rw [← hmore, List.append_assoc, List.cons_append]
  rw [toList_text, pieces_append, pieces_append, pieces_of_not_mem hfront,
    pieces_of_not_mem hnamed.1.whole, List.singleton_append, List.singleton_append] at hpieces
  obtain ⟨hsame, hrest⟩ := List.cons.inj hpieces
  refine ⟨hsame, more, ?_⟩
  have hjoin := congrArg (['/'].intercalate) hrest
  rwa [intercalate_pieces, intercalate_pieces] at hjoin

/-- Two names do not start with an address of the host unless the first is the host itself. -/
theorem not_host_prefix (hnamed : source.IsNamed) (hhost : source.owner ≠ "github.com") :
    ∀ lead ∈ hosts, ¬ lead <+: source.text.toList := by
  have hsecure : ¬ "https:".toList ++ '/' :: "/github.com/".toList <+: source.text.toList := by
    intro h
    exact hnamed.2.whole ((prefix_text (by decide) hnamed h).2.subset (by decide))
  have hplain : ¬ "http:".toList ++ '/' :: "/github.com/".toList <+: source.text.toList := by
    intro h
    exact hnamed.2.whole ((prefix_text (by decide) hnamed h).2.subset (by decide))
  have hbare : ¬ "github.com".toList ++ '/' :: [] <+: source.text.toList := by
    intro h
    exact hhost (String.toList_inj.mp (prefix_text (by decide) hnamed h).1).symm
  intro lead hlead
  simp only [hosts, List.mem_cons, List.not_mem_nil, or_false] at hlead
  rcases hlead with rfl | rfl | rfl
  · exact hsecure
  · exact hplain
  · exact hbare

namespace Wrapping.Spells

/-- No blank stands at the ends of a source that is written with a lead, suffixes, and slashes. -/
theorem unpadded (h : w.Spells source) : Unpadded (w.address source.text.toList) := by
  have hlead : Unpadded w.lead := by
    have hhosts : ∀ lead ∈ [] :: hosts, Unpadded lead := by
      simp only [hosts, List.forall_mem_cons]
      refine ⟨?_, ?_, ?_, ?_, by simp⟩ <;> exact .of_all (by decide)
    exact hhosts w.lead (List.mem_cons.mpr h.lead)
  have hslash : Unpadded ['/'] := .of_all (by decide)
  have hsuffix : Unpadded suffix := .of_all (by decide)
  have hslashes : Unpadded (List.replicate w.slashes '/') := by
    have hcopies := hslash.flatten (n := w.slashes)
    rwa [List.flatten_replicate_singleton] at hcopies
  rw [address, suffixed, toList_text]
  exact ((hlead.append (h.owner.append (hslash.append h.repo))).append hsuffix.flatten).append
    hslashes

/-- No slash stands at the end of a source that is written with suffixes. -/
theorem unslashed (h : w.Spells source) :
    (w.suffixed source.text.toList).getLast? ≠ some '/' := by
  have hsplit : w.suffixed source.text.toList = (w.lead ++ source.owner.toList ++ ['/']) ++
      (source.repo.toList ++ copies w.suffixes suffix) := by
    simp [suffixed, toList_text]
  have hslash : '/' ∉ suffix := by decide
  have hno : '/' ∉ source.repo.toList ++ copies w.suffixes suffix := by
    simp [copies, h.named.2.whole, hslash]
  rw [hsplit, List.getLast?_append_of_ne_nil _ (by simp [h.named.2.ne_nil])]
  exact fun hlast => hno (List.mem_of_getLast? hlast)

/-- A source that is written in any of these ways is the bare part of the text. -/
theorem bares (h : w.Spells source) : w.Bares source.text.toList where
  front := h.front
  back := h.back
  unpadded := h.unpadded
  unslashed := h.unslashed
  unsuffixed := by
    intro hsuffix
    rw [toList_text, ← List.append_assoc] at hsuffix
    exact h.unsuffixed (suffix_of_append_cons (by decide) hsuffix)
  host := by
    rcases h.lead with hlead | hlead
    · exact .inr ⟨hlead, not_host_prefix h.named (h.notHost hlead)⟩
    · exact .inl hlead

end Wrapping.Spells

/-! ## All texts -/

/-- How a text is read as a source: in every way of writing it, by its one bare part, and with an
error that quotes it if that is anything but two names. -/
structure ReadsBare (text : String) : Prop where
  written : ∀ (w : Wrapping) (source : CatalogSource), w.Spells source →
    text.toList = w.around source.text.toList → parse text = .ok source
  unique : ∃! part, IsBare text.toList part
  accepted : ∀ source, parse text = .ok source ↔
    IsBare text.toList (source.owner.toList ++ '/' :: source.repo.toList) ∧
      IsName source.owner ∧ IsName source.repo
  refused : ∀ part, IsBare text.toList part →
    (¬ ∃ owner repo : String,
      part = owner.toList ++ '/' :: repo.toList ∧ IsName owner ∧ IsName repo) →
    parse text = .error (.invalidArgument
      ("invalid catalog source '" ++ text ++ "': expected 'owner/repo' or a GitHub URL"))

/-- Every text is read by its bare part. -/
theorem parse_readsBare (text : String) : ReadsBare text where
  written := by
    intro w source hspells htext
    exact parse_eq_ok_iff.mpr ⟨⟨w, htext, hspells.bares⟩, hspells.named⟩
  unique := by
    refine ⟨core text.toList, core_eq_iff.mp rfl, fun part hpart => ?_⟩
    exact (core_eq_iff.mpr hpart).symm
  accepted := by
    intro source
    rw [← toList_text source]
    exact parse_eq_ok_iff
  refused := by
    intro part hbare hno
    rw [← core_eq_iff] at hbare
    cases hsplit : split? (core text.toList) with
    | none =>
      rw [parse, hsplit]
      rfl
    | some source =>
      obtain ⟨htext, hnamed⟩ := split?_eq_some_iff.mp hsplit
      rw [hbare, toList_text] at htext
      exact absurd ⟨source.owner, source.repo, htext, hnamed⟩ hno

/-- Blanks, an address of the host, two suffixes, and a slash. -/
def overgrown : Wrapping := ⟨[' '], "https://github.com/".toList, 2, 1, ['\n']⟩

/-- They may stand around these names. -/
theorem spells_overgrown : overgrown.Spells ⟨"github.com", ".gitx"⟩ where
  front := List.forall_mem_singleton.mpr (by decide)
  back := List.forall_mem_singleton.mpr (by decide)
  lead := by decide
  named := by constructor <;> constructor <;> decide
  owner := .of_all (by decide)
  repo := .of_all (by decide)
  unsuffixed := by decide
  notHost := by decide

/-- Behind an address the owner may have the name of the host, and the name of a repository may start
as the suffix does. Without one the host is no owner, so that a single name is left. -/
theorem parse_readsBare_overgrown :
    overgrown.Spells ⟨"github.com", ".gitx"⟩ ∧
      parse " https://github.com/github.com/.gitx.git.git/\n" = .ok ⟨"github.com", ".gitx"⟩ ∧
      parse "github.com/owner" = .error (.invalidArgument
        "invalid catalog source 'github.com/owner': expected 'owner/repo' or a GitHub URL") := by
  have hsingle : IsBare "github.com/owner".toList "owner".toList := core_eq_iff.mp rfl
  refine ⟨spells_overgrown, (parse_readsBare _).written overgrown _ spells_overgrown rfl, ?_⟩
  refine (parse_readsBare "github.com/owner").refused _ hsingle ?_
  rintro ⟨owner, repo, htext, -⟩
  have hslash : '/' ∈ "owner".toList := htext ▸ by simp
  exact absurd hslash (by decide)

end Repertoire.CatalogSource
