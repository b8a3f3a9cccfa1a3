import Repertoire.Catalog.Archive
import Repertoire.Proofs.FileSystem.Joining

/-!
# The paths of entries

The first component of an entry's path is dropped, whatever it is: the root, a single point, two
points, or a name. An entry is left out if nothing else is there, and refused if two points are among
the rest. Otherwise the rest is a relative path of names. The rest is checked after it was put
together as a path again, and that brings nothing back: the path has exactly the components that it
was made of. So it leads further down from every directory that it is joined to.
-/

namespace Repertoire.Archive

open Repertoire.Path

variable {path rest : String} {cs : List Component} {c : Component}

/-- Where a component leads from the end of a way, when nothing is looked up. -/
def turn (way : List String) : Component → List String
  | .root => []
  | .here => way
  | .parent => way.dropLast
  | .name n => way ++ [n]

/-- Where a path leads from the root, when nothing is looked up. -/
def lexical (path : String) : List String := (components path).foldl turn []

/-- Names lead further down. -/
theorem foldl_turn_names (names way : List String) :
    (names.map Component.name).foldl turn way = way ++ names := by
  induction names generalizing way with
  | nil => simp
  | cons n names ih => simp [turn, ih]

/-! ## The check -/

/-- The components behind the first of a path. -/
theorem isInner_of_mem_drop (h : c ∈ (components path).drop 1) : IsInner c :=
  isInner_of_mem_tail (List.drop_one ▸ h)

/-- An inner component leads out of the directory exactly when it is two points. -/
theorem isInside_iff (h : IsInner c) : isInside c = true ↔ c ≠ .parent := by
  rcases h.eq_parent_or_name with rfl | ⟨name, rfl, -⟩
  · simp [isInside]
  · simp [isInside]

/-- What becomes of a path depends only on its components behind the first. -/
theorem sanitize_eq (path : String) :
    sanitize path =
      if (components path).drop 1 = [] then .ok none
      else if .parent ∈ (components path).drop 1 then .error (unsafePath path)
      else .ok (some (ofComponents ((components path).drop 1))) := by
  have hinner : ∀ c ∈ (components path).drop 1, IsInner c := fun c hc => isInner_of_mem_drop hc
  have hempty : (ofComponents ((components path).drop 1)).isEmpty = true ↔
      (components path).drop 1 = [] := by
    rw [String.isEmpty_iff, ofComponents_eq_empty_iff hinner]
  have hinside : ((components path).drop 1).all isInside = true ↔
      .parent ∉ (components path).drop 1 := by
    rw [List.all_eq_true]
    constructor
    · intro hall hparent
      exact (isInside_iff (hinner _ hparent)).mp (hall _ hparent) rfl
    · intro hparent c hc
      exact (isInside_iff (hinner c hc)).mpr fun hup => hparent (hup ▸ hc)
  simp only [sanitize, components_ofComponents hinner, hempty, hinside, ite_not]

/-- Inner components without two points among them are names. -/
theorem exists_names (h : ∀ c ∈ cs, IsInner c) (hparent : .parent ∉ cs) :
    ∃ names : List String, cs = names.map .name ∧ ∀ n ∈ names, IsPlain n := by
  induction cs with
  | nil => exact ⟨[], rfl, by simp⟩
  | cons c cs ih =>
    rw [List.mem_cons, not_or] at hparent
    obtain ⟨names, rfl, hplain⟩ := ih (fun d hd => h d (List.mem_cons_of_mem c hd)) hparent.2
    rcases (h c List.mem_cons_self).eq_parent_or_name with rfl | ⟨name, rfl, hname⟩
    · exact absurd rfl hparent.1
    · exact ⟨name :: names, rfl, List.forall_mem_cons.mpr ⟨hname, hplain⟩⟩

/-! ## What is accepted -/

/-- A path that leads further down from wherever it is joined: it is relative, and it consists of
plain names, at least one, with slashes between them. -/
structure LeadsDown (rest : String) (names : List String) : Prop where
  named : names ≠ []
  ne_empty : rest ≠ ""
  plain : ∀ n ∈ names, IsPlain n
  spelled : rest = "/".intercalate names
  relative : isAbsolute rest = false
  components : components rest = names.map .name
  below : ∀ dir, lexical (join dir rest) = lexical dir ++ names

/-- The path of names leads further down. -/
theorem leadsDown_ofComponents {names : List String} (hnamed : names ≠ [])
    (hplain : ∀ n ∈ names, IsPlain n) :
    LeadsDown (ofComponents (names.map .name)) names := by
  have hinner : ∀ c ∈ names.map Component.name, IsInner c := by
    intro c hc
    obtain ⟨n, hn, rfl⟩ := List.mem_map.mp hc
    exact (hplain n hn).isInner
  exact
    { named := hnamed
      ne_empty := (ofComponents_eq_empty_iff hinner).not.mpr (by simpa using hnamed)
      plain := hplain
      spelled := by
        rw [ofComponents_eq_intercalate hinner, List.map_map]
        exact congrArg _ (List.map_id names)
      relative := relative_ofComponents hinner
      components := components_ofComponents hinner
      below := fun dir => by
        rw [lexical, components_join_ofComponents hinner (by simpa using hnamed), List.foldl_append,
          foldl_turn_names, lexical] }

/-- What becomes of the path of an entry. -/
structure Sanitizes (path : String) (out : Except Error (Option String)) : Prop where
  leftOut : out = .ok none ↔ (components path).length ≤ 1
  refused : (∃ err, out = .error err) ↔ .parent ∈ (components path).tail
  refusal : ∀ err, out = .error err → err = unsafePath path
  kept : ∀ rest, out = .ok (some rest) ↔ 1 < (components path).length ∧
    .parent ∉ (components path).tail ∧ rest = ofComponents (components path).tail
  leads : ∀ rest, out = .ok (some rest) →
    ∃ names : List String, (components path).tail = names.map .name ∧ LeadsDown rest names

/-- The path of an entry is left out, refused, or cut down to a path that leads further down. -/
theorem sanitize_sanitizes (path : String) : Sanitizes path (sanitize path) := by
  have hinner : ∀ c ∈ (components path).tail, IsInner c := fun c hc => isInner_of_mem_tail hc
  have hlength : (components path).tail = [] ↔ (components path).length ≤ 1 := by
    rw [← List.length_eq_zero_iff, List.length_tail, Nat.sub_eq_zero_iff_le]
  rw [sanitize_eq, List.drop_one]
  by_cases hnil : (components path).tail = []
  · rw [if_pos hnil]
    have hshort := hlength.mp hnil
    constructor <;> simp [hnil, hshort, Nat.not_lt.mpr hshort]
  · rw [if_neg hnil]
    have hlong : 1 < (components path).length := Nat.lt_of_not_le (hlength.not.mp hnil)
    by_cases hparent : .parent ∈ (components path).tail
    · rw [if_pos hparent]
      constructor <;> simp [hparent, hlong, eq_comm]
    · rw [if_neg hparent]
      obtain ⟨names, hnames, hplain⟩ := exists_names hinner hparent
      constructor
      case leads =>
        intro rest hrest
        obtain rfl := Option.some.inj (Except.ok.inj hrest)
        have hnamed : names ≠ [] := by
          rintro rfl
          exact hnil hnames
        exact ⟨names, hnames, hnames ▸ leadsDown_ofComponents hnamed hplain⟩
      all_goals simp [hparent, hlong, eq_comm]

/-- Slashes and points make no difference behind the first component, which may be a point. -/
example : sanitize ".//a/./b/" = .ok (some "a/b") := by rfl

end Repertoire.Archive
