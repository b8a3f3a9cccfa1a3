import Mathlib.Data.List.Nodup
import Mathlib.Data.List.TakeWhile
import Repertoire.Manifest.Defect

/-!
# What validation guarantees

Validation walks over the tools and stops at the first defect. A walk that finds none has seen
distinct names and tools that are fit for use, whatever names it started with. The induction is on
the tools, with the names that were seen left open, since every tool adds its own.

A tool without a defect has a kind in the strict sense, so the lenient reading of its kind is no
guess, and a shell tool has a command to run.
-/

namespace Repertoire

/-- A tool is fit for use when it is described, its kind exists, and it has a command if it runs in
the shell. -/
structure Tool.Fit (t : Tool) : Prop where
  description : ¬ Text.AllBlank t.description
  kind : ToolKind.ofName? t.kind = some t.toolKind
  command : t.toolKind = .shell → ¬ Text.AllBlank t.command

/-- A text that is nothing but blanks is empty without the blanks at its ends. -/
theorem Text.trim_of_allBlank {s : String} (h : Text.AllBlank s) : Text.trim s = "" := by
  have hfront : Text.trimFront s.toList = [] := by
    rw [Text.trimFront, List.dropWhile_eq_nil_iff]
    exact h
  rw [Text.trim, Text.trimChars, hfront]
  rfl

/-- No kind has a blank name. -/
theorem ToolKind.ofName?_of_allBlank {text : String} (h : Text.AllBlank text) :
    ToolKind.ofName? text = none := by
  rw [ToolKind.ofName?, Text.trim_of_allBlank h]
  decide

/-- A kind that exists is the one that a tool is treated as having. -/
theorem Tool.toolKind_of_ofName? {t : Tool} {kind : ToolKind}
    (h : ToolKind.ofName? t.kind = some kind) : t.toolKind = kind := by
  rw [Tool.toolKind, ToolKind.declared, h]
  rfl

/-- A tool has no defect of its own exactly when it is fit for use. -/
theorem Tool.defect?_eq_none_iff (t : Tool) : t.defect? = none ↔ t.Fit := by
  rw [Tool.defect?]
  by_cases hdescription : Text.AllBlank t.description
  · rw [if_pos hdescription]
    exact ⟨fun h => absurd h (Option.some_ne_none _), fun h => absurd hdescription h.description⟩
  · rw [if_neg hdescription]
    by_cases hblank : Text.AllBlank t.kind
    · rw [if_pos hblank]
      refine ⟨fun h => absurd h (Option.some_ne_none _), fun h => ?_⟩
      have hkind := h.kind
      rw [ToolKind.ofName?_of_allBlank hblank] at hkind
      exact absurd hkind.symm (Option.some_ne_none _)
    · rw [if_neg hblank]
      cases hkind : ToolKind.ofName? t.kind with
      | none =>
        refine ⟨fun h => absurd h (Option.some_ne_none _), fun h => ?_⟩
        exact absurd (hkind.symm.trans h.kind).symm (Option.some_ne_none _)
      | some kind =>
        have htool := Tool.toolKind_of_ofName? hkind
        simp only [ite_eq_right_iff, reduceCtorEq, imp_false, not_and]
        constructor
        · intro h
          exact ⟨hdescription, hkind.trans (congrArg some htool.symm), fun hshell =>
            h (htool.symm.trans hshell)⟩
        · intro h hshell
          exact h.command (htool.trans hshell)

namespace Manifest

/-- A walk over tools finds no defect exactly when their names are distinct, new and not blank, and
each of them is fit for use. -/
theorem toolDefect?_eq_none_iff (skill : String) (seen : List String) (tools : List Tool) :
    toolDefect? skill seen tools = none ↔
      (tools.map Tool.name).Nodup ∧
        ∀ t ∈ tools, t.name ∉ seen ∧ ¬ Text.AllBlank t.name ∧ t.Fit := by
  -- On the tools, with the names seen left open: distinctness is that no name has been seen.
  induction tools generalizing seen with
  | nil => simp [toolDefect?]
  | cons t rest ih =>
    rw [toolDefect?]
    by_cases hblank : Text.AllBlank t.name
    · simp [hblank]
    · by_cases hseen : t.name ∈ seen
      · simp [hblank, hseen]
      · rw [if_neg hblank, if_neg hseen]
        cases hdefect : t.defect? with
        | some d =>
          have hunfit : ¬ t.Fit := fun h => by simp [(t.defect?_eq_none_iff).mpr h] at hdefect
          simp [hunfit]
        | none =>
          have hfit : t.Fit := (t.defect?_eq_none_iff).mp hdefect
          rw [List.map_cons, List.nodup_cons, List.forall_mem_cons, ih]
          constructor
          · rintro ⟨hrest, hall⟩
            refine ⟨⟨fun hmem => ?_, hrest⟩, ⟨hseen, hblank, hfit⟩, fun u hu => ?_⟩
            · obtain ⟨u, hu, hname⟩ := List.mem_map.mp hmem
              exact (hall u hu).1 (by simp [hname])
            · obtain ⟨hnew, hplain⟩ := hall u hu
              exact ⟨fun hold => hnew (List.mem_cons_of_mem _ hold), hplain⟩
          · rintro ⟨⟨hfree, hrest⟩, -, hall⟩
            refine ⟨hrest, fun u hu => ?_⟩
            obtain ⟨hnew, hplain⟩ := hall u hu
            refine ⟨fun hold => ?_, hplain⟩
            rcases List.mem_cons.mp hold with hname | hold
            · exact hfree (hname ▸ List.mem_map_of_mem hu)
            · exact hnew hold

/-- What validation guarantees about tools: their names are distinct, and each is fit for use. -/
theorem tools_of_defect?_eq_none {m : Manifest} (h : m.defect? = none) :
    (m.tools.map Tool.name).Nodup ∧ ∀ t ∈ m.tools, t.Fit := by
  rw [defect?] at h
  split at h
  · simp at h
  · split at h
    · simp at h
    · obtain ⟨hnodup, hall⟩ := (toolDefect?_eq_none_iff m.name [] m.tools).mp h
      exact ⟨hnodup, fun t ht => (hall t ht).2.2⟩

/-- Where names are distinct, a tool is found under its own name, and before it there is no other
tool of that name. -/
theorem findTool?_getElem {m : Manifest} (h : (m.tools.map Tool.name).Nodup) {i : ℕ}
    (hi : i < m.tools.length) :
    m.findTool? m.tools[i].name = some m.tools[i] ∧
      m.tools.findIdx (fun t => t.name = m.tools[i].name) = i := by
  have hindex : m.tools.findIdx (fun t => t.name = m.tools[i].name) = i := by
    rw [List.findIdx_eq hi]
    refine ⟨by simp, fun j hj => ?_⟩
    have hlength : i < (m.tools.map Tool.name).length := by rwa [List.length_map]
    have hbefore : j < (m.tools.map Tool.name).length := by omega
    have hname : (m.tools.map Tool.name)[j] ≠ (m.tools.map Tool.name)[i] := by
      rw [Ne, h.getElem_inj_iff]
      omega
    simpa using hname
  refine ⟨?_, hindex⟩
  rw [findTool?, List.find?_eq_getElem?_findIdx, hindex, List.getElem?_eq_getElem hi]

end Manifest

end Repertoire
