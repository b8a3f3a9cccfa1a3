import Repertoire.Manifest.Format

/-!
# Documents that hold no manifest

Whatever the format of a document, the only reason for which no manifest is read from it is that it
is malformed, and the reason names the format. Nothing that depends on files is among the reasons.
-/

namespace Repertoire

variable {content name source : String} {e : Error}

/-- Reading a structured document fails only because it is malformed. -/
theorem StructuredManifest.parse_error (h : parse content = .error e) :
    ∃ detail, e = .malformed .structured detail := by
  simp only [parse] at h
  split at h
  · simp only [ofMembers] at h
    split at h
    · exact ⟨_, (Except.error.inj h).symm⟩
    · exact ⟨_, (Except.error.inj h).symm⟩
    · exact absurd h (by simp)
  · exact ⟨_, (Except.error.inj h).symm⟩

/-- Reading a JSON document fails only because it is malformed. -/
theorem JsonManifest.parse_error (h : parse content = .error e) :
    ∃ detail, e = .malformed .json detail := by
  simp only [parse] at h
  split at h
  · exact absurd h (by simp)
  · exact ⟨_, (Except.error.inj h).symm⟩

/-- Reading a narrative fails only because it is malformed. -/
theorem NarrativeManifest.parse_error (h : parse name content = .error e) :
    ∃ detail, e = .malformed .narrative detail := by
  rw [parse, parseWith] at h
  split at h
  · exact absurd h (by simp)
  · exact ⟨_, (Except.error.inj h).symm⟩
  · split at h
    · exact absurd h (by simp)
    · split at h
      · exact absurd h (by simp)
      · exact ⟨_, (Except.error.inj h).symm⟩

/-- Reading a document fails only because it is malformed. -/
theorem Manifest.parse_error (h : parse source content = .error e) :
    ∃ format detail, e = .malformed format detail := by
  rw [parse] at h
  cases hformat : ManifestFormat.detect source content with
  | structured =>
    rw [hformat] at h
    obtain ⟨detail, he⟩ := StructuredManifest.parse_error h
    exact ⟨.structured, detail, he⟩
  | json =>
    rw [hformat] at h
    obtain ⟨detail, he⟩ := JsonManifest.parse_error h
    exact ⟨.json, detail, he⟩
  | narrative =>
    rw [hformat] at h
    obtain ⟨detail, he⟩ := NarrativeManifest.parse_error h
    exact ⟨.narrative, detail, he⟩

end Repertoire
