import Repertoire.FileSystem.Read
import Repertoire.Proofs.FileSystem.Walk

/-!
# What reading depends on

Where a path leads, and what stands there, is decided by the entries and the directory that relative
paths start from. The order in which entries are kept and the clock do not matter, so files that do
not change are read in the same way at all times.
-/

namespace Repertoire.FileSystem

open Repertoire.Path

variable {fs fs' : FileSystem}

/-- Only entries matter on a walk, provided that they are all that matters behind links. -/
theorem walk_congr (hentry : ∀ p, fs'.entry? p = fs.entry? p) (followLast : Bool)
    {onLink onLink' : Place → List Component → Except FileFault Place}
    (hlink : ∀ p cs, onLink' p cs = onLink p cs) (p : Place) (cs : List Component) :
    fs'.walk onLink' followLast p cs = fs.walk onLink followLast p cs := by
  induction cs generalizing p with
  | nil => rfl
  | cons c cs ih => cases c <;> simp only [walk, hentry, hlink, ih]

/-- Only entries matter for where steps lead. -/
theorem follow_congr (hentry : ∀ p, fs'.entry? p = fs.entry? p) (followLast : Bool) (k : ℕ)
    (p : Place) (cs : List Component) :
    fs'.follow followLast k p cs = fs.follow followLast k p cs := by
  induction k generalizing p cs with
  | zero => exact walk_congr hentry followLast (fun _ _ => rfl) p cs
  | succ k ih => exact walk_congr hentry followLast ih p cs

/-- A path leads to an entry when it leads to the place of the entry. -/
theorem lookUp?_eq_ok_iff {path : String} {place : Place} {e : Entry} :
    fs.lookUp? path = .ok (place, e) ↔
      fs.resolve true path = .ok place ∧ fs.entry? place = some e := by
  cases hplace : fs.resolve true path with
  | error fault => simp [lookUp?, hplace, bind, Except.bind]
  | ok found =>
    cases hentry : fs.entry? found with
    | none =>
      simp only [lookUp?, hplace, bind, Except.bind, hentry, reduceCtorEq, Except.ok.injEq,
        false_iff]
      rintro ⟨rfl, he⟩
      simp [hentry] at he
    | some e' =>
      simp only [lookUp?, hplace, bind, Except.bind, hentry, Except.ok.injEq, Prod.mk.injEq]
      refine and_congr_right fun hfound => ?_
      subst hfound
      rw [hentry, Option.some.injEq]

/-! ## Clocks -/

variable (fs : FileSystem) (time : Int)

@[simp] theorem atTime_now : (fs.atTime time).now = time := rfl

/-- Steps lead to the same place at all times. -/
@[simp] theorem resolveSteps_atTime (followLast : Bool) (cs : List Component) :
    (fs.atTime time).resolveSteps followLast cs = fs.resolveSteps followLast cs := by
  have hentry (p : Place) : entry? (fs.atTime time) p = fs.entry? p := rfl
  exact follow_congr hentry followLast linkLimit fs.workingDir cs

/-- A path leads to the same entry at all times. -/
@[simp] theorem lookUp?_atTime (path : String) :
    (fs.atTime time).lookUp? path = fs.lookUp? path := by
  simp only [lookUp?, resolve, resolveSteps_atTime]
  rfl

/-- A file has the same text at all times. -/
@[simp] theorem readText_atTime (path : String) :
    (fs.atTime time).readText path = fs.readText path := by
  simp only [readText, readBytes, lookUp?_atTime]

end Repertoire.FileSystem
