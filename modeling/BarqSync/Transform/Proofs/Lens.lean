/-
The applier's containers as lenses: `childLens` is what a path element
names in a container, `entryLens` a dictionary entry, which may be
absent, and `objectLens` an object of the database. Different elements
name independent parts.
-/
import BarqSync.Applier
import BarqSync.Ot.Converge

namespace BarqSync

variable {e : Slot} {place : Place}

open Ot

-- ===== lenses

/-- What a path element names in a container. -/
def childLens (place : Place) (e : Slot) :
    PartialLens ApplyError Value Value where
  get v := child place v e
  put v w := withChild place v e w
  get_put := by
    intro v c w h
    unfold child at h
    split at h
    · simp [child, withChild]
    · next l i =>
        have hi : i < l.length := by
          by_contra hge
          simp [List.getElem?_eq_none (Nat.le_of_not_lt hge)] at h
        simp [child, withChild, hi]
    · simp [child, withChild]
    · cases h
  put_put := by
    intro v c w
    cases place <;> cases v <;> cases e <;> simp [withChild]
  put_get := by
    intro v c h
    unfold child at h
    split at h
    · cases h
      simp [withChild]
    · next l i =>
        split at h
        · next x hx =>
            cases h
            obtain ⟨hi, rfl⟩ := List.getElem?_eq_some_iff.1 hx
            simp [withChild]
        · cases h
    · next d k =>
        split at h
        · next x hx =>
            cases h
            simp [withChild, ← hx]
        · cases h
    · cases h

/-- A dictionary entry, present or not. -/
def entryLens (k : Bytes) : PartialLens ApplyError Value (Option Value) where
  get
    | .dictionary d => .ok (d k)
    | _ => .error .invalidPath
  put v w :=
    match v with
    | .dictionary d => .dictionary (Function.update d k w)
    | v => v
  get_put := by
    intro v c w h
    cases v <;> simp_all
  put_put := by
    intro v c w
    cases v <;> simp
  put_get := by
    intro v c h
    cases v <;> simp_all

theorem childLens_get_put_ne {e' : Slot} (h : e ≠ e') (v w : Value) :
    child place (withChild place v e' w) e = child place v e := by
  cases place <;> cases v <;> cases e' <;> try rfl
  all_goals cases e <;> try rfl
  · next k j => simp [child, withChild, show j ≠ k by simpa using h]
  · next i j => simp [child, withChild, show i ≠ j by simpa [eq_comm] using h]
  · next k j => simp [child, withChild, show j ≠ k by simpa using h]

theorem childLens_independent {e' : Slot} (h : e ≠ e') :
    (childLens place e).Independent (childLens place e') where
  get_put_left := childLens_get_put_ne h _ _
  get_put_right := childLens_get_put_ne h.symm _ _
  put_comm := by
    intro v a c
    simp only [childLens]
    cases place <;> cases v <;> cases e <;> cases e' <;>
      simp only [withChild]
    · rw [Function.update_comm (by simpa using h)]
    · rw [List.set_comm _ _ (by simpa using h)]
    · rw [Function.update_comm (by simpa using h)]

/-- A dictionary entry is independent of what another element names. -/
theorem entryLens_independent {col : Column} {k : Bytes} (h : e ≠ .key k) :
    (entryLens k).Independent (childLens (.collection col) e) where
  get_put_left := by
    intro v w
    cases v <;> cases e <;> try rfl
    next d j =>
      simp [childLens, entryLens, withChild,
        show k ≠ j by simpa [eq_comm] using h]
  get_put_right := by
    intro v w
    cases v <;> cases e <;> try rfl
    next d j =>
      simp [childLens, entryLens, child, show j ≠ k by simpa using h]
  put_comm := by
    intro v a c
    cases v <;> cases e <;> try rfl
    next d j =>
      simp only [childLens, entryLens, withChild]
      rw [Function.update_comm (by simpa [eq_comm] using h)]

theorem entryLens_independent_entryLens {j k : Bytes} (h : j ≠ k) :
    (entryLens j).Independent (entryLens k) where
  get_put_left := by
    intro v w
    cases v <;> simp [entryLens, h]
  get_put_right := by
    intro v w
    cases v <;> simp [entryLens, h.symm]
  put_comm := by
    intro v a c
    cases v <;> try rfl
    next d =>
      simp only [entryLens]
      rw [Function.update_comm h]

-- ===== objects

/-- What the database holds under a key, an object or nothing. -/
def refLens (ref : ObjectRef) :
    PartialLens ApplyError State (Option Value) where
  get s := .ok (s ref)
  put s o := Function.update s ref o
  get_put := by
    intro s o o' h
    simp
  put_put := by
    intro s o o'
    simp
  put_get := by
    intro s o h
    rw [← Except.ok.inj h, Function.update_eq_self]

theorem refLens_independent {a b : ObjectRef} (h : a ≠ b) :
    (refLens a).Independent (refLens b) where
  get_put_left := by
    intro s v
    simp [refLens, h]
  get_put_right := by
    intro s v
    simp [refLens, h.symm]
  put_comm := by
    intro s v w
    simp only [refLens]
    rw [Function.update_comm h]

/-- An object of the database. -/
def objectLens (ref : ObjectRef) : PartialLens ApplyError State Value where
  get s :=
    match s ref with
    | some v => .ok v
    | none => .error .noSuchObject
  put s v := Function.update s ref (some v)
  get_put := by
    intro s v w h
    simp
  put_put := by
    intro s v w
    simp
  put_get := by
    intro s v h
    split at h
    · next hs => rw [← Except.ok.inj h, ← hs, Function.update_eq_self]
    · cases h

theorem objectLens_get {ref : ObjectRef} {s : State} {v : Value} :
    (objectLens ref).get s = .ok v ↔ s ref = some v := by
  simp only [objectLens]
  cases s ref <;> simp

end BarqSync
