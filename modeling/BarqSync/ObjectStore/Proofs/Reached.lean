/-
Index sets over whole histories: every set that calls lead to from the
empty set is well formed, if every call meets `Keeps`.
-/
import BarqSync.ObjectStore.Proofs.ShiftedBy

namespace BarqSync.ObjectStore

open Ranges ChunkedRangeVector IndexOp IndexSet

variable {build : Build} {v : IndexSet build}

/-- The condition on a call and the set it is made on: a removal of no
index is not made inside a range, and what `add_shifted_by` copies whole
fits. -/
def IndexOp.Keeps (v : IndexSet build) : IndexOp build → Prop
  | .remove index count =>
    0 < count ∨ ¬ (index ∈ v ∧ 0 < index ∧ index - 1 ∈ v)
  | .addShiftedBy shiftedBy values => FitsShifted v shiftedBy values
  | _ => True

/-- The sets that calls lead to from the empty set; the sets given to a
call are made the same way. -/
inductive Reached (ok : IndexSet build → IndexOp build → Prop) :
    IndexSet build → Prop
  | empty : Reached ok ⟨[]⟩
  | call {v w : IndexSet build} (op : IndexOp build) (hv : Reached ok v)
      (hargs : ∀ a ∈ op.args, Reached ok a) (hok : ok v op)
      (hw : v.apply op = some w) : Reached ok w

theorem WellFormed.apply {op : IndexOp build} {w : IndexSet build}
    (hv : WellFormed v) (hargs : ∀ a ∈ op.args, WellFormed a)
    (hok : op.Keeps v) (hw : v.apply op = some w) : WellFormed w := by
  cases op with
  | add index => exact Option.some.inj hw ▸ (hv.add index).1
  | addSet other =>
    exact Option.some.inj hw ▸ (hv.addSet (hargs _ (by simp [args]))).1
  | addShifted index => exact Option.some.inj hw ▸ (hv.addShifted index).1
  | addShiftedBy shiftedBy values =>
    exact Option.some.inj hw ▸ (hv.addShiftedBy (hargs _ (by simp [args]))
      (hargs _ (by simp [args]))).1 hok
  | setLen len => exact Option.some.inj hw ▸ (wellFormed_setLen v len).1
  | insertAt index count =>
    have hcount : 0 < count := by
      by_contra h
      have hnone : v.insertAt index count = none := if_pos (by omega)
      rw [IndexSet.apply, hnone] at hw
      cases hw
    obtain ⟨w', hw', hwf, -⟩ := @WellFormed.insertAt _ v index _ hv hcount
    exact Option.some.inj (hw'.symm.trans hw) ▸ hwf
  | insertAtSet positions =>
    exact Option.some.inj hw ▸
      (hv.insertAtSet (hargs _ (by simp [args]))).1
  | shiftForInsertAt index count =>
    have hcount : 0 < count := by
      by_contra h
      have hnone : v.shiftForInsertAt index count = none :=
        if_pos (by omega)
      rw [IndexSet.apply, hnone] at hw
      cases hw
    obtain ⟨w', hw', hwf, -⟩ :=
      @WellFormed.shiftForInsertAt _ v index _ hv hcount
    exact Option.some.inj (hw'.symm.trans hw) ▸ hwf
  | shiftForInsertAtSet values =>
    exact Option.some.inj hw ▸
      (hv.shiftForInsertAtSet (hargs _ (by simp [args]))).1
  | eraseAt index => exact Option.some.inj hw ▸ (hv.eraseAt index).1
  | eraseAtSet positions =>
    exact Option.some.inj hw ▸ (hv.eraseAtSet (hargs _ (by simp [args]))).1
  | eraseOrUnshift index =>
    exact Option.some.inj hw ▸ (hv.eraseOrUnshift index).1
  | remove index count =>
    rcases Nat.eq_zero_or_pos count with rfl | hcount
    · have hsame := hv.remove_zero (hok.resolve_left (by omega))
      exact Option.some.inj hw ▸ hsame.symm ▸ hv
    · exact Option.some.inj hw ▸ (hv.remove hcount).1
  | removeSet values =>
    exact Option.some.inj hw ▸ (hv.removeSet (hargs _ (by simp [args]))).1
  | clear => exact Option.some.inj hw ▸ wellFormed_empty

/-- The representation invariant: from the empty set, calls that meet the
condition keep the ranges separated over the whole set and the caches of
every chunk right, in any number of chunks. -/
theorem reached_wellFormed (h : Reached IndexOp.Keeps v) :
    WellFormed v := by
  induction h with
  | empty => exact wellFormed_empty
  | call op hv hargs hok hw ih ihargs => exact ih.apply ihargs hok hw

/-- The set of some indexes, added one by one. -/
def ofList (is : List ℕ) : IndexSet build :=
  is.foldl (fun v i => v.add i) ⟨[]⟩

theorem reached_ofList {ok : IndexSet build → IndexOp build → Prop}
    (hok : ∀ v i, ok v (.add i)) (is : List ℕ) :
    Reached ok (ofList is) := by
  have hfrom : ∀ v, Reached ok v
      → Reached ok (is.foldl (fun v i => v.add i) v) := by
    induction is with
    | nil => exact fun _ h => h
    | cons i is ih =>
      intro v hv
      exact ih _ (.call (.add i) hv (by simp [args]) (hok v i) rfl)
  exact hfrom _ .empty

theorem wellFormed_ofList (is : List ℕ) :
    WellFormed (ofList is : IndexSet build)
      ∧ ∀ i, i ∈ (ofList is : IndexSet build) ↔ i ∈ is := by
  have hfrom : ∀ v : IndexSet build, WellFormed v
      → WellFormed (is.foldl (fun v i => v.add i) v)
        ∧ ∀ i, i ∈ is.foldl (fun v i => v.add i) v ↔ i ∈ v ∨ i ∈ is := by
    induction is with
    | nil => exact fun v hv => ⟨hv, by simp⟩
    | cons k is ih =>
      intro v hv
      obtain ⟨hwf, hmem⟩ := hv.add k
      obtain ⟨hwf', hmem'⟩ := ih _ hwf
      refine ⟨hwf', fun i => ?_⟩
      rw [List.foldl_cons, hmem', hmem, List.mem_cons, or_assoc]
  obtain ⟨hwf, hmem⟩ := hfrom _ wellFormed_empty
  exact ⟨hwf, fun i => (hmem i).trans (or_iff_right not_mem_empty)⟩

/-- The even numbers below `2 * n`. -/
def evens (n : ℕ) : List ℕ := (List.range n).map fun k => 2 * k

/-- Two sets that calls lead to without the condition. A range of two
indexes opens the second chunk of a set that was expected to need one
chunk, and its chunk counts one index. The removal of no index inside a
range leaves two ranges that touch. -/
theorem reached_not_wellFormed :
    (∃ v : IndexSet .release, Reached (fun _ _ => True) v
      ∧ ∃ c ∈ v.chunks, c.count ≠ total c.data)
    ∧ ∃ v : IndexSet .release, Reached (fun _ _ => True) v
      ∧ v.ranges = [(0, 1), (1, 3)] := by
  constructor
  · refine ⟨(ofList [1000, 1001]).addShiftedBy ⟨[]⟩ (ofList (evens 256)),
      ?_, ?_⟩
    · refine .call (.addShiftedBy ⟨[]⟩ _)
        (reached_ofList (fun _ _ => trivial) _) ?_ trivial rfl
      refine List.forall_mem_cons.2 ⟨.empty, fun a ha => ?_⟩
      rw [List.mem_singleton.1 ha]
      exact reached_ofList (fun _ _ => trivial) _
    · decide +kernel
  · refine ⟨(ofList [0, 1, 2]).remove 1 0, ?_, ?_⟩
    · exact .call (.remove 1 0) (reached_ofList (fun _ _ => trivial) _)
        (by simp [args]) trivial rfl
    · decide +kernel

/-- A history that meets the condition: values placed before, between and
behind the ranges of a set. -/
theorem reached_wellFormed_addShiftedBy :
    Reached IndexOp.Keeps ((ofList [2, 3] : IndexSet .release).addShiftedBy
      ⟨[]⟩ (ofList [0, 2, 5]))
    ∧ WellFormed ((ofList [2, 3] : IndexSet .release).addShiftedBy ⟨[]⟩
      (ofList [0, 2, 5])) := by
  have hreached : Reached Keeps
      ((ofList [2, 3] : IndexSet .release).addShiftedBy ⟨[]⟩
        (ofList [0, 2, 5])) := by
    refine .call (.addShiftedBy ⟨[]⟩ (ofList [0, 2, 5]))
      (reached_ofList (fun _ _ => trivial) _) ?_ ?_ rfl
    · intro a ha
      simp only [args, List.mem_cons, List.not_mem_nil, or_false] at ha
      rcases ha with rfl | rfl
      · exact .empty
      · exact reached_ofList (fun _ _ => trivial) _
    · exact .inl (by decide +kernel)
  exact ⟨hreached, reached_wellFormed hreached⟩

end BarqSync.ObjectStore
