/-
The mutators of index sets as operations on sets of positions.

# Refinement

Each mutator makes of the members what the operation of `Displace` makes
of them, also `add_shifted_by` where it leaves a wrong count in a chunk,
and `remove` of no index where it leaves adjacent ranges: neither changes
what the ranges hold.

# One by one

The forms that take a set do the same as the forms that take an index,
over the indexes upwards, or downwards for what is erased.
-/
import BarqSync.Index.Displace
import BarqSync.ObjectStore.Proofs.Queries

namespace BarqSync.ObjectStore

open Ranges ChunkedRangeVector Displace IndexSet

variable {build : Build} {v w p s : IndexSet build} {index j count : ℕ}
  {f : Set ℕ → ℕ → Set ℕ} {l1 l2 : List (ℕ × ℕ)}

-- ===== removing no index

/-- The loop of `remove` ends if no range is left to remove from. -/
theorem Cursor.doRemove_nothing {it : Iter} (h : Cursor w it l1 l2)
    (hordered : Ordered (l1 ++ l2)) (hl1 : ∀ t ∈ l1, t.2 ≤ index)
    (hl2 : ∀ t ∈ l2, index < t.2 → index ≤ t.1) (fuel : ℕ) :
    (IndexSet.doRemove (fuel + 1) w it index index).1 = w := by
  obtain ⟨m1, m2, heq, hcur, -, hbehind⟩ := h.findFrom hordered hl1
  rw [doRemove]
  dsimp only
  cases m2 with
  | nil => rw [if_pos (.inl (hcur.eq_end_iff.2 rfl))]
  | cons t m2 =>
    have hmem : t ∈ l2 := by
      rw [heq]
      exact List.mem_append_right m1 List.mem_cons_self
    have hle := hl2 t hmem (hbehind t List.mem_cons_self)
    rw [hcur.get, if_pos (.inr hle)]

/-- Removing no index takes none, though a range may be split. -/
theorem WellFormed.mem_remove_zero (hv : WellFormed v) :
    j ∈ v.remove index 0 ↔ j ∈ v := by
  rcases hv.remove_zero_cases with heq | ⟨l1, r, l2, hlt, hf⟩
  · rw [heq]
  -- the range is split, and the loop stops behind its first part
  have hr := hf.behind r List.mem_cons_self
  obtain ⟨u, it, hsplit, hround⟩ := hf.doRemove_round
    (show index = max r.1 index by omega) hlt
  rw [IndexSet.remove, IndexSet.removeFuel, Nat.add_zero index, hround]
  replace hsplit : Cursor u it l1
      ((r.1, index) :: (index, r.2) :: l2) := by
    simpa [pieces, hlt, hr] using hsplit
  obtain ⟨hne, hapart⟩ := hf.separated.ordered
  simp only [List.pairwise_append, List.pairwise_cons,
    List.forall_mem_append, List.forall_mem_cons] at hne hapart
  obtain ⟨hl1, ⟨hrl, hl2⟩, hcross⟩ := hapart
  have hordered : Ordered
      (l1 ++ (r.1, index) :: (index, r.2) :: l2) := by
    constructor
    · simp only [List.forall_mem_append, List.forall_mem_cons]
      exact ⟨hne.1, hlt, hr, hne.2.2⟩
    · simp only [List.pairwise_append, List.pairwise_cons,
        List.forall_mem_cons]
      exact ⟨hl1, ⟨⟨le_rfl, fun t ht => hr.le.trans (hrl t ht)⟩, hrl,
        hl2⟩, fun t ht =>
          ⟨(hcross t ht).1, hf.before t ht, (hcross t ht).2⟩⟩
  rw [hsplit.doRemove_nothing hordered hf.before ?_ (v.ranges.length + 1),
    hsplit.mem, hf.cursor.mem, covers_append, covers_append, covers_cons,
    covers_cons, covers_cons]
  · refine or_congr_right ?_
    rw [← or_assoc]
    refine or_congr_left ?_
    show r.1 ≤ j ∧ j < index ∨ index ≤ j ∧ j < r.2 ↔ _
    omega
  · refine List.forall_mem_cons.2 ⟨fun h => absurd h (Nat.lt_irrefl _),
      List.forall_mem_cons.2 ⟨fun _ => le_rfl, fun t ht _ => ?_⟩⟩
    exact hr.le.trans (hrl t ht)

-- ===== refinement

/-- The set that an index set stands for. -/
def members (v : IndexSet build) : Set ℕ := { i | i ∈ v }

instance : DecidablePred (· ∈ members v) := fun i =>
  inferInstanceAs (Decidable (i ∈ v))

/-- The count of an index set gives the position after an erasure. -/
theorem unshift_members (v : IndexSet build) (x : ℕ) :
    Displace.unshift (members v) x = unshifted v x := by
  unfold Displace.unshift unshifted
  rw [below_eq_count]
  rfl

/-- Where an index goes is a free one that it is the number of. -/
theorem displaced_members {x k : ℕ} :
    Displace.Displaced (members v) x k ↔ k ∉ v ∧ unshifted v k = x := by
  unfold Displaced
  rw [unshift_members]
  rfl

section

variable (hv : WellFormed v)

include hv

theorem WellFormed.members_add (index : ℕ) :
    members (v.add index) = insert index (members v) := by
  ext j
  exact ((hv.add index).2 j).trans or_comm

theorem WellFormed.members_addSet (hp : WellFormed p) :
    members (v.addSet p) = members v ∪ members p := by
  ext j
  exact (hv.addSet hp).2 j

/-- `remove` takes the indexes of an interval, which may be empty. -/
theorem WellFormed.members_remove (index count : ℕ) :
    members (v.remove index count)
      = members v \ Set.Ico index (index + count) := by
  ext j
  rcases Nat.eq_zero_or_pos count with hzero | hpos
  · subst hzero
    refine (hv.mem_remove_zero).trans ?_
    rw [Nat.add_zero, Set.Ico_self, Set.sdiff_empty]
    rfl
  · exact (hv.remove hpos).2 j

theorem WellFormed.members_removeSet (hp : WellFormed p) :
    members (v.removeSet p) = members v \ members p := by
  ext j
  exact (hv.removeSet hp).2 j

/-- `insert_at` succeeds for a positive count, and the indexes it inserts
are in. -/
theorem WellFormed.members_insertAt (index : ℕ) (hcount : 0 < count) :
    ∃ w, v.insertAt index count = some w ∧ WellFormed w
      ∧ members w = Displace.insertAt
        (Set.Ico index (index + count)) (members v) := by
  obtain ⟨w, heq, hw, hmem⟩ := hv.insertAt hcount
  refine ⟨w, heq, hw, ?_⟩
  ext j
  rw [mem_insertAt, unshift_Ico, Set.mem_Ico]
  refine (hmem j).trans ?_
  by_cases hlt : j < index
  · rw [if_pos hlt, if_pos hlt]
    exact (or_iff_right (by omega)).symm
  · rw [if_neg hlt, if_neg hlt]
    by_cases hin : j < index + count
    · exact iff_of_true (.inl hin) (.inl ⟨by omega, hin⟩)
    · rw [if_neg hin]
      exact or_congr_left (by omega)

/-- `shift_for_insert_at` succeeds likewise, and leaves them out. -/
theorem WellFormed.members_shiftForInsertAt
    (index : ℕ) (hcount : 0 < count) :
    ∃ w, v.shiftForInsertAt index count = some w ∧ WellFormed w
      ∧ members w = Displace.shiftForInsertAt
        (Set.Ico index (index + count)) (members v) := by
  obtain ⟨w, heq, hw, hmem⟩ := hv.shiftForInsertAt hcount
  refine ⟨w, heq, hw, ?_⟩
  ext j
  rw [mem_shiftForInsertAt, unshift_Ico, Set.mem_Ico]
  refine (hmem j).trans ?_
  by_cases hlt : j < index
  · rw [if_pos hlt, if_pos hlt]
    exact (and_iff_right (by omega)).symm
  · rw [if_neg hlt, if_neg hlt]
    by_cases hin : j < index + count
    · exact iff_of_false (fun h => by omega) fun h => h.1 ⟨by omega, hin⟩
    · rw [if_neg hin]
      exact and_congr_left fun _ => by omega

theorem WellFormed.members_insertAtSet (hp : WellFormed p) :
    members (v.insertAtSet p)
      = Displace.insertAt (members p) (members v) := by
  ext j
  rw [mem_insertAt, unshift_members]
  exact (hv.insertAtSet hp).2 j

theorem WellFormed.members_shiftForInsertAtSet (hp : WellFormed p) :
    members (v.shiftForInsertAtSet p)
      = Displace.shiftForInsertAt (members p) (members v) := by
  ext j
  rw [mem_shiftForInsertAt, unshift_members]
  exact (hv.shiftForInsertAtSet hp).2 j

end

/-- Erasing one position moves those behind it by one. -/
theorem mem_eraseAt_singleton {A : Set ℕ} : j ∈ Displace.eraseAt {index} A
      ↔ if j < index then j ∈ A else j + 1 ∈ A := by
  by_cases hlt : j < index
  · rw [if_pos hlt, mem_eraseAt_singleton_of_lt hlt]
  · rw [if_neg hlt]
    constructor
    · intro h
      obtain ⟨x, hx, hne, heq⟩ := h
      rw [unshift_singleton] at heq
      have hne : x ≠ index := hne
      have hxj : x = j + 1 := by
        split at heq
        · omega
        · omega
      exact hxj ▸ hx
    · intro h
      refine ⟨j + 1, h, fun heq => ?_, ?_⟩
      · have heq : j + 1 = index := heq
        omega
      · rw [unshift_singleton, if_pos (by omega)]
        rfl

section

variable (hv : WellFormed v)

include hv

theorem WellFormed.members_eraseAt (index : ℕ) : members (v.eraseAt index)
      = Displace.eraseAt {index} (members v) := by
  ext j
  rw [mem_eraseAt_singleton]
  exact (hv.eraseAt index).2 j

theorem WellFormed.members_eraseAtSet (hp : WellFormed p) :
    members (v.eraseAtSet p)
      = Displace.eraseAt (members p) (members v) := by
  ext j
  refine ((hv.eraseAtSet hp).2 j).trans (exists_congr fun x => ?_)
  rw [unshift_members]
  rfl

/-- `add_shifted` returns the index that it adds. -/
theorem WellFormed.members_addShifted (index : ℕ) :
    Displace.Displaced (members v) index (v.addShifted index).2
      ∧ members (v.addShifted index).1
        = Displace.addShifted (members v) index := by
  obtain ⟨-, hnot, hindex, hmem⟩ := hv.addShifted index
  have hdisplaced : Displaced (members v) index
      (v.addShifted index).2 := by
    have hun := unshifted_add_count v (v.addShifted index).2
    exact displaced_members.2 ⟨hnot, by omega⟩
  refine ⟨hdisplaced, ?_⟩
  ext j
  refine (hmem j).trans (or_congr_right ⟨fun heq => heq ▸ hdisplaced, ?_⟩)
  intro hj
  obtain ⟨hj, hun⟩ := displaced_members.1 hj
  exact unshifted_inj hj hnot
    (hun.trans (displaced_members.1 hdisplaced).2.symm)

/-- `erase_or_unshift` erases a position, and returns where it goes if it
was no member. -/
theorem WellFormed.members_eraseOrUnshift (index : ℕ) :
    members (v.eraseOrUnshift index).1
        = Displace.eraseAt {index} (members v)
      ∧ (v.eraseOrUnshift index).2 = if index ∈ v then none
        else some (Displace.unshift (members v) index) := by
  obtain ⟨-, hreturn, hmem⟩ := hv.eraseOrUnshift index
  refine ⟨?_, ?_⟩
  · ext j
    rw [mem_eraseAt_singleton]
    exact hmem j
  · rw [hreturn, unshift_members]
    rfl

/-- `add_shifted_by` adds the same also where its counts are wrong. -/
theorem WellFormed.members_addShiftedBy
    (hs : WellFormed s) (hp : WellFormed p) :
    members (v.addShiftedBy s p)
      = Displace.addShiftedBy (members s) (members p) (members v) := by
  ext j
  refine ((hv.addShiftedBy hs hp).2 _).trans (or_congr_right ?_)
  refine exists_congr fun x => and_congr_right fun _ =>
    and_congr_right fun _ => ?_
  rw [displaced_members, unshift_members]
  rfl

end

-- ===== one by one

/-- The members are those that `as_indexes` lists. -/
theorem members_eq_asIndexes (hp : WellFormed p) :
    members p = { i | i ∈ p.asIndexes } := by
  ext i
  exact (hp.asIndexes.2 i).symm

theorem Ico_succ_self (i : ℕ) : Set.Ico i (i + 1) = {i} := by
  ext j
  simp
  omega

/-- Calls for each index of a list, over operations on sets. -/
theorem members_foldl {g : IndexSet build → ℕ → IndexSet build}
    (hop : ∀ w i, WellFormed w
      → WellFormed (g w i) ∧ members (g w i) = f (members w) i)
    (hv : WellFormed v) (is : List ℕ) :
    members (is.foldl g v) = is.foldl f (members v) := by
  induction is generalizing v with
  | nil => rfl
  | cons i is ih =>
    obtain ⟨hw, hmem⟩ := hop v i hv
    rw [List.foldl_cons, List.foldl_cons, ih hw, hmem]

/-- Calls for each index of a set, over an operation that takes positions
upwards. -/
theorem members_foldlM {g : IndexSet build → ℕ → Option (IndexSet build)}
    {op : Set ℕ → Set ℕ → Set ℕ} (hempty : ∀ A, op ∅ A = A)
    (hinsert : ∀ A P i, (∀ p ∈ P, p < i)
      → op {i} (op P A) = op (insert i P) A)
    (hop : ∀ w i, WellFormed w → ∃ w', g w i = some w' ∧ WellFormed w'
      ∧ members w' = op (Set.Ico i (i + 1)) (members w))
    (hv : WellFormed v) (hp : WellFormed p) :
    ∃ w, p.asIndexes.foldlM g v = some w
      ∧ members w = op (members p) (members v) := by
  rw [members_eq_asIndexes hp,
    ← foldl_upwards (hempty _) (hinsert _) hp.asIndexes.1]
  generalize p.asIndexes = is
  induction is generalizing v with
  | nil => exact ⟨v, rfl, rfl⟩
  | cons i is ih =>
    obtain ⟨w, heq, hw, hmem⟩ := hop v i hv
    obtain ⟨w', heq', hmem'⟩ := ih hw
    refine ⟨w', ?_, ?_⟩
    · rw [List.foldlM_cons, heq]
      exact heq'
    · rw [hmem', hmem, Ico_succ_self]
      rfl

/-- The same for calls in the reverse order. -/
theorem members_foldr {g : ℕ → IndexSet build → IndexSet build}
    {f : ℕ → Set ℕ → Set ℕ}
    (hop : ∀ w i, WellFormed w
      → WellFormed (g i w) ∧ members (g i w) = f i (members w))
    (hv : WellFormed v) (is : List ℕ) :
    WellFormed (is.foldr g v)
      ∧ members (is.foldr g v) = is.foldr f (members v) := by
  induction is with
  | nil => exact ⟨hv, rfl⟩
  | cons i is ih =>
    obtain ⟨hw, hmem⟩ := hop (is.foldr g v) i ih.1
    exact ⟨hw, by rw [List.foldr_cons, List.foldr_cons, hmem, ih.2]⟩

section

variable (hv : WellFormed v) (hp : WellFormed p)

include hv hp

theorem WellFormed.addSet_one_by_one :
    members (p.asIndexes.foldl IndexSet.add v) = members (v.addSet p) := by
  rw [members_foldl (f := fun A i => insert i A)
    (fun w i hw => ⟨(hw.add i).1, hw.members_add i⟩) hv,
    hv.members_addSet hp, members_eq_asIndexes hp]
  generalize members v = A
  induction p.asIndexes generalizing A with
  | nil => simp
  | cons i is ih =>
    rw [List.foldl_cons, ih]
    ext j
    simp [or_assoc, or_left_comm]

theorem WellFormed.removeSet_one_by_one :
    members (p.asIndexes.foldl (fun w i => w.remove i) v)
      = members (v.removeSet p) := by
  rw [members_foldl (f := fun A i => A \ {i})
    (fun w i hw => ⟨(hw.remove Nat.one_pos).1, by
      rw [hw.members_remove, Ico_succ_self]⟩) hv,
    hv.members_removeSet hp, members_eq_asIndexes hp]
  generalize members v = A
  induction p.asIndexes generalizing A with
  | nil => simp
  | cons i is ih =>
    rw [List.foldl_cons, ih]
    ext j
    simp [and_assoc]

/-- `insert_at` of a set inserts upwards. -/
theorem WellFormed.insertAtSet_one_by_one :
    ∃ w, p.asIndexes.foldlM (fun w i => w.insertAt i) v = some w
      ∧ members w = members (v.insertAtSet p) := by
  rw [hv.members_insertAtSet hp]
  exact members_foldlM insertAt_empty (fun _ _ _ => insertAt_insert)
    (fun w i hw => hw.members_insertAt i Nat.one_pos) hv hp

theorem WellFormed.shiftForInsertAtSet_one_by_one :
    ∃ w, p.asIndexes.foldlM (fun w i => w.shiftForInsertAt i) v = some w
      ∧ members w = members (v.shiftForInsertAtSet p) := by
  rw [hv.members_shiftForInsertAtSet hp]
  exact members_foldlM shiftForInsertAt_empty
    (fun _ _ _ => shiftForInsertAt_insert)
    (fun w i hw => hw.members_shiftForInsertAt i Nat.one_pos) hv hp

/-- `erase_at` of a set erases downwards, so that no position moves before
its turn. -/
theorem WellFormed.eraseAtSet_one_by_one :
    members (p.asIndexes.foldr (fun i w => w.eraseAt i) v)
      = members (v.eraseAtSet p) := by
  rw [(members_foldr (f := fun i A => Displace.eraseAt {i} A)
    (fun w i hw => ⟨(hw.eraseAt i).1, hw.members_eraseAt i⟩) hv
    p.asIndexes).2, Displace.foldr_eraseAt hp.asIndexes.1,
    hv.members_eraseAtSet hp, members_eq_asIndexes hp]

end

/-- A deletion of a position that insertions were made around, as it is
recorded for one index. -/
def addUnshifted (i : ℕ) (vs : IndexSet build × IndexSet build) :
    IndexSet build × IndexSet build :=
  ((vs.2.eraseOrUnshift i).2.elim vs.1 fun u => (vs.1.addShifted u).1,
    (vs.2.eraseOrUnshift i).1)

theorem members_addUnshifted {vs : IndexSet build × IndexSet build}
    (hv : WellFormed vs.1) (hs : WellFormed vs.2) (i : ℕ) :
    WellFormed (addUnshifted i vs).1 ∧ WellFormed (addUnshifted i vs).2
      ∧ (members (addUnshifted i vs).1, members (addUnshifted i vs).2)
        = Displace.addUnshifted i (members vs.1, members vs.2) := by
  obtain ⟨herased, hreturn⟩ := hs.members_eraseOrUnshift i
  have hsecond := (hs.eraseOrUnshift i).1
  unfold addUnshifted
  rw [hreturn]
  by_cases hi : i ∈ vs.2
  · rw [if_pos hi]
    refine ⟨hv, hsecond, Prod.ext ?_ herased⟩
    exact (addUnshifted_of_mem (S := members vs.2) _ hi).symm
  · rw [if_neg hi]
    refine ⟨(hv.addShifted _).1, hsecond, Prod.ext ?_ herased⟩
    refine ((hv.members_addShifted _).2).trans ?_
    exact (addUnshifted_of_not_mem (S := members vs.2) _ hi).symm

/-- `add_shifted_by` takes the values downwards and unshifts each. -/
theorem WellFormed.addShiftedBy_one_by_one (hv : WellFormed v)
    (hs : WellFormed s) (hp : WellFormed p) :
    members (p.asIndexes.foldr addUnshifted (v, s)).1
      = members (v.addShiftedBy s p) := by
  have hfold : ∀ is : List ℕ, WellFormed (is.foldr addUnshifted (v, s)).1
        ∧ WellFormed (is.foldr addUnshifted (v, s)).2
        ∧ (members (is.foldr addUnshifted (v, s)).1,
            members (is.foldr addUnshifted (v, s)).2)
          = is.foldr Displace.addUnshifted (members v, members s) := by
    intro is
    induction is with
    | nil => exact ⟨hv, hs, rfl⟩
    | cons i is ih =>
      obtain ⟨h1, h2, heq⟩ := ih
      obtain ⟨h1', h2', heq'⟩ := members_addUnshifted h1 h2 i
      exact ⟨h1', h2', by rw [List.foldr_cons, List.foldr_cons, ← heq, heq']⟩
  have heq := congrArg Prod.fst (hfold p.asIndexes).2.2
  refine heq.trans ?_
  rw [(Displace.foldr_addUnshifted hp.asIndexes.1).1,
    hv.members_addShiftedBy hs hp, members_eq_asIndexes hp]

-- ===== the statement

/-- The mutators are the operations on sets of positions, and those that
take a set do what those that take an index do one by one: upwards, but
downwards for what is erased. -/
theorem mutators_refine_sets {s : IndexSet build} (hv : WellFormed v)
    (hp : WellFormed p) (hs : WellFormed s) :
    (∀ i, members (v.add i) = insert i (members v)
      ∧ members (v.eraseAt i) = Displace.eraseAt {i} (members v)
      ∧ Displace.Displaced (members v) i (v.addShifted i).2
      ∧ members (v.addShifted i).1 = Displace.addShifted (members v) i
      ∧ members (v.eraseOrUnshift i).1 = Displace.eraseAt {i} (members v)
      ∧ (v.eraseOrUnshift i).2 = if i ∈ v then none
        else some (Displace.unshift (members v) i))
    ∧ (∀ i count,
      members (v.remove i count) = members v \ Set.Ico i (i + count)
      ∧ (0 < count → ∃ w, v.insertAt i count = some w
        ∧ members w
          = Displace.insertAt (Set.Ico i (i + count)) (members v))
      ∧ (0 < count → ∃ w, v.shiftForInsertAt i count = some w
        ∧ members w = Displace.shiftForInsertAt (Set.Ico i (i + count))
          (members v)))
    ∧ (members (v.addSet p) = members v ∪ members p
      ∧ members (v.removeSet p) = members v \ members p
      ∧ members (v.insertAtSet p)
        = Displace.insertAt (members p) (members v)
      ∧ members (v.shiftForInsertAtSet p)
        = Displace.shiftForInsertAt (members p) (members v)
      ∧ members (v.eraseAtSet p)
        = Displace.eraseAt (members p) (members v)
      ∧ members (v.addShiftedBy s p)
        = Displace.addShiftedBy (members s) (members p) (members v))
    ∧ (members (p.asIndexes.foldl IndexSet.add v) = members (v.addSet p)
      ∧ members (p.asIndexes.foldl (fun w i => w.remove i) v)
        = members (v.removeSet p)
      ∧ (∃ w, p.asIndexes.foldlM (fun w i => w.insertAt i) v = some w
        ∧ members w = members (v.insertAtSet p))
      ∧ (∃ w, p.asIndexes.foldlM (fun w i => w.shiftForInsertAt i) v
          = some w ∧ members w = members (v.shiftForInsertAtSet p))
      ∧ members (p.asIndexes.foldr (fun i w => w.eraseAt i) v)
        = members (v.eraseAtSet p)
      ∧ members (p.asIndexes.foldr addUnshifted (v, s)).1
        = members (v.addShiftedBy s p)) := by
  refine ⟨fun i => ?_, fun i count => ⟨hv.members_remove i count, ?_, ?_⟩,
    ?_, ?_⟩
  · exact ⟨hv.members_add i, hv.members_eraseAt i,
      (hv.members_addShifted i).1, (hv.members_addShifted i).2,
      (hv.members_eraseOrUnshift i).1, (hv.members_eraseOrUnshift i).2⟩
  · intro hcount
    obtain ⟨w, heq, -, hmem⟩ := hv.members_insertAt i hcount
    exact ⟨w, heq, hmem⟩
  · intro hcount
    obtain ⟨w, heq, -, hmem⟩ := hv.members_shiftForInsertAt i hcount
    exact ⟨w, heq, hmem⟩
  · exact ⟨hv.members_addSet hp, hv.members_removeSet hp,
      hv.members_insertAtSet hp, hv.members_shiftForInsertAtSet hp,
      hv.members_eraseAtSet hp, hv.members_addShiftedBy hs hp⟩
  · exact ⟨hv.addSet_one_by_one hp, hv.removeSet_one_by_one hp,
      hv.insertAtSet_one_by_one hp, hv.shiftForInsertAtSet_one_by_one hp,
      hv.eraseAtSet_one_by_one hp, hv.addShiftedBy_one_by_one hs hp⟩

/-- Two positions that are inserted between others. -/
theorem mutators_refine_sets_inserted :
    ((ofList [1, 4] : IndexSet .release).insertAtSet
        (ofList [0, 3])).asIndexes = [0, 2, 3, 6]
      ∧ members ((ofList [1, 4] : IndexSet .release).insertAtSet
          (ofList [0, 3]))
        = Displace.insertAt (members (ofList [0, 3] : IndexSet .release))
          (members (ofList [1, 4] : IndexSet .release)) :=
  ⟨by decide, (mutators_refine_sets (wellFormed_ofList [1, 4]).1
    (wellFormed_ofList [0, 3]).1 (wellFormed_ofList []).1).2.2.1.2.2.1⟩

end BarqSync.ObjectStore
