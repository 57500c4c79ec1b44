/-
What the mutators of index sets do that take indexes out or move them.

Two calls leave the invariant. The removal of no index from inside a
range cuts the range in two that touch. `add_shifted_by` copies the
ranges behind the last value whole, and its builder counts one index for
a range that opens a chunk beyond the expected ones.
-/
import BarqSync.ObjectStore.Proofs.IndexSet

namespace BarqSync.ObjectStore

open Ranges ChunkedRangeVector Cursor IndexSet

variable {build : Build} {v : IndexSet build} {it : Iter}
  {l1 l2 : List (ℕ × ℕ)} {index j start stop start' : ℕ}
  {r : ℕ × ℕ}

-- ===== erasing

/-- `doErase` closes the place of the index. -/
theorem Found.doErase (h : Found v it index l1 (r :: l2)) :
    Cached (v.doErase it index)
      ∧ Closes l1 r l2 index (v.doErase it index).ranges := by
  have hcur := h.cursor
  obtain ⟨hs1, hs2, hs⟩ := separated_append.1 h.separated
  obtain ⟨hr, hrl, hs3⟩ := separated_cons.1 hs2
  have hri := h.behind r (by simp)
  have hlen : v.ranges.length = l1.length + l2.length + 1 := by
    rw [hcur.ranges]
    simp only [List.length_append, List.length_cons]
    omega
  have hl2 : ∀ t ∈ l2, 1 ≤ t.1 ∧ t.1 ≤ t.2 := fun t ht => by
    have := hrl t ht
    have := hs3.nonempty t ht
    omega
  rw [IndexSet.doErase]
  simp only [hcur.get]
  by_cases hin : r.1 ≤ index
  · rw [if_pos hin]
    by_cases hone : r.1 + 1 = r.2
    · rw [if_pos hone]
      obtain ⟨hc, hranges⟩ := @moveDown _ _ _ _ _ v.ranges.length
        hcur.erase hl2 (by omega)
      exact ⟨hc, hranges ▸ .whole hin hone⟩
    · rw [if_neg hone]
      have hcut := @adjust _ _ _ _ _ _ hcur 0 (-1) (by omega)
        (by omega) (by omega)
      rw [offsetBy_zero, offsetBy_neg_one] at hcut
      obtain ⟨hc, hranges⟩ := @moveDown _ _ _ _ _ v.ranges.length
        (hcut.here hcur).next hl2 (by omega)
      rw [List.append_assoc, List.singleton_append] at hranges
      exact ⟨hc, hranges ▸ .part hin (by omega)⟩
  · rw [if_neg hin]
    by_cases hgap : it ≠ beginIt ∧ (v.get (v.prev it)).2 + 1 = r.1
    · rw [if_pos hgap]
      rcases List.eq_nil_or_concat' l1 with hnil | ⟨m, p, hm⟩
      · exact absurd (hcur.eq_begin_iff.2 hnil) hgap.1
      · subst hm
        have hprev := hcur.prev
        have hp : p.2 + 1 = r.1 := hprev.get ▸ hgap.2
        have hpne := hs1.nonempty p (by simp)
        have hwide := @adjust _ _ _ _ _ _ hprev 0 (r.2 - r.1)
          (by omega) (by omega) (by omega)
        have hp2 : offsetBy p.2 ((r.2 : ℤ) - r.1) = r.2 - 1 := by
          unfold offsetBy
          omega
        rw [offsetBy_zero, hp2] at hwide
        obtain ⟨hc, hranges⟩ := @moveDown _ _ _ _ _
          v.ranges.length (hwide.behind hcur).erase hl2 (by omega)
        rw [List.append_assoc, List.singleton_append] at hranges
        exact ⟨hc, hranges ▸ .gap rfl (by omega) hp⟩
    · rw [if_neg hgap]
      have hall : ∀ t ∈ r :: l2, 1 ≤ t.1 ∧ t.1 ≤ t.2 := by
        intro t ht
        have := hs2.forall_behind (Nat.lt_of_not_le hin) t ht
        have := hs2.nonempty t ht
        omega
      obtain ⟨hc, hranges⟩ := @moveDown _ _ _ _ _ v.ranges.length
        hcur hall (by simp only [List.length_cons]; omega)
      refine ⟨hc, hranges ▸ .apart (by omega) ?_⟩
      rcases List.eq_nil_or_concat' l1 with rfl | ⟨m, p, rfl⟩
      · simp
      · have hpr := hs p (by simp) r (by simp)
        have hne : p.2 + 1 ≠ r.1 := by
          intro heq
          refine hgap ⟨?_, ?_⟩
          · simp [hcur.eq_begin_iff]
          · rw [hcur.prev.get]
            exact heq
        intro t ht
        have := hs1.forall_before (show p.2 < r.1 - 1 by omega) t ht
        omega

/-- The set without the index, and what is behind it moved down. -/
theorem Found.erased (h : Found v it index l1 (r :: l2)) :
    WellFormed (v.doErase it index)
      ∧ ∀ j, j ∈ v.doErase it index
        ↔ if j < index then j ∈ v else j + 1 ∈ v := by
  obtain ⟨hc, hclose⟩ := h.doErase
  refine ⟨⟨hclose.separated h.separated, hc⟩, fun j => ?_⟩
  rw [mem_def, hclose.covers h.separated h.before
    (h.behind r (by simp)), h.cursor.mem, h.cursor.mem]

/-- Behind the last range there is nothing to move. -/
theorem Found.mem_of_nil (h : Found v it index l1 []) :
    j ∈ v ↔ if j < index then j ∈ v else j + 1 ∈ v := by
  have hlt : ∀ k, k ∈ v → k < index := by
    intro k hk
    rw [h.cursor.mem, List.append_nil] at hk
    exact hk.lt h.before
  have := hlt j
  have := hlt (j + 1)
  split
  · rfl
  · constructor
    · intro hj
      exact absurd (hlt j hj) (by omega)
    · intro hj
      exact absurd (hlt (j + 1) hj) (by omega)

theorem WellFormed.eraseAt (hv : WellFormed v) (index : ℕ) :
    WellFormed (v.eraseAt index) ∧ ∀ j, j ∈ v.eraseAt index
      ↔ if j < index then j ∈ v else j + 1 ∈ v := by
  obtain ⟨l1, l2, h⟩ := hv.find index
  rw [IndexSet.eraseAt]
  cases l2 with
  | nil =>
    rw [if_neg (by simp [h.cursor.eq_end_iff])]
    exact ⟨hv, fun j => h.mem_of_nil⟩
  | cons r l2 =>
    rw [if_pos (by simp [h.cursor.eq_end_iff])]
    exact h.erased

theorem WellFormed.eraseOrUnshift (hv : WellFormed v) (index : ℕ) :
    WellFormed (v.eraseOrUnshift index).1
      ∧ (v.eraseOrUnshift index).2 = (if index ∈ v then none
        else some (index - Nat.count (· ∈ v) index))
      ∧ ∀ j, j ∈ (v.eraseOrUnshift index).1
        ↔ if j < index then j ∈ v else j + 1 ∈ v := by
  obtain ⟨chunks, ranges, hc, hr, l1, l2, hcur, hs, hI, hstop⟩ :=
    @WellFormed.scanFrom _ v hv ℕ
      (fun l n => n = index - total l ∧ ∀ r ∈ l, r.2 ≤ index)
      (fun c _ => c.stop ≤ index) (fun c shifted => shifted - c.count)
      (fun r _ => r.2 ≤ index)
      (fun r shifted => shifted - (r.2 - r.1)) index [] v.chunks rfl
      (by simp [total])
      (by
        intro l c n hle hcount hI hmore
        have hmore : c.stop ≤ index := by simpa using hmore
        exact ⟨by rw [total_append, hI.1, hcount]; omega,
          List.forall_mem_append.2
            ⟨hI.2, fun r hr => (hle r hr).trans hmore⟩⟩)
      (by
        intro l r n hr hI hmore
        exact ⟨by rw [total_append, hI.1]; simp [total]; omega,
          List.forall_mem_append.2 ⟨hI.2, by simpa using hmore⟩⟩)
  have hbehind : ∀ r ∈ l2, index < r.2 := by
    cases l2 with
    | nil => simp
    | cons r l2 =>
      have hr : index < r.2 := by simpa using hstop r rfl
      have hs2 := separated_cons.1 (separated_append.1 hs).2.1
      refine List.forall_mem_cons.2 ⟨hr, fun t ht => ?_⟩
      have := hs2.2.1 t ht
      have := hs2.2.2.nonempty t ht
      omega
  have hfound : Found v ranges.1 index l1 l2 := ⟨hcur, hs, hI.2, hbehind⟩
  have hcount : Nat.count (· ∈ v) index
      = Nat.count (Covers (l1 ++ l2)) index :=
    count_congr fun j _ => hcur.mem
  change chunks = v.scanChunks _ _ _ beginIt _ at hc
  rw [IndexSet.eraseOrUnshift, IndexSet.unshiftChunks,
    unshiftRanges, ← hc, ← hr]
  cases l2 with
  | nil =>
    rw [if_pos (hcur.eq_end_iff.2 rfl)]
    have hno : index ∉ v := by simp [hfound.mem_iff]
    refine ⟨hv, ?_, fun j => hfound.mem_of_nil⟩
    rw [if_neg hno, hcount, hs.count_cut hI.2 (by simp), hI.1]
  | cons r l2 =>
    rw [if_neg (by simp [hcur.eq_end_iff]), hcur.get]
    have hmem : index ∈ v ↔ r.1 ≤ index := by simp [hfound.mem_iff]
    by_cases hin : r.1 ≤ index
    · rw [if_pos hin, if_pos (hmem.2 hin)]
      exact ⟨hfound.erased.1, rfl, hfound.erased.2⟩
    · rw [if_neg hin, if_neg (mt hmem.1 hin)]
      refine ⟨hfound.erased.1, ?_, hfound.erased.2⟩
      have hlt := (separated_append.1 hs).2.1.forall_behind
        (Nat.lt_of_not_le hin)
      rw [hcount, hs.count_cut hI.2 fun t ht => (hlt t ht).le, hI.1]

-- ===== inserting

/-- A run of indexes added at a cut with room for it. -/
theorem Cursor.addRun {count : ℕ} (h : Cursor v it l1 l2)
    (hs : Separated (l1 ++ l2)) (hl1 : ∀ t ∈ l1, t.2 ≤ index)
    (hl2 : ∀ t ∈ l2, index + count < t.1) :
    WellFormed (IndexSet.addRun count v it index)
      ∧ ∀ j, j ∈ IndexSet.addRun count v it index
        ↔ j ∈ v ∨ index ≤ j ∧ j < index + count := by
  induction count generalizing v it l1 index with
  | zero =>
    refine ⟨h.wellFormed hs, fun j => ?_⟩
    show j ∈ v ↔ _
    constructor
    · exact Or.inl
    · intro hj
      rcases hj with hj | hj
      · exact hj
      · omega
  | succ count ih =>
    have hfound : Found v it index l1 l2 :=
      ⟨h, hs, hl1, fun t ht => by
        have := hl2 t ht
        have := hs.nonempty t (by simp [ht])
        omega⟩
    obtain ⟨m, r, m', hjoin, hcur⟩ := hfound.doAdd
    obtain ⟨hr, rfl⟩ := hjoin.tight fun t ht => by
      have := hl2 t ht
      omega
    have hs' := hjoin.separated hs hfound.behind
    have hnext : ∀ t ∈ m ++ [r], t.2 ≤ index + 1 := by
      intro t ht
      rcases List.mem_append.1 ht with ht | ht
      · have := (separated_append.1 hs').2.2 t ht r (by simp)
        have := hjoin.holds hs hfound.behind
        omega
      · rw [List.mem_singleton.1 ht, hr]
    obtain ⟨hwf, hmem⟩ := ih hcur.next (by simpa using hs') hnext
      (fun t ht => by
        have := hl2 t ht
        omega)
    refine ⟨hwf, fun j => ?_⟩
    show j ∈ addRun count (v.doAdd it index).1 _ (index + 1) ↔ _
    rw [hmem, hcur.mem, hjoin.covers hs hfound.behind, h.mem]
    constructor
    · intro hj
      rcases hj with (hj | hj) | hj
      · exact .inl hj
      · exact .inr (by omega)
      · exact .inr (by omega)
    · intro hj
      rcases hj with hj | hj
      · exact .inl (.inl hj)
      · by_cases heq : j = index
        · exact .inl (.inr heq)
        · exact .inr (by omega)

theorem WellFormed.insertAt {count : ℕ} (hv : WellFormed v)
    (hcount : 0 < count) : ∃ w, v.insertAt index count = some w
      ∧ WellFormed w ∧ ∀ j, j ∈ w ↔ if j < index then j ∈ v
        else j < index + count ∨ j - count ∈ v := by
  obtain ⟨l1, l2, h⟩ := hv.find index
  have hcur := h.cursor
  obtain ⟨hs1, hs2, hs⟩ := separated_append.1 h.separated
  have hbefore : ∀ k, Covers l1 k → k < index :=
    fun k hk => hk.lt h.before
  rw [IndexSet.insertAt, if_neg (by omega)]
  cases l2 with
  | nil =>
    rw [if_pos (hcur.eq_end_iff.2 rfl)]
    obtain ⟨hwf, hmem⟩ := @addRun _ _ _ _ _ index count hcur
      h.separated h.before (by simp)
    refine ⟨_, rfl, hwf, fun j => ?_⟩
    rw [hmem, hcur.mem, hcur.mem, List.append_nil]
    grind
  | cons r l2 =>
    have hr := h.behind r (by simp)
    obtain ⟨hrne, hrl, hs3⟩ := separated_cons.1 hs2
    have hlen : l2.length + 1 ≤ v.ranges.length := by
      rw [hcur.ranges]
      simp
    rw [if_neg (by simp [hcur.eq_end_iff]), hcur.get]
    by_cases hin : r.1 ≤ index
    · -- the range that holds the index grows
      rw [if_pos hin]
      have hgrow := @adjust _ _ _ _ _ _ hcur 0 count (by omega)
        (by omega) (by omega)
      rw [offsetBy_zero, offsetBy_natCast] at hgrow
      obtain ⟨hc, -, hranges⟩ := @moveUp _ _ _ _ _ count
        v.ranges.length (hgrow.here hcur).next
        (fun t ht => (hs3.nonempty t ht).le) (by omega)
      rw [List.append_assoc, List.singleton_append] at hranges
      refine ⟨_, rfl, ⟨?_, hc⟩, fun j => ?_⟩
      · rw [hranges]
        refine separated_around.2 ⟨hs1, by simp only; omega, hs3.moveUp,
          fun t ht => hs t ht r (by simp), fun t ht => ?_⟩
        have := mem_moveUp (c := count) hrl t ht
        simp only
        omega
      · rw [mem_def, hranges, hcur.mem, hcur.mem]
        simp only [covers_append, covers_cons, covers_moveUp]
        have hbehind : ∀ k, Covers l2 k → r.2 < k := fun k hk => hk.ge hrl
        grind
    · -- the ranges behind make room, and the run goes before them
      rw [if_neg hin]
      have hgt := hs2.forall_behind (Nat.lt_of_not_le hin)
      have hmove := @adjust _ _ _ _ _ _ hcur count count (by omega)
        (by omega) (by omega)
      rw [← shiftIt_eq_adjust, offsetBy_natCast, offsetBy_natCast] at hmove
      obtain ⟨hc, hshape, hranges⟩ := @moveUp _ _ _ _ _ count
        v.ranges.length (hmove.here hcur).next
        (fun t ht => (hs3.nonempty t ht).le) (by omega)
      have hup : ∀ t ∈ Ranges.moveUp count (r :: l2),
          index + count < t.1 := by
        intro t ht
        have := mem_moveUp (c := count) (fun t ht => hgt t ht) t ht
        omega
      have hcur' := hcur.transfer hc (hshape.trans hmove.shape)
        (show _ = l1 ++ Ranges.moveUp count (r :: l2) by
          rw [hranges, List.append_assoc]
          rfl) rfl
      have hs' : Separated (l1 ++ Ranges.moveUp count (r :: l2)) := by
        refine separated_append.2 ⟨hs1, hs2.moveUp, ?_⟩
        intro t ht u hu
        have := h.before t ht
        have := hup u hu
        omega
      obtain ⟨hwf, hmem⟩ := hcur'.addRun hs' h.before hup
      refine ⟨_, rfl, hwf, fun j => ?_⟩
      rw [hmem, hcur'.mem, hcur.mem, hcur.mem]
      simp only [covers_append, covers_moveUp]
      have hbehind : ∀ k, Covers (r :: l2) k → index < k :=
        fun k hk => hk.ge hgt
      grind

theorem WellFormed.shiftForInsertAt {count : ℕ} (hv : WellFormed v)
    (hcount : 0 < count) : ∃ w, v.shiftForInsertAt index count = some w
      ∧ WellFormed w ∧ ∀ j, j ∈ w ↔ if j < index then j ∈ v
        else index + count ≤ j ∧ j - count ∈ v := by
  obtain ⟨l1, l2, h⟩ := hv.find index
  have hcur := h.cursor
  obtain ⟨hs1, hs2, hs⟩ := separated_append.1 h.separated
  have hbefore : ∀ k, Covers l1 k → k < index :=
    fun k hk => hk.lt h.before
  rw [IndexSet.shiftForInsertAt, if_neg (by omega)]
  cases l2 with
  | nil =>
    rw [if_pos (hcur.eq_end_iff.2 rfl)]
    refine ⟨_, rfl, hv, fun j => ?_⟩
    rw [hcur.mem, hcur.mem, List.append_nil]
    grind
  | cons r l2 =>
    have hr := h.behind r (by simp)
    obtain ⟨hrne, hrl, hs3⟩ := separated_cons.1 hs2
    obtain ⟨hc, hshape, hranges⟩ := @moveUp _ _ _ _ _ count
      v.ranges.length hcur (fun t ht => (hs2.nonempty t ht).le)
      (by rw [hcur.ranges]; simp)
    have hcur' : Cursor _ _ l1 ((r.1 + count, r.2 + count)
        :: Ranges.moveUp count l2) :=
      hcur.transfer hc hshape hranges rfl
    have hup := mem_moveUp (c := count) hrl
    rw [if_neg (by simp [hcur.eq_end_iff])]
    simp only [hcur'.get, Nat.add_sub_cancel]
    by_cases hin : r.1 < index
    · rw [if_pos (by omega)]
      have hcut := hcur'.set (r.1 + count - count) index
      rw [Nat.add_sub_cancel] at hcut
      have hins := @insert _ _ _ _ _ (hcut.here hcur').next
        (index + count, r.2 + count) (by
          intro t ht
          show t.1 ≤ index + count
          rcases List.mem_append.1 ht with ht | ht
          · have := h.before t ht
            have := hs1.nonempty t ht
            omega
          · rw [List.mem_singleton.1 ht]
            simp only
            omega) (by
          intro t ht
          have := hup t ht
          have := (@Separated.moveUp _ count hs3).nonempty t ht
          simp only
          omega)
      refine ⟨_, rfl, ?_, fun j => ?_⟩
      · refine hins.wellFormed (separated_around.2 ⟨?_, by simp only; omega,
          hs3.moveUp, ?_, fun t ht => ?_⟩)
        · exact separated_around.2 ⟨hs1, hin, separated_nil,
            fun t ht => hs t ht r (by simp), by simp⟩
        · refine List.forall_mem_append.2 ⟨fun t ht => ?_, ?_⟩
          · have := h.before t ht
            simp only
            omega
          · simp only [List.forall_mem_singleton]
            omega
        · have := hup t ht
          simp only
          omega
      · rw [hins.mem, hcur.mem, hcur.mem]
        simp only [covers_append, covers_cons, covers_moveUp,
          not_covers_nil, or_false]
        have hbehind : ∀ k, Covers l2 k → r.2 < k := fun k hk => hk.ge hrl
        grind
    · rw [if_neg (by omega)]
      have hs' : Separated (l1 ++ Ranges.moveUp count (r :: l2)) := by
        refine separated_append.2 ⟨hs1, hs2.moveUp, ?_⟩
        intro t ht u hu
        have := h.before t ht
        rcases List.mem_cons.1 hu with rfl | hu
        · simp only
          omega
        · have := hup u hu
          omega
      refine ⟨_, rfl, hcur'.wellFormed hs', fun j => ?_⟩
      rw [hcur'.mem, hcur.mem, hcur.mem]
      simp only [covers_append, covers_cons, covers_moveUp]
      have hbehind : ∀ k, Covers l2 k → r.2 < k := fun k hk => hk.ge hrl
      grind

-- ===== removals

/-- What a removal between `start` and `stop` leaves: the iterator stands
behind everything that ends by `stop`. -/
structure Removed (v w : IndexSet build) (it : Iter)
    (start stop : ℕ) : Prop where
  wellFormed : WellFormed w
  mem : ∀ j, j ∈ w ↔ j ∈ v ∧ ¬ (start ≤ j ∧ j < stop)
  place : ∃ l1 l2, Cursor w it l1 l2 ∧ ∀ t ∈ l1, t.2 ≤ stop

theorem Removed.round {u w : IndexSet build}
    (h : Removed u w it start' stop)
    (hu : ∀ j, j ∈ u ∧ ¬ (start' ≤ j ∧ j < stop)
      ↔ j ∈ v ∧ ¬ (start ≤ j ∧ j < stop)) :
    Removed v w it start stop :=
  ⟨h.wellFormed, fun j => (h.mem j).trans (hu j), h.place⟩

/-- The range meets the removal. -/
def meets (start stop : ℕ) (t : ℕ × ℕ) : Bool :=
  decide (start < t.2 ∧ t.1 < stop)

theorem countP_meets_le (h : start ≤ start') :
    l2.countP (meets start' stop) ≤ l2.countP (meets start stop) := by
  refine List.countP_mono_left fun t _ ht => ?_
  simp only [meets, decide_eq_true_eq] at ht ⊢
  omega

/-- What a removal leaves of a range. -/
def pieces (r : ℕ × ℕ) (start stop : ℕ) : List (ℕ × ℕ) :=
  (if r.1 < start then [(r.1, start)] else [])
    ++ if stop < r.2 then [(stop, r.2)] else []

theorem countP_pieces :
    (pieces r start stop).countP (meets start stop) = 0 := by
  unfold pieces
  split <;> split <;> simp [meets]

section

variable (hle : r.1 ≤ start) (hlt : start < stop)

include hle hlt

theorem covers_pieces (hr : start < r.2) {j : ℕ} :
    Covers (pieces r start stop) j
      ↔ (r.1 ≤ j ∧ j < r.2) ∧ ¬ (start ≤ j ∧ j < stop) := by
  unfold pieces
  split <;> split <;> simp [Covers] <;> omega

theorem separated_pieces (h : Separated (l1 ++ r :: l2))
    (hr : start < r.2) :
    Separated (l1 ++ (pieces r start stop ++ l2)) := by
  obtain ⟨hs1, -, hs3, hlr, hrl⟩ := separated_around.1 h
  -- both ends of a piece are in the range
  have hin : ∀ t ∈ pieces r start stop, r.1 ≤ t.1 ∧ t.2 ≤ r.2 := by
    unfold pieces
    split <;> split <;> simp <;> omega
  have hs2 : Separated (pieces r start stop) := by
    unfold pieces
    split <;> split <;> simp <;> omega
  refine separated_append.2 ⟨hs1, separated_append.2 ⟨hs2, hs3, ?_⟩, ?_⟩
  · intro t ht u hu
    have := hin t ht
    have := hrl u hu
    omega
  · intro t ht u hu
    have := hlr t ht
    rcases List.mem_append.1 hu with hu | hu
    · have := hin u hu
      omega
    · have := hrl u hu
      have := (separated_around.1 h).2.1
      omega

end

/-- A round of the loop that meets a range leaves its pieces. -/
theorem Found.doRemove_round {fuel low : ℕ}
    (h : Found v (v.findFrom start it) start l1 (r :: l2))
    (hlow : low = max r.1 start) (hlt : r.1 < stop) :
    ∃ u it', Cursor u it' l1 (pieces r low stop ++ l2)
      ∧ IndexSet.doRemove (fuel + 1) v it start stop
        = IndexSet.doRemove fuel u it' low stop := by
  have hcur := h.cursor
  have hne : ¬ v.findFrom start it = v.endIt := by simp [hcur.eq_end_iff]
  obtain ⟨hs1, -, hs3, hlr, hrl⟩ := separated_around.1 h.separated
  rw [IndexSet.doRemove]
  simp only [hne, hcur.get, false_or, ← hlow]
  rw [if_neg (show ¬ stop ≤ r.1 by omega), pieces]
  by_cases hboth : r.1 < low ∧ stop < r.2
  · -- the range reaches over both ends and is split
    have hcut := (hcur.set r.1 low).here hcur
    have hins := @insert _ _ _ _ _ hcut.next (stop, r.2) (by
        intro t ht
        show t.1 ≤ stop
        rcases List.mem_append.1 ht with ht | ht
        · have := hlr t ht
          have := hs1.nonempty t ht
          omega
        · rw [List.mem_singleton.1 ht]
          simp only
          omega) (by
        intro t ht
        have := hrl t ht
        have := hs3.nonempty t ht
        simp only
        omega)
    rw [if_pos hboth, if_pos hboth.1, if_pos hboth.2]
    exact ⟨_, _, hins.prev, rfl⟩
  rw [if_neg hboth]
  by_cases hwhole : low = r.1 ∧ r.2 ≤ stop
  · -- the whole range goes
    rw [if_pos hwhole, if_neg (by omega), if_neg (by omega)]
    exact ⟨_, _, hcur.erase, rfl⟩
  rw [if_neg hwhole]
  by_cases hfront : low = r.1
  · -- its first indexes go
    rw [if_pos hfront, if_neg (by omega), if_pos (by omega)]
    exact ⟨_, _, (hcur.set stop r.2).here hcur, rfl⟩
  · -- its last indexes go
    rw [if_neg hfront, if_pos (by omega), if_neg (by omega)]
    exact ⟨_, _, (hcur.set r.1 low).here hcur, rfl⟩

section

variable (hv : WellFormed v)

include hv

/-- The loop of `do_remove`. Each round leaves one range less that meets
the removal. -/
theorem WellFormed.doRemove {fuel : ℕ}
    (h : Cursor v it l1 l2) (hl1 : ∀ t ∈ l1, t.2 ≤ start)
    (hlt : start < stop) (hfuel : l2.countP (meets start stop) < fuel) :
    Removed v (IndexSet.doRemove fuel v it start stop).1
      (IndexSet.doRemove fuel v it start stop).2 start stop := by
  induction fuel generalizing v it l1 l2 start with
  | zero => omega
  | succ fuel ih =>
    obtain ⟨m1, m2, rfl, hf⟩ := hv.findFrom h hl1
    rw [List.countP_append] at hfuel
    generalize l1 ++ m1 = l1 at hf
    have hcur := hf.cursor
    have hbefore : ∀ k, Covers l1 k → k < start :=
      fun k hk => hk.lt hf.before
    have hplace : ∀ t ∈ l1, t.2 ≤ stop := fun t ht =>
      (hf.before t ht).trans hlt.le
    cases m2 with
    | nil =>
      rw [IndexSet.doRemove]
      simp only [hcur.eq_end_iff.2 rfl, true_or, if_true]
      refine ⟨hv, fun j => ?_, ⟨_, _, cursor_end hv.cached, ?_⟩⟩
      · rw [hcur.mem, List.append_nil]
        grind
      · rw [hcur.ranges, List.append_nil]
        exact hplace
    | cons r l2 =>
      have hr := hf.behind r (by simp)
      obtain ⟨-, hrne, -, -, hrl⟩ := separated_around.1 hf.separated
      have hbehind : ∀ k, Covers l2 k → r.2 < k := fun k hk => hk.ge hrl
      by_cases hstop : stop ≤ r.1
      · -- the next range lies behind the removal
        rw [IndexSet.doRemove]
        simp only [hcur.get, hstop, or_true, if_true]
        refine ⟨hv, fun j => ?_, ⟨_, _, hcur, hplace⟩⟩
        rw [hcur.mem, covers_append, covers_cons]
        grind
      obtain ⟨low, hlow⟩ : ∃ low, low = max r.1 start := ⟨_, rfl⟩
      have hle : r.1 ≤ low := by omega
      have hlt' : low < stop := by omega
      obtain ⟨u, it', hcut, hround⟩ := hf.doRemove_round hlow
        (Nat.lt_of_not_le hstop)
      rw [hround]
      have hs' := separated_pieces hle hlt' hf.separated (by omega)
      refine (ih (hcut.wellFormed hs') hcut (fun t ht => ?_) hlt' ?_).round
        fun j => ?_
      · have := hf.before t ht
        omega
      · have hmeets : meets start stop r = true := by
          simp only [meets, decide_eq_true_eq]
          omega
        have hmono : l2.countP (meets low stop)
            ≤ l2.countP (meets start stop) := countP_meets_le (by omega)
        rw [List.countP_cons_of_pos hmeets] at hfuel
        rw [List.countP_append, countP_pieces]
        omega
      · rw [hcut.mem, hcur.mem]
        simp only [covers_append, covers_cons,
          covers_pieces hle hlt' (show low < r.2 by omega)]
        by_cases h1 : Covers l1 j
        · have := hbefore j h1
          simp only [h1, true_or, true_and]
          omega
        by_cases h2 : Covers l2 j
        · have := hbehind j h2
          simp only [h2, or_true, true_and]
          omega
        · simp only [h1, h2, false_or, or_false]
          omega

theorem WellFormed.remove {count : ℕ}
    (hcount : 0 < count) : WellFormed (v.remove index count)
      ∧ ∀ j, j ∈ v.remove index count
        ↔ j ∈ v ∧ ¬ (index ≤ j ∧ j < index + count) := by
  obtain ⟨l1, l2, h⟩ := hv.find index
  have hfuel : l2.countP (meets index (index + count)) < v.removeFuel := by
    have := @List.countP_le_length _ (meets index (index + count)) l2
    rw [removeFuel, h.cursor.ranges, List.length_append]
    omega
  have hrem := hv.doRemove h.cursor h.before (by omega) hfuel
  exact ⟨hrem.wellFormed, hrem.mem⟩

/-- The removal of no index changes nothing, unless it is from inside a
range. -/
theorem WellFormed.remove_zero_cases : v.remove index 0 = v
    ∨ ∃ l1 r l2, r.1 < index
      ∧ Found v (v.findFrom index (v.find index)) index l1 (r :: l2) := by
  obtain ⟨l1, l2, h⟩ := hv.find index
  obtain ⟨m1, m2, -, hf⟩ := hv.findFrom h.cursor h.before
  cases m2 with
  | nil =>
    rw [IndexSet.remove, IndexSet.removeFuel, IndexSet.doRemove]
    simp only [hf.cursor.eq_end_iff.2 rfl, true_or, if_true]
  | cons r l2 =>
    by_cases hlt : r.1 < index
    · exact .inr ⟨_, r, l2, hlt, hf⟩
    rw [IndexSet.remove, IndexSet.removeFuel, IndexSet.doRemove]
    simp only [hf.cursor.get, Nat.add_zero]
    rw [if_pos (.inr (Nat.le_of_not_lt hlt))]
    exact .inl rfl

theorem WellFormed.remove_zero
    (hin : ¬ (index ∈ v ∧ 0 < index ∧ index - 1 ∈ v)) :
    v.remove index 0 = v := by
  refine hv.remove_zero_cases.resolve_right ?_
  rintro ⟨l1, r, l2, hlt, hf⟩
  have hr := hf.behind r (by simp)
  refine hin ⟨?_, by omega, ?_⟩ <;>
    rw [hf.cursor.mem, covers_append, covers_cons] <;>
    exact .inr (.inl (by omega))

theorem WellFormed.removeRanges {rs : List (ℕ × ℕ)}
    (h : Cursor v it l1 l2) (hrs : Separated rs)
    (hl1 : ∀ t ∈ l1, ∀ r ∈ rs, t.2 ≤ r.1) :
    WellFormed (IndexSet.removeRanges rs v it)
      ∧ ∀ j, j ∈ IndexSet.removeRanges rs v it
        ↔ j ∈ v ∧ ¬ Covers rs j := by
  induction rs generalizing v it l1 l2 with
  | nil => exact ⟨hv, fun j => by simp [IndexSet.removeRanges]⟩
  | cons r rs ih =>
    obtain ⟨hr, hrl, hrs⟩ := separated_cons.1 hrs
    have hfuel : l2.countP (meets r.1 r.2) < v.removeFuel := by
      have := @List.countP_le_length _ (meets r.1 r.2) l2
      rw [IndexSet.removeFuel, h.ranges, List.length_append]
      omega
    have hrem := hv.doRemove h (fun t ht => hl1 t ht r (by simp)) hr hfuel
    rw [IndexSet.removeRanges]
    generalize IndexSet.doRemove v.removeFuel v it r.1 r.2 = removed
      at hrem
    obtain ⟨k1, k2, hcur, hk1⟩ := hrem.place
    by_cases hend : removed.2 = removed.1.endIt
    · -- nothing is left behind the range just removed
      simp only [hend, if_true]
      refine ⟨hrem.wellFormed, fun j => ?_⟩
      have hnil := hcur.eq_end_iff.1 hend
      have hlt : j ∈ removed.1 → j < r.2 := by
        intro hj
        rw [hcur.mem, hnil, List.append_nil] at hj
        exact hj.lt hk1
      have hge : Covers rs j → r.2 < j := fun hj => hj.ge hrl
      rw [hrem.mem] at hlt ⊢
      rw [covers_cons]
      grind
    · simp only [hend, if_false]
      obtain ⟨hwf, hmem⟩ := ih hrem.wellFormed hcur hrs fun t ht u hu => by
        have := hk1 t ht
        have := hrl u hu
        omega
      refine ⟨hwf, fun j => ?_⟩
      rw [hmem, hrem.mem, covers_cons]
      grind

theorem WellFormed.removeSet {values : IndexSet build} (hvalues : WellFormed values) :
    WellFormed (v.removeSet values)
      ∧ ∀ j, j ∈ v.removeSet values ↔ j ∈ v ∧ j ∉ values :=
  hv.removeRanges (cursor_begin hv.cached) hvalues.separated
    fun _ ht => nomatch ht

end

-- ===== whole sets

theorem wellFormed_setLen (v : IndexSet build) (len : ℕ) :
    WellFormed (v.setLen len) ∧ ∀ j, j ∈ v.setLen len ↔ j < len := by
  have hempty : WellFormed (clear : IndexSet build) :=
    wellFormed_empty
  by_cases hlen : len = 0
  · have hclear : v.setLen len = clear := if_neg (by simp [hlen])
    rw [hclear]
    refine ⟨hempty, fun j => ?_⟩
    have := @not_mem_empty build j
    exact iff_of_false this (by omega)
  · have hset : v.setLen len
        = (clear : IndexSet build).pushBack (0, len) :=
      if_pos hlen
    obtain ⟨hc, hranges⟩ := hempty.cached.pushBack (0, len)
    rw [hset]
    have hr : ((clear : IndexSet build).pushBack
        (0, len)).ranges = [(0, len)] := hranges
    refine ⟨⟨by rw [hr]; simp; omega, hc⟩, fun j => ?_⟩
    rw [mem_def, hr]
    simp

end BarqSync.ObjectStore
