/-
Index arithmetic of list edits: how an insertion, a removal or a move at
one position renumbers the positions of another edit, and the list
equalities that make the renumbering right.

# Contents

A removal and an insertion each renumber the elements they leave in
place (`afterErase`, `afterInsert`). Two edits are renumbered against
each other by `removalVsRemoval`, `insertionVsRemoval` and
`insertionVsInsertion`, and each of the three closes its square:
`eraseIdx_eraseIdx`, `insertIdx_eraseIdx` and `insertIdx_insertIdx`. A
move (`moveIdx`) is a removal and an insertion, so its squares are
assembled from these: two by one against a single edit, two by two
against another move.
-/
import Mathlib.Data.List.Basic
import Mathlib.Data.List.InsertIdx
import Mathlib.Tactic.Common

namespace Ot

variable {α : Type*} {l : List α} {i j k h : ℕ} {v w : α}

-- ===== renumbering

/-- Where the element at `j` is after the removal of another one at
`i`. -/
def afterErase (i j : ℕ) : ℕ := if i < j then j - 1 else j

/-- Where the element at `j` is after an insertion at `k`. -/
def afterInsert (k j : ℕ) : ℕ := if j < k then j else j + 1

/-- Two removals of different elements, each after the other. -/
def removalVsRemoval (i j : ℕ) : ℕ × ℕ := (afterErase j i, afterErase i j)

/-- An insertion at `k` and a removal at `j`, each after the other. -/
def insertionVsRemoval (k j : ℕ) : ℕ × ℕ :=
  (if j < k then k - 1 else k, afterInsert k j)

/-- Insertions at `k` and `h`, each after the other; at the same
position `leftFirst` says which one ends up first. -/
def insertionVsInsertion (leftFirst : Bool) (k h : ℕ) : ℕ × ℕ :=
  if k < h then (k, h + 1)
  else if h < k then (k + 1, h)
  else if leftFirst then (k, h + 1)
  else (k + 1, h)

/-- Where the element at `j` is after a move from `i` to `k`. -/
def afterMove (i k j : ℕ) : ℕ :=
  if j = i then k else afterInsert k (afterErase i j)

-- ===== elements

theorem getElem?_eraseIdx_after (hij : i ≠ j) :
    (l.eraseIdx i)[afterErase i j]? = l[j]? := by
  unfold afterErase
  rw [List.getElem?_eraseIdx]
  split
  · rw [if_neg (by omega), Nat.sub_add_cancel (by omega)]
  · rw [if_pos (by omega)]

theorem getElem?_insertIdx_after :
    (l.insertIdx k v)[afterInsert k j]? = l[j]? := by
  unfold afterInsert
  split
  · rw [List.getElem?_insertIdx_of_lt (by omega)]
  · rw [List.getElem?_insertIdx_of_gt (by omega), Nat.add_sub_cancel]

theorem getElem?_insertIdx_self (hk : k ≤ l.length) :
    (l.insertIdx k v)[k]? = some v := by
  rw [List.getElem?_insertIdx]
  simp [hk]

theorem set_eraseIdx_after (hij : i ≠ j) :
    (l.eraseIdx i).set (afterErase i j) w = (l.set j w).eraseIdx i := by
  unfold afterErase
  rw [List.set_eraseIdx]
  split
  · rw [if_pos (by omega), Nat.sub_add_cancel (by omega)]
  · rw [if_neg (by omega)]

theorem set_insertIdx_after :
    (l.insertIdx k v).set (afterInsert k j) w = (l.set j w).insertIdx k v := by
  induction l generalizing k j with
  | nil => cases k <;> simp [afterInsert]
  | cons x l ih =>
    cases k with
    | zero => simp [afterInsert]
    | succ k =>
      cases j with
      | zero => simp [afterInsert]
      | succ j =>
        have : afterInsert (k + 1) (j + 1) = afterInsert k j + 1 := by
          unfold afterInsert
          split <;> split <;> omega
        rw [this]
        simp [ih]

-- ===== squares

theorem eraseIdx_eraseIdx (hij : i ≠ j) :
    (l.eraseIdx i).eraseIdx (removalVsRemoval i j).2
      = (l.eraseIdx j).eraseIdx (removalVsRemoval i j).1 := by
  apply List.ext_getElem?
  intro q
  simp only [removalVsRemoval, afterErase, List.getElem?_eraseIdx]
  rcases Nat.lt_or_gt_of_ne hij with hlt | hlt
  · rw [if_pos hlt, if_neg (Nat.lt_asymm hlt)]
    split_ifs <;> first | rfl | omega
  · rw [if_neg (Nat.lt_asymm hlt), if_pos hlt]
    split_ifs <;> first | rfl | omega

theorem insertIdx_eraseIdx (hj : j < l.length) :
    (l.insertIdx k v).eraseIdx (insertionVsRemoval k j).2
      = (l.eraseIdx j).insertIdx (insertionVsRemoval k j).1 v := by
  simp only [insertionVsRemoval, afterInsert]
  by_cases h : j < k
  · rw [if_pos h, if_pos h, List.insertIdx_eraseIdx_of_ge hj (by omega),
      Nat.sub_add_cancel (by omega)]
  · rw [if_neg h, if_neg h, List.insertIdx_eraseIdx_of_le hj (by omega)]

theorem insertIdx_insertIdx (leftFirst : Bool) (hk : k ≤ l.length)
    (hh : h ≤ l.length) :
    (l.insertIdx k v).insertIdx (insertionVsInsertion leftFirst k h).2 w
      = (l.insertIdx h w).insertIdx
          (insertionVsInsertion leftFirst k h).1 v := by
  unfold insertionVsInsertion
  split
  · exact List.insertIdx_comm v w (by omega) hh
  · split
    · exact (List.insertIdx_comm w v (by omega) hk).symm
    · obtain rfl : k = h := by omega
      split
      · exact List.insertIdx_comm v w (Nat.le_refl k) hk
      · exact (List.insertIdx_comm w v (Nat.le_refl k) hk).symm

-- ===== moves

/-- Take the element at `i` out and put it back in at `k`. -/
def moveIdx (l : List α) (i k : ℕ) : List α :=
  match l[i]? with
  | some v => (l.eraseIdx i).insertIdx k v
  | none => l

theorem moveIdx_of_getElem? (hv : l[i]? = some v) :
    moveIdx l i k = (l.eraseIdx i).insertIdx k v := by
  simp [moveIdx, hv]

theorem length_eraseIdx_of_getElem? (hv : l[i]? = some v) :
    (l.eraseIdx i).length = l.length - 1 ∧ i < l.length := by
  obtain ⟨hi, -⟩ := List.getElem?_eq_some_iff.1 hv
  exact ⟨List.length_eraseIdx_of_lt hi, hi⟩

theorem length_moveIdx (hk : k < l.length) :
    (moveIdx l i k).length = l.length := by
  cases hv : l[i]? with
  | none => simp [moveIdx, hv]
  | some v =>
    obtain ⟨hlen, hi⟩ := length_eraseIdx_of_getElem? hv
    rw [moveIdx_of_getElem? hv, List.length_insertIdx, hlen,
      if_pos (by omega)]
    omega

theorem moveIdx_self : moveIdx l i i = l := by
  cases hv : l[i]? with
  | none => simp [moveIdx, hv]
  | some v =>
    obtain ⟨hi, rfl⟩ := List.getElem?_eq_some_iff.1 hv
    rw [moveIdx_of_getElem? hv, List.insertIdx_eraseIdx_getElem hi]

theorem getElem?_moveIdx_after (hi : i < l.length) (hk : k < l.length) :
    (moveIdx l i k)[afterMove i k j]? = l[j]? := by
  have hv : l[i]? = some l[i] := List.getElem?_eq_getElem hi
  obtain ⟨hlen, -⟩ := length_eraseIdx_of_getElem? hv
  rw [moveIdx_of_getElem? hv]
  unfold afterMove
  split
  · next h => rw [getElem?_insertIdx_self (by omega), h, hv]
  · next h =>
      rw [getElem?_insertIdx_after, getElem?_eraseIdx_after (Ne.symm h)]

theorem set_moveIdx_after (hi : i < l.length) (hk : k < l.length) :
    (moveIdx l i k).set (afterMove i k j) w = moveIdx (l.set j w) i k := by
  have hv : l[i]? = some l[i] := List.getElem?_eq_getElem hi
  obtain ⟨hlen, -⟩ := length_eraseIdx_of_getElem? hv
  rw [moveIdx_of_getElem? hv]
  unfold afterMove
  by_cases h : j = i
  · subst h
    have hw : (l.set j w)[j]? = some w := by simp [hi]
    rw [if_pos rfl, moveIdx_of_getElem? hw, List.eraseIdx_set_eq]
    rw [← List.insertIdx_eraseIdx_self (by
      rw [List.length_insertIdx_of_le_length (by omega)]; omega)]
    congr 1
    apply List.ext_getElem?
    intro q
    rw [List.getElem?_eraseIdx]
    split
    · rw [List.getElem?_insertIdx_of_lt (by omega)]
    · rw [List.getElem?_insertIdx_of_gt (by omega), Nat.add_sub_cancel]
  · have hw : (l.set j w)[i]? = some l[i] := by
      rw [List.getElem?_set_ne h, hv]
    rw [if_neg h, moveIdx_of_getElem? hw, set_insertIdx_after,
      set_eraseIdx_after (Ne.symm h)]

theorem insertIdx_moveIdx (leftFirst : Bool) (hi : i < l.length)
    (hk : k < l.length) (hj : j ≤ l.length) :
    let e := insertionVsRemoval j i
    let s := insertionVsInsertion leftFirst k e.1
    (moveIdx l i k).insertIdx s.2 v = moveIdx (l.insertIdx j v) e.2 s.1 := by
  intro e s
  have ha : l[i]? = some l[i] := List.getElem?_eq_getElem hi
  obtain ⟨hlen, -⟩ := length_eraseIdx_of_getElem? ha
  have ha' : (l.insertIdx j v)[e.2]? = some l[i] :=
    getElem?_insertIdx_after.trans ha
  have he : e.1 ≤ (l.eraseIdx i).length := by
    rw [hlen]
    simp only [e, insertionVsRemoval]
    split <;> omega
  rw [moveIdx_of_getElem? ha, moveIdx_of_getElem? ha',
    insertIdx_eraseIdx hi]
  exact insertIdx_insertIdx leftFirst (by omega) he

/-- Removing an element after it was moved is removing it. -/
theorem eraseIdx_moveIdx_self (hj : j < l.length) :
    (moveIdx l j h).eraseIdx h = l.eraseIdx j := by
  rw [moveIdx_of_getElem? (List.getElem?_eq_getElem hj)]
  apply List.ext_getElem?
  intro q
  rw [List.getElem?_eraseIdx]
  split
  · rw [List.getElem?_insertIdx_of_lt (by omega)]
  · rw [List.getElem?_insertIdx_of_gt (by omega), Nat.add_sub_cancel]

/-- A removal at `i` and a move of another element from `j` to `h`. -/
theorem eraseIdx_moveIdx (hij : i ≠ j) (hi : i < l.length)
    (hj : j < l.length) :
    let e := removalVsRemoval i j
    let s := insertionVsRemoval h e.1
    (moveIdx l j h).eraseIdx s.2 = moveIdx (l.eraseIdx i) e.2 s.1 := by
  intro e s
  have hw : l[j]? = some l[j] := List.getElem?_eq_getElem hj
  obtain ⟨hlen, -⟩ := length_eraseIdx_of_getElem? hw
  have hw' : (l.eraseIdx i)[e.2]? = some l[j] :=
    (getElem?_eraseIdx_after hij).trans hw
  have he : e.1 < (l.eraseIdx j).length := by
    rw [hlen]
    simp only [e, removalVsRemoval, afterErase]
    split <;> omega
  rw [moveIdx_of_getElem? hw, moveIdx_of_getElem? hw',
    insertIdx_eraseIdx he, eraseIdx_eraseIdx hij]

/-- Moving an element twice is moving it once. -/
theorem moveIdx_moveIdx_same (hi : i < l.length) (hk : k < l.length) :
    moveIdx (moveIdx l i k) k h = moveIdx l i h := by
  have ha : l[i]? = some l[i] := List.getElem?_eq_getElem hi
  have ha' : (moveIdx l i k)[k]? = some l[i] := by
    have := getElem?_moveIdx_after (j := i) hi hk
    rwa [afterMove, if_pos rfl, ha] at this
  rw [moveIdx_of_getElem? ha', eraseIdx_moveIdx_self hi,
    moveIdx_of_getElem? ha]

/-- Two moves of different elements, from `i` to `k` and from `j` to
`h`: removals first, then each insertion against the other side's
removal, then the insertions. -/
theorem moveIdx_moveIdx (leftFirst : Bool) (hij : i ≠ j)
    (hi : i < l.length) (hk : k < l.length) (hj : j < l.length)
    (hh : h < l.length) :
    let e := removalVsRemoval i j
    let a := insertionVsRemoval k e.2
    let b := insertionVsRemoval h e.1
    let s := insertionVsInsertion leftFirst a.1 b.1
    moveIdx (moveIdx l i k) a.2 s.2 = moveIdx (moveIdx l j h) b.2 s.1 := by
  intro e a b s
  have hv : l[i]? = some l[i] := List.getElem?_eq_getElem hi
  have hw : l[j]? = some l[j] := List.getElem?_eq_getElem hj
  obtain ⟨hleni, -⟩ := length_eraseIdx_of_getElem? hv
  obtain ⟨hlenj, -⟩ := length_eraseIdx_of_getElem? hw
  have he1 : e.1 < (l.eraseIdx j).length := by
    rw [hlenj]
    simp only [e, removalVsRemoval, afterErase]
    split <;> omega
  have he2 : e.2 < (l.eraseIdx i).length := by
    rw [hleni]
    simp only [e, removalVsRemoval, afterErase]
    split <;> omega
  have hlen : ((l.eraseIdx j).eraseIdx e.1).length = l.length - 2 := by
    rw [List.length_eraseIdx_of_lt he1, hlenj]
    omega
  have hw' : (moveIdx l i k)[a.2]? = some l[j] := by
    rw [moveIdx_of_getElem? hv]
    refine getElem?_insertIdx_after.trans ?_
    exact (getElem?_eraseIdx_after hij).trans hw
  have hv' : (moveIdx l j h)[b.2]? = some l[i] := by
    rw [moveIdx_of_getElem? hw]
    refine getElem?_insertIdx_after.trans ?_
    exact (getElem?_eraseIdx_after (Ne.symm hij)).trans hv
  have ha : a.1 ≤ l.length - 2 := by
    simp only [a, insertionVsRemoval]
    split <;> omega
  have hb : b.1 ≤ l.length - 2 := by
    simp only [b, insertionVsRemoval]
    split <;> omega
  rw [moveIdx_of_getElem? hw', moveIdx_of_getElem? hv',
    moveIdx_of_getElem? hv, moveIdx_of_getElem? hw,
    insertIdx_eraseIdx he2, insertIdx_eraseIdx he1,
    eraseIdx_eraseIdx hij]
  exact insertIdx_insertIdx leftFirst (hlen ▸ ha) (hlen ▸ hb)

end Ot
