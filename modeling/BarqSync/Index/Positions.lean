/-
Lists with some positions left out, and how the positions that stay are
renumbered.

`dropAt P l` is the list without the elements at the positions of `P`,
and `rank P i` is where the element at a position `i` that stays goes.
One fact carries most proofs over change sets: the element at `i` is the
element at `rank P i` of what is left (`getElem?_dropAt`).
-/
import Mathlib.Data.List.Basic
import Mathlib.Data.List.InsertIdx
import Mathlib.Data.Nat.Count
import Mathlib.Tactic.Common

namespace Positions

variable {α : Type*} {P Q : ℕ → Bool} {l l1 l2 rows : List α}
  {i j k n : ℕ} {a : α}

-- ===== definitions

/-- The list without the elements at the positions of `P`, the first
position being `k`. -/
def dropFrom (P : ℕ → Bool) : ℕ → List α → List α
  | _, [] => []
  | k, a :: l => if P k then dropFrom P (k + 1) l
    else a :: dropFrom P (k + 1) l

/-- The list without the elements at the positions of `P`. -/
def dropAt (P : ℕ → Bool) (l : List α) : List α := dropFrom P 0 l

/-- How many positions before `i` stay. -/
def rank (P : ℕ → Bool) (i : ℕ) : ℕ :=
  Nat.count (fun j => P j = false) i

-- ===== ranks

theorem rank_succ : rank P (i + 1) = rank P i + if P i then 0 else 1 := by
  unfold rank
  rw [Nat.count_succ]
  cases P i <;> simp

theorem rank_mono (P : ℕ → Bool) : Monotone (rank P) :=
  Nat.count_monotone _

theorem rank_lt (hi : P i = false) (h : i < j) : rank P i < rank P j :=
  Nat.count_strict_mono hi h

theorem rank_add_count : rank P i + Nat.count (fun j => P j = true) i
    = i := by
  induction i with
  | zero => rfl
  | succ i ih =>
    rw [rank_succ, Nat.count_succ]
    cases h : P i <;> simp <;> omega

-- ===== dropping

theorem dropFrom_append : dropFrom P k (l1 ++ l2)
    = dropFrom P k l1 ++ dropFrom P (k + l1.length) l2 := by
  induction l1 generalizing k with
  | nil => rfl
  | cons a l ih =>
    rw [List.cons_append, dropFrom, dropFrom, ih, List.length_cons]
    have hk : k + 1 + l.length = k + (l.length + 1) := by omega
    rw [hk]
    cases P k <;> simp

/-- Only the positions of the list matter. -/
theorem dropFrom_congr (h : ∀ j < l.length, P (i + j) = Q (k + j)) :
    dropFrom P i l = dropFrom Q k l := by
  induction l generalizing i k with
  | nil => rfl
  | cons a l ih =>
    have hrec : dropFrom P (i + 1) l = dropFrom Q (k + 1) l := by
      refine ih fun j hj => ?_
      have := h (j + 1) (by simpa using hj)
      rwa [Nat.add_right_comm i, Nat.add_right_comm k]
    rw [dropFrom, dropFrom, hrec]
    have := h 0 (by simp)
    simp only [Nat.add_zero] at this
    rw [this]

theorem dropAt_congr (h : ∀ j < l.length, P j = Q j) :
    dropAt P l = dropAt Q l :=
  dropFrom_congr fun j hj => by simpa using h j hj

theorem dropFrom_eq_nil (h : ∀ j < l.length, P (k + j) = true) :
    dropFrom P k l = [] := by
  induction l generalizing k with
  | nil => rfl
  | cons a l ih =>
    have h0 := h 0 (by simp)
    rw [dropFrom, if_pos (by simpa using h0)]
    refine ih fun j hj => ?_
    have := h (j + 1) (by simpa using hj)
    rwa [Nat.add_right_comm]

theorem dropFrom_eq_self (h : ∀ j < l.length, P (k + j) = false) :
    dropFrom P k l = l := by
  induction l generalizing k with
  | nil => rfl
  | cons a l ih =>
    have h0 := h 0 (by simp)
    rw [dropFrom, if_neg (by simpa using h0)]
    refine congrArg (a :: ·) (ih fun j hj => ?_)
    have := h (j + 1) (by simpa using hj)
    rwa [Nat.add_right_comm]

theorem dropAt_append : dropAt P (l1 ++ l2)
    = dropAt P l1 ++ dropFrom P l1.length l2 := by
  unfold dropAt
  rw [dropFrom_append, Nat.zero_add]

theorem dropAt_concat : dropAt P (l ++ [a])
    = dropAt P l ++ if P l.length then [] else [a] := by
  rw [dropAt_append]
  rfl

theorem length_dropAt : (dropAt P l).length = rank P l.length := by
  induction l using List.reverseRecOn with
  | nil => rfl
  | append_singleton l a ih =>
    rw [dropAt_concat, List.length_append, ih, List.length_append,
      List.length_singleton, rank_succ]
    cases P l.length <;> rfl

theorem dropAt_split (hl : l1.length = i) :
    dropAt P (l1 ++ a :: l2) = dropAt P l1
      ++ if P i then dropFrom P (i + 1) l2
        else a :: dropFrom P (i + 1) l2 := by
  rw [dropAt_append, hl]
  rfl

/-- An element that stays is found at its rank. -/
theorem getElem?_dropAt (hi : i < l.length) (hP : P i = false) :
    (dropAt P l)[rank P i]? = l[i]? := by
  obtain ⟨l1, b, l2, rfl, rfl⟩ : ∃ l1 b l2, l = l1 ++ b :: l2
      ∧ l1.length = i :=
    ⟨l.take i, l[i], l.drop (i + 1), by simp, by simp; omega⟩
  rw [dropAt_split rfl, hP, ← length_dropAt]
  simp

-- ===== edits

/-- The positions after `n` new ones at `i`, all of them left out. -/
theorem dropAt_insert (hi : l1.length = i) (hn : rows.length = n)
    (h : ∀ j, Q j = if j < i then P j else decide (j < i + n) || P (j - n)) :
    dropAt Q (l1 ++ (rows ++ l2)) = dropAt P (l1 ++ l2) := by
  rw [dropAt_append, dropFrom_append, dropAt_append]
  have h1 : dropAt Q l1 = dropAt P l1 :=
    dropAt_congr fun j hj => by rw [h, if_pos (hi ▸ hj)]
  have h2 : dropFrom Q l1.length rows = [] := by
    refine dropFrom_eq_nil fun j hj => ?_
    rw [h, if_neg (by omega), decide_eq_true (by omega)]
    rfl
  have h3 : dropFrom Q (l1.length + rows.length) l2
      = dropFrom P l1.length l2 := by
    refine dropFrom_congr fun j hj => ?_
    rw [h, if_neg (by omega), decide_eq_false (by omega), Bool.false_or]
    congr 1
    omega
  rw [h1, h2, h3, List.nil_append]

/-- What stays after the element at `i` is taken out. -/
theorem dropAt_erase (hi : l1.length = i)
    (h : ∀ j, Q j = if j < i then P j else P (j + 1)) :
    dropAt Q (l1 ++ l2) = if P i then dropAt P (l1 ++ a :: l2)
      else (dropAt P (l1 ++ a :: l2)).eraseIdx (rank P i) := by
  have h1 : dropAt Q l1 = dropAt P l1 :=
    dropAt_congr fun j hj => by rw [h, if_pos (hi ▸ hj)]
  have h2 : dropFrom Q l1.length l2 = dropFrom P (i + 1) l2 := by
    refine dropFrom_congr fun j hj => ?_
    rw [h, if_neg (by omega)]
    congr 1
    omega
  rw [dropAt_append, h1, h2, dropAt_split hi]
  cases P i with
  | true => simp
  | false =>
    simp only [Bool.false_eq_true, if_false]
    rw [← hi, ← length_dropAt, List.eraseIdx_append_of_length_le le_rfl]
    simp

/-- One more position is left out. -/
theorem dropAt_add (hi : i < l.length) (hP : P i = false)
    (h : ∀ j, Q j = (P j || decide (j = i))) :
    dropAt Q l = (dropAt P l).eraseIdx (rank P i) := by
  obtain ⟨l1, b, l2, rfl, rfl⟩ : ∃ l1 b l2, l = l1 ++ b :: l2
      ∧ l1.length = i :=
    ⟨l.take i, l[i], l.drop (i + 1), by simp, by simp; omega⟩
  have h1 : dropAt Q l1 = dropAt P l1 := by
    refine dropAt_congr fun j hj => ?_
    rw [h, decide_eq_false (by omega), Bool.or_false]
  have h2 : dropFrom Q (l1.length + 1) l2
      = dropFrom P (l1.length + 1) l2 := by
    refine dropFrom_congr fun j hj => ?_
    rw [h, decide_eq_false (by omega), Bool.or_false]
  have hQ : Q l1.length = true := by rw [h]; simp
  rw [dropAt_split rfl, dropAt_split rfl, hP, hQ, h1, h2,
    ← length_dropAt, List.eraseIdx_append_of_length_le le_rfl]
  simp

-- ===== survivors

/-- Every rank is the rank of a position that stays. -/
theorem exists_rank (h : k < rank P n) :
    ∃ i < n, P i = false ∧ rank P i = k := by
  induction n with
  | zero => exact absurd h (Nat.not_lt_zero k)
  | succ n ih =>
    rw [rank_succ] at h
    by_cases hk : k < rank P n
    · obtain ⟨i, hi, hP, hrank⟩ := ih hk
      exact ⟨i, by omega, hP, hrank⟩
    · cases hn : P n with
      | true => simp [hn] at h; omega
      | false =>
        simp only [hn, Bool.false_eq_true, if_false] at h
        exact ⟨n, by omega, hn, by omega⟩

end Positions
