/-
Sets of positions, and what inserting and erasing positions makes of
them.

Inserting the positions of `P` moves a position `x` to the one that is
not in `P` and has `x` positions before it that are not in `P` either
(`Displaced`), and erasing them moves it back (`unshift`). Sets of
positions move with their elements.

Positions that are inserted, or erased, one by one make the same of a set
as all of them at once, if one goes up through them, or down
(`insertAt_insert`, `eraseAt_insert`).
-/
import BarqSync.Index.Positions
import Mathlib.Data.Set.Card
import Mathlib.Order.Interval.Finset.Nat

namespace Displace

open Positions

variable {P Q A S V : Set ℕ} {i k x y : ℕ} {l : List ℕ}

-- ===== the operations

/-- How many positions of the set are before one. -/
noncomputable def below (P : Set ℕ) (x : ℕ) : ℕ := (P ∩ Set.Iio x).ncard

/-- Where a position goes when those of the set are erased. -/
noncomputable def unshift (P : Set ℕ) (x : ℕ) : ℕ := x - below P x

/-- A position goes to another when those of the set are inserted. -/
def Displaced (P : Set ℕ) (x k : ℕ) : Prop := k ∉ P ∧ unshift P k = x

/-- Where the positions of a set go when others are inserted. -/
def shiftForInsertAt (P A : Set ℕ) : Set ℕ :=
  { k | ∃ x ∈ A, Displaced P x k }

/-- The same, with the inserted positions. -/
def insertAt (P A : Set ℕ) : Set ℕ := P ∪ shiftForInsertAt P A

/-- Where the positions that are not erased go. -/
def eraseAt (P A : Set ℕ) : Set ℕ :=
  { k | ∃ x ∈ A, x ∉ P ∧ unshift P x = k }

/-- The position that is `x` among those not in the set. -/
def addShifted (A : Set ℕ) (x : ℕ) : Set ℕ :=
  A ∪ { k | Displaced A x k }

/-- Positions are taken back over one set and placed among those that
another leaves free. -/
def addShiftedBy (S V A : Set ℕ) : Set ℕ :=
  A ∪ { k | ∃ x ∈ V, x ∉ S ∧ Displaced A (unshift S x) k }

-- ===== counting

/-- On a decidable set this is the count. -/
theorem below_eq_count (P : Set ℕ) [DecidablePred (· ∈ P)] (x : ℕ) :
    below P x = Nat.count (· ∈ P) x := by
  rw [Nat.count_eq_card_filter_range, ← Set.ncard_coe_finset]
  unfold below
  congr 1
  ext y
  simp [and_comm]

open Classical in
theorem unshift_eq_rank (P : Set ℕ) (x : ℕ) :
    unshift P x = rank (fun y => decide (y ∈ P)) x := by
  have hrank := @rank_add_count (fun y => decide (y ∈ P)) x
  simp only [decide_eq_true_eq] at hrank
  unfold unshift
  rw [below_eq_count]
  omega

theorem unshift_mono (P : Set ℕ) : Monotone (unshift P) := by
  intro x y h
  rw [unshift_eq_rank, unshift_eq_rank]
  exact rank_mono _ h

/-- Positions that are kept stay in order. -/
theorem unshift_lt (hx : x ∉ P) (h : x < y) :
    unshift P x < unshift P y := by
  rw [unshift_eq_rank, unshift_eq_rank]
  exact rank_lt (by simpa using hx) h

theorem below_congr (h : ∀ y < x, y ∈ P ↔ y ∈ Q) :
    below P x = below Q x := by
  unfold below
  congr 1
  ext y
  simp only [Set.mem_inter_iff, Set.mem_Iio]
  exact and_congr_left fun hy => h y hy

/-- Only the positions before one decide where it goes. -/
theorem unshift_congr (h : ∀ y < x, y ∈ P ↔ y ∈ Q) :
    unshift P x = unshift Q x := by
  unfold unshift
  rw [below_congr h]

theorem below_succ_of_not_mem (hx : x ∉ P) :
    below P (x + 1) = below P x := by
  classical
  rw [below_eq_count, below_eq_count, Nat.count_succ, if_neg hx]
  rfl

/-- A position counts once it is before. -/
theorem below_insert (hi : i ∉ P) :
    below (insert i P) x = below P x + if i < x then 1 else 0 := by
  unfold below
  split
  · next hlt =>
    have hset : insert i P ∩ Set.Iio x = insert i (P ∩ Set.Iio x) := by
      rw [Set.insert_inter_of_mem (Set.mem_Iio.2 hlt)]
    rw [hset]
    exact Set.ncard_insert_of_notMem (fun h => hi h.1)
      ((Set.finite_Iio x).subset Set.inter_subset_right)
  · next hle =>
    rw [Set.insert_inter_of_notMem (by simpa using hle)]
    rfl

theorem below_empty (x : ℕ) : below ∅ x = 0 := by
  unfold below
  rw [Set.empty_inter, Set.ncard_empty]

/-- One erased position moves those behind it. -/
theorem unshift_singleton (i x : ℕ) :
    unshift {i} x = if i < x then x - 1 else x := by
  unfold unshift
  rw [← insert_empty_eq i, below_insert (Set.notMem_empty i), below_empty]
  split <;> omega

theorem below_eq_zero (h : ∀ p ∈ P, x ≤ p) : below P x = 0 := by
  rw [← below_empty x]
  refine below_congr fun y hy => ?_
  refine iff_of_false (fun hmem => ?_) (Set.notMem_empty y)
  exact Nat.not_lt.2 (h y hmem) hy

/-- An erased interval falls together into its first position. -/
theorem unshift_Ico (a n x : ℕ) : unshift (Set.Ico a (a + n)) x
    = if x < a then x else if x < a + n then a else x - n := by
  have hset : Set.Ico a (a + n) ∩ Set.Iio x
      = ((Finset.Ico a (min x (a + n)) : Finset ℕ) : Set ℕ) := by
    ext y
    simp
    omega
  unfold unshift below
  rw [hset, Set.ncard_coe_finset, Nat.card_Ico]
  split_ifs <;> omega

-- ===== insertions

/-- Membership after a shift is decided before it. -/
theorem mem_shiftForInsertAt :
    k ∈ shiftForInsertAt P A ↔ k ∉ P ∧ unshift P k ∈ A := by
  constructor
  · intro h
    obtain ⟨x, hx, hk, heq⟩ := h
    exact ⟨hk, heq ▸ hx⟩
  · intro h
    exact ⟨_, h.2, h.1, rfl⟩

theorem mem_insertAt : k ∈ insertAt P A ↔ k ∈ P ∨ unshift P k ∈ A := by
  unfold insertAt
  rw [Set.mem_union, mem_shiftForInsertAt]
  by_cases hk : k ∈ P
  · exact iff_of_true (.inl hk) (.inl hk)
  · exact or_congr_right (and_iff_right hk)

theorem unshift_insert_of_le (hi : i ∉ P) (hk : k ≤ i) :
    unshift (insert i P) k = unshift P k := by
  unfold unshift
  rw [below_insert hi, if_neg (by omega)]
  rfl

/-- A position that is inserted behind those of the set, and one that it
moves. -/
theorem unshift_insert (hP : ∀ p ∈ P, p < i) (k : ℕ) :
    (unshift {i} k ∈ P ↔ k ∈ P)
      ∧ unshift P (unshift {i} k) = unshift (insert i P) k := by
  have hi : i ∉ P := fun h => (hP i h).false
  rw [unshift_singleton]
  by_cases hlt : i < k
  · have hnot : k - 1 ∉ P := fun h => by
      have := hP _ h
      omega
    have hsucc := below_succ_of_not_mem hnot
    rw [show k - 1 + 1 = k by omega] at hsucc
    rw [if_pos hlt]
    refine ⟨iff_of_false hnot fun h => hlt.asymm (hP k h), ?_⟩
    unfold unshift
    rw [below_insert hi, if_pos hlt, hsucc]
    omega
  · rw [if_neg hlt, unshift_insert_of_le hi (by omega)]
    exact ⟨Iff.rfl, rfl⟩

/-- Shifts are composed upwards. -/
theorem shiftForInsertAt_insert (hP : ∀ p ∈ P, p < i) :
    shiftForInsertAt {i} (shiftForInsertAt P A)
      = shiftForInsertAt (insert i P) A := by
  ext k
  rw [mem_shiftForInsertAt, mem_shiftForInsertAt, mem_shiftForInsertAt]
  by_cases hk : k = i
  · simp [hk]
  · rw [(unshift_insert hP k).1, (unshift_insert hP k).2]
    simp [hk]

/-- Positions are inserted upwards. -/
theorem insertAt_insert (hP : ∀ p ∈ P, p < i) :
    insertAt {i} (insertAt P A) = insertAt (insert i P) A := by
  ext k
  rw [mem_insertAt, mem_insertAt, mem_insertAt]
  by_cases hk : k = i
  · simp [hk]
  · rw [(unshift_insert hP k).1, (unshift_insert hP k).2]
    simp [hk]

-- ===== erasures

/-- Positions are erased downwards. -/
theorem eraseAt_insert (hP : ∀ p ∈ P, i < p) :
    eraseAt {i} (eraseAt P A) = eraseAt (insert i P) A := by
  have hi : i ∉ P := fun h => (hP i h).false
  have hfirst : unshift P i = i := by
    unfold unshift
    rw [below_eq_zero fun p hp => (hP p hp).le]
    rfl
  have hmove : ∀ x, x ∉ P → (unshift P x ≠ i ↔ x ≠ i)
      ∧ (x ≠ i → unshift {i} (unshift P x) = unshift (insert i P) x) := by
    intro x hx
    rw [unshift_singleton]
    rcases lt_trichotomy x i with hlt | heq | hgt
    · have hsame : unshift P x = x := by
        unfold unshift
        rw [below_eq_zero fun p hp => (hlt.trans (hP p hp)).le]
        rfl
      rw [unshift_insert_of_le hi hlt.le, hsame, if_neg (by omega)]
      exact ⟨Iff.rfl, fun _ => rfl⟩
    · rw [heq, hfirst]
      exact ⟨Iff.rfl, fun h => absurd rfl h⟩
    · have hbehind := unshift_lt hi hgt
      rw [hfirst] at hbehind
      rw [if_pos hbehind]
      refine ⟨iff_of_true hbehind.ne' hgt.ne', fun _ => ?_⟩
      unfold unshift
      rw [below_insert hi, if_pos hgt]
      omega
  ext k
  constructor
  · intro h
    obtain ⟨y, ⟨x, hx, hxP, heq⟩, hne, hk⟩ := h
    subst heq
    have hxi := (hmove x hxP).1.1 hne
    refine ⟨x, hx, fun hmem => hmem.elim hxi hxP, ?_⟩
    rw [← (hmove x hxP).2 hxi]
    exact hk
  · intro h
    obtain ⟨x, hx, hxP, hk⟩ := h
    have hxi : x ≠ i := fun heq => hxP (.inl heq)
    have hxP' : x ∉ P := fun hmem => hxP (.inr hmem)
    refine ⟨_, ⟨x, hx, hxP', rfl⟩, (hmove x hxP').1.2 hxi, ?_⟩
    rw [(hmove x hxP').2 hxi]
    exact hk

/-- Positions before one that is erased stay. -/
theorem mem_eraseAt_singleton_of_lt (h : k < i) :
    k ∈ eraseAt {i} A ↔ k ∈ A := by
  constructor
  · intro hmem
    obtain ⟨x, hx, hne, heq⟩ := hmem
    rw [unshift_singleton] at heq
    have hxi : x ≠ i := hne
    split at heq
    · omega
    · exact heq ▸ hx
  · intro hmem
    refine ⟨k, hmem, h.ne, ?_⟩
    rw [unshift_singleton, if_neg (by omega)]

-- ===== shifted additions

/-- Positions are added downwards. -/
theorem addShifted_addShiftedBy (hV : ∀ v ∈ V, x < v) (hx : x ∉ S) :
    addShifted (addShiftedBy S V A) (unshift S x)
      = addShiftedBy S (insert x V) A := by
  -- what was added before is behind
  have hbehind : ∀ b k, b ∈ addShiftedBy S V A → b ∉ A
      → unshift A k ≤ unshift S x → k < b := by
    intro b k hb hbA hk
    rcases hb with hb | ⟨v, hv, -, -, heq⟩
    · exact absurd hb hbA
    · have hlt := unshift_lt hx (hV v hv)
      by_contra hle
      have := unshift_mono A (Nat.le_of_not_lt hle)
      omega
  have hsame : ∀ k, (∀ b < k, b ∈ addShiftedBy S V A → b ∈ A)
      → unshift (addShiftedBy S V A) k = unshift A k := by
    intro k h
    exact unshift_congr fun y hy => ⟨h y hy, .inl⟩
  ext k
  constructor
  · intro h
    rcases h with (h | ⟨v, hv, h⟩) | ⟨hk, heq⟩
    · exact .inl h
    · exact .inr ⟨v, .inr hv, h⟩
    · have hkA : k ∉ A := fun h => hk (.inl h)
      have hnone : ∀ b < k, b ∈ addShiftedBy S V A → b ∈ A := by
        -- the least one that was added before has at least as many
        -- free positions before it as `x`
        intro b
        induction b using Nat.strong_induction_on with
        | _ b ih =>
          intro hbk hb
          by_contra hbA
          have hleast := hsame b fun c hc => ih c hc (hc.trans hbk)
          have hmono := unshift_mono (addShiftedBy S V A) hbk.le
          have := hbehind b b hb hbA (by omega)
          omega
      refine .inr ⟨x, .inl rfl, hx, hkA, ?_⟩
      rw [← hsame k hnone]
      exact heq
  · intro h
    rcases h with h | ⟨y, hy | hy, hyS, hkA, heq⟩
    · exact .inl (.inl h)
    · subst hy
      by_cases hk : k ∈ addShiftedBy S V A
      · exact .inl hk
      · refine .inr ⟨hk, ?_⟩
        rw [hsame k]
        · exact heq
        · intro b hb hmem
          by_contra hbA
          exact hb.asymm (hbehind b k hmem hbA heq.le)
    · exact .inl (.inr ⟨y, hy, hyS, hkA, heq⟩)

/-- A position that was erased is not placed. -/
theorem addShiftedBy_insert_of_mem (hx : x ∈ S) :
    addShiftedBy S (insert x V) A = addShiftedBy S V A := by
  ext k
  refine or_congr_right ⟨fun h => ?_, fun h => ?_⟩
  · obtain ⟨y, hy | hy, hyS, h⟩ := h
    · exact absurd (hy ▸ hx) hyS
    · exact ⟨y, hy, hyS, h⟩
  · obtain ⟨y, hy, h⟩ := h
    exact ⟨y, .inr hy, h⟩

-- ===== one by one

/-- An operation that takes positions one after another, upwards. -/
theorem foldl_upwards {op : Set ℕ → Set ℕ → Set ℕ} (hnil : op ∅ A = A)
    (hinsert : ∀ P i, (∀ p ∈ P, p < i)
      → op {i} (op P A) = op (insert i P) A)
    (h : l.Pairwise (· < ·)) :
    l.foldl (fun A i => op {i} A) A = op { p | p ∈ l } A := by
  induction l using List.reverseRecOn with
  | nil => simpa using hnil.symm
  | append_singleton l i ih =>
    obtain ⟨hl, -, hi⟩ := List.pairwise_append.1 h
    have hset : { p | p ∈ l ++ [i] } = insert i { p | p ∈ l } := by
      ext p
      simp [or_comm]
    rw [List.foldl_concat, ih hl, hset]
    exact hinsert _ i fun p hp => hi p hp i (List.mem_singleton_self i)

theorem insertAt_empty (A : Set ℕ) : insertAt ∅ A = A := by
  ext k
  simp [mem_insertAt, unshift, below]

theorem shiftForInsertAt_empty (A : Set ℕ) : shiftForInsertAt ∅ A = A := by
  ext k
  simp [mem_shiftForInsertAt, unshift, below]

theorem setOf_mem_cons (i : ℕ) (l : List ℕ) :
    { p | p ∈ i :: l } = insert i { p | p ∈ l } := by
  ext p
  simp

/-- Erasures one after another, downwards. -/
theorem foldr_eraseAt (h : l.Pairwise (· < ·)) :
    l.foldr (fun i A => eraseAt {i} A) A = eraseAt { p | p ∈ l } A := by
  induction l with
  | nil =>
    ext k
    simp [eraseAt, unshift, below]
  | cons i l ih =>
    obtain ⟨hi, hl⟩ := List.pairwise_cons.1 h
    rw [List.foldr_cons, ih hl, setOf_mem_cons]
    exact eraseAt_insert (P := { p | p ∈ l }) hi

open Classical in
/-- A position is added, unless it is in a set that it is erased from. -/
noncomputable def addUnshifted (i : ℕ) (AS : Set ℕ × Set ℕ) :
    Set ℕ × Set ℕ :=
  (if i ∈ AS.2 then AS.1 else addShifted AS.1 (unshift AS.2 i),
    eraseAt {i} AS.2)

theorem addUnshifted_of_mem (A : Set ℕ) (h : i ∈ S) :
    (addUnshifted i (A, S)).1 = A := if_pos h

theorem addUnshifted_of_not_mem (A : Set ℕ) (h : i ∉ S) :
    (addUnshifted i (A, S)).1 = addShifted A (unshift S i) := if_neg h

/-- Placements one after another, downwards: the positions below those that
were taken are as they were. -/
theorem foldr_addUnshifted (h : l.Pairwise (· < ·)) :
    (l.foldr addUnshifted (A, S)).1 = addShiftedBy S { p | p ∈ l } A
      ∧ ∀ k, (∀ p ∈ l, k < p)
        → (k ∈ (l.foldr addUnshifted (A, S)).2 ↔ k ∈ S) := by
  induction l with
  | nil =>
    refine ⟨?_, fun _ _ => Iff.rfl⟩
    ext k
    simp [addShiftedBy]
  | cons i l ih =>
    obtain ⟨hi, hl⟩ := List.pairwise_cons.1 h
    obtain ⟨hfold, hbefore⟩ := ih hl
    have hmem := hbefore i hi
    have hun : unshift (l.foldr addUnshifted (A, S)).2 i = unshift S i :=
      unshift_congr fun y hy => hbefore y fun p hp => hy.trans (hi p hp)
    refine ⟨?_, fun k hk => ?_⟩
    · rw [List.foldr_cons, setOf_mem_cons]
      by_cases hS : i ∈ S
      · refine (addUnshifted_of_mem _ (hmem.2 hS)).trans ?_
        rw [hfold, addShiftedBy_insert_of_mem hS]
      · refine (addUnshifted_of_not_mem _ (mt hmem.1 hS)).trans ?_
        rw [hfold, hun]
        exact addShifted_addShiftedBy (V := { p | p ∈ l }) hi hS
    · have hki := hk i List.mem_cons_self
      rw [List.foldr_cons]
      refine (mem_eraseAt_singleton_of_lt hki).trans ?_
      exact hbefore k fun p hp => hki.trans (hi p hp)

end Displace
