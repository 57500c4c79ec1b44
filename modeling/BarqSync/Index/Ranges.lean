/-
Sets of natural numbers as increasing lists of half-open ranges.

A range `(a, b)` stands for the indexes from `a` up to but not including
`b`. A list of ranges is `Separated` when its ranges are not empty, come
in increasing order and have a gap between any two neighbours, so that
every finite set has exactly one such list.

# Contents

`Covers l i` is membership, `indexes l` lists the members and `total l`
counts them. The edits are those of a cursor between two parts of a list:
renumbering the part behind it (`moveUp`, `moveDown`) and putting one
index between the parts (`Joins`). `push` appends a range and joins it
to the last one where they touch.
-/
import Mathlib.Data.List.Basic
import Mathlib.Data.Nat.Count
import Mathlib.Tactic.Common

namespace Ranges

variable {l l1 l2 m : List (ℕ × ℕ)} {r p : ℕ × ℕ} {i j c : ℕ}

-- ===== definitions

/-- Non-empty ranges in increasing order, no two of which touch. -/
structure Separated (l : List (ℕ × ℕ)) : Prop where
  nonempty : ∀ r ∈ l, r.1 < r.2
  apart : l.Pairwise fun r t => r.2 < t.1

/-- Ranges in order, of which one may begin where another ends. -/
structure Ordered (l : List (ℕ × ℕ)) : Prop where
  nonempty : ∀ r ∈ l, r.1 < r.2
  apart : l.Pairwise fun r t => r.2 ≤ t.1

/-- Some range holds the index. -/
def Covers (l : List (ℕ × ℕ)) (i : ℕ) : Prop :=
  ∃ r ∈ l, r.1 ≤ i ∧ i < r.2

instance : DecidablePred (Covers l) := fun _ => List.decidableBEx _ _

/-- How many indexes the ranges hold. -/
def total : List (ℕ × ℕ) → ℕ
  | [] => 0
  | r :: l => r.2 - r.1 + total l

/-- The indexes, range by range. -/
def indexes (l : List (ℕ × ℕ)) : List ℕ :=
  l.flatMap fun r => List.range' r.1 (r.2 - r.1)

/-- Every range `c` places further up. -/
def moveUp (c : ℕ) (l : List (ℕ × ℕ)) : List (ℕ × ℕ) :=
  l.map fun r => (r.1 + c, r.2 + c)

/-- Every range one place further down. -/
def moveDown (l : List (ℕ × ℕ)) : List (ℕ × ℕ) :=
  l.map fun r => (r.1 - 1, r.2 - 1)

/-- A range at the end of the list, joined to the last one if they
touch. -/
def push (l : List (ℕ × ℕ)) (r : ℕ × ℕ) : List (ℕ × ℕ) :=
  l.getLast?.elim [r] fun p =>
    if p.2 = r.1 then l.dropLast ++ [(p.1, r.2)] else l ++ [r]

/-- `Joins l1 l2 i m r m'`: with `i` put between `l1` and `l2`, the range
that holds it is `r`, with `m` before it and `m'` behind it. -/
inductive Joins (l1 l2 : List (ℕ × ℕ)) (i : ℕ) :
    List (ℕ × ℕ) → ℕ × ℕ → List (ℕ × ℕ) → Prop
  | present {r : ℕ × ℕ} {m' : List (ℕ × ℕ)} (hl : l2 = r :: m') (hr : r.1 ≤ i) :
      Joins l1 l2 i l1 r m'
  | bridge {p r : ℕ × ℕ} {m m' : List (ℕ × ℕ)} (hl1 : l1 = m ++ [p])
      (hl2 : l2 = r :: m') (hp : p.2 = i) (hr : r.1 = i + 1) :
      Joins l1 l2 i m (p.1, r.2) m'
  | after {p : ℕ × ℕ} {m : List (ℕ × ℕ)} (hl1 : l1 = m ++ [p])
      (hp : p.2 = i) (hl2 : ∀ r ∈ l2, i + 1 < r.1) :
      Joins l1 l2 i m (p.1, i + 1) l2
  | before {r : ℕ × ℕ} {m' : List (ℕ × ℕ)} (hl2 : l2 = r :: m')
      (hr : r.1 = i + 1) (hl1 : ∀ p ∈ l1, p.2 < i) :
      Joins l1 l2 i l1 (i, r.2) m'
  | alone (hl1 : ∀ p ∈ l1, p.2 < i)
      (hl2 : ∀ r ∈ l2, i + 1 < r.1) :
      Joins l1 l2 i l1 (i, i + 1) l2

-- ===== membership

@[simp] theorem not_covers_nil : ¬ Covers [] i := by
  simp [Covers]

@[simp] theorem covers_cons :
    Covers (r :: l) i ↔ (r.1 ≤ i ∧ i < r.2) ∨ Covers l i := by
  simp [Covers]

@[simp] theorem covers_append :
    Covers (l1 ++ l2) i ↔ Covers l1 i ∨ Covers l2 i := by
  simp [Covers, or_and_right, exists_or]

theorem Covers.lt (h : Covers l i) (hl : ∀ r ∈ l, r.2 ≤ j) : i < j := by
  obtain ⟨r, hr, -, hi⟩ := h
  exact hi.trans_le (hl r hr)

theorem Covers.ge (h : Covers l i) (hl : ∀ r ∈ l, j ≤ r.1) : j ≤ i := by
  obtain ⟨r, hr, hi, -⟩ := h
  exact (hl r hr).trans hi

theorem mem_indexes : i ∈ indexes l ↔ Covers l i := by
  unfold indexes Covers
  rw [List.mem_flatMap]
  refine exists_congr fun r => and_congr_right fun _ => ?_
  rw [List.mem_range'_1]
  omega

@[simp] theorem covers_moveUp :
    Covers (moveUp c l) i ↔ c ≤ i ∧ Covers l (i - c) := by
  unfold Covers moveUp
  simp only [List.mem_map, exists_exists_and_eq_and]
  constructor
  · intro ⟨r, hr, h1, h2⟩
    exact ⟨by omega, r, hr, by omega, by omega⟩
  · intro ⟨hc, r, hr, h1, h2⟩
    exact ⟨r, hr, by omega, by omega⟩

theorem covers_moveDown (hl : ∀ r ∈ l, 1 ≤ r.1) :
    Covers (moveDown l) i ↔ Covers l (i + 1) := by
  unfold Covers moveDown
  simp only [List.mem_map, exists_exists_and_eq_and]
  refine exists_congr fun r => and_congr_right fun hr => ?_
  have := hl r hr
  omega

-- ===== separation

@[simp] theorem separated_nil : Separated [] :=
  ⟨by simp, .nil⟩

@[simp] theorem separated_cons : Separated (r :: l)
    ↔ r.1 < r.2 ∧ (∀ t ∈ l, r.2 < t.1) ∧ Separated l := by
  constructor
  · intro ⟨hne, hap⟩
    rw [List.pairwise_cons] at hap
    exact ⟨hne r (by simp), hap.1, fun t ht => hne t (by simp [ht]), hap.2⟩
  · intro ⟨hr, hl, hs⟩
    refine ⟨?_, List.pairwise_cons.2 ⟨hl, hs.apart⟩⟩
    exact List.forall_mem_cons.2 ⟨hr, hs.nonempty⟩

theorem separated_append : Separated (l1 ++ l2)
    ↔ Separated l1 ∧ Separated l2 ∧ ∀ r ∈ l1, ∀ t ∈ l2, r.2 < t.1 := by
  induction l1 with
  | nil => simp
  | cons a l1 ih =>
    rw [List.cons_append, separated_cons, separated_cons, ih]
    simp only [List.mem_append, List.mem_cons, forall_eq_or_imp]
    constructor
    · intro ⟨ha, hat, h1, h2, h⟩
      exact ⟨⟨ha, fun t ht => hat t (.inl ht), h1⟩, h2,
        fun t ht => hat t (.inr ht), h⟩
    · intro ⟨⟨ha, hat, h1⟩, h2, hat', h⟩
      exact ⟨ha, fun t ht => ht.elim (hat t) (hat' t), h1, h2, h⟩

/-- Around a range, only its distance to the others matters. -/
theorem separated_around : Separated (l1 ++ r :: l2)
    ↔ Separated l1 ∧ r.1 < r.2 ∧ Separated l2 ∧ (∀ t ∈ l1, t.2 < r.1)
      ∧ ∀ t ∈ l2, r.2 < t.1 := by
  rw [separated_append, separated_cons]
  constructor
  · intro ⟨h1, ⟨hr, hrl, h2⟩, h⟩
    exact ⟨h1, hr, h2, fun t ht => h t ht r (by simp), hrl⟩
  · intro ⟨h1, hr, h2, hlr, hrl⟩
    refine ⟨h1, ⟨hr, hrl, h2⟩, fun t ht u hu => ?_⟩
    have := hlr t ht
    rcases List.mem_cons.1 hu with rfl | hu
    · exact this
    · have := hrl u hu
      omega

theorem Separated.ordered (h : Separated l) : Ordered l :=
  ⟨h.nonempty, h.apart.imp Nat.le_of_lt⟩

theorem ordered_append : Ordered (l1 ++ l2)
    ↔ Ordered l1 ∧ Ordered l2 ∧ ∀ r ∈ l1, ∀ t ∈ l2, r.2 ≤ t.1 := by
  constructor
  · intro h
    obtain ⟨h1, h2, hle⟩ := List.pairwise_append.1 h.apart
    exact ⟨⟨fun r hr => h.nonempty r (List.mem_append_left _ hr), h1⟩,
      ⟨fun r hr => h.nonempty r (List.mem_append_right _ hr), h2⟩, hle⟩
  · intro h
    obtain ⟨h1, h2, hle⟩ := h
    refine ⟨fun r hr => ?_,
      List.pairwise_append.2 ⟨h1.apart, h2.apart, hle⟩⟩
    rcases List.mem_append.1 hr with hr | hr
    · exact h1.nonempty r hr
    · exact h2.nonempty r hr

theorem Separated.moveUp (h : Separated l) : Separated (moveUp c l) := by
  refine ⟨?_, List.pairwise_map.2 (h.apart.imp ?_)⟩
  · intro r hr
    obtain ⟨t, ht, rfl⟩ := List.mem_map.1 hr
    have := h.nonempty t ht
    show t.1 + c < t.2 + c
    omega
  · intro r t hrt
    show r.2 + c < t.1 + c
    omega

theorem Separated.moveDown (h : Separated l) (hl : ∀ r ∈ l, 1 ≤ r.1) :
    Separated (moveDown l) := by
  refine ⟨?_, List.pairwise_map.2 (h.apart.imp_of_mem ?_)⟩
  · intro r hr
    obtain ⟨t, ht, rfl⟩ := List.mem_map.1 hr
    have := h.nonempty t ht
    have := hl t ht
    show t.1 - 1 < t.2 - 1
    omega
  · intro r t hr ht hrt
    have := h.nonempty r hr
    have := hl r hr
    show r.2 - 1 < t.1 - 1
    omega

theorem mem_moveUp (hl : ∀ r ∈ l, j ≤ r.1) :
    ∀ r ∈ moveUp c l, j + c ≤ r.1 := by
  intro r hr
  obtain ⟨t, ht, rfl⟩ := List.mem_map.1 hr
  exact Nat.add_le_add_right (hl t ht) c

theorem mem_moveDown (hl : ∀ r ∈ l, j + 1 ≤ r.1) :
    ∀ r ∈ moveDown l, j ≤ r.1 := by
  intro r hr
  obtain ⟨t, ht, rfl⟩ := List.mem_map.1 hr
  exact Nat.le_sub_of_add_le (hl t ht)

/-- The indexes are listed in increasing order. -/
theorem Separated.indexes (h : Separated l) :
    (indexes l).Pairwise (· < ·) := by
  induction l with
  | nil => exact .nil
  | cons r l ih =>
    rw [separated_cons] at h
    show (List.range' r.1 (r.2 - r.1) ++ Ranges.indexes l).Pairwise _
    rw [List.pairwise_append]
    refine ⟨List.pairwise_lt_range', ih h.2.2, ?_⟩
    intro i hi j hj
    rw [List.mem_range'_1] at hi
    obtain ⟨t, ht, hle, -⟩ := mem_indexes.1 hj
    have := h.2.1 t ht
    omega

/-- What lies behind a bound at the first range lies behind it at all. -/
theorem Separated.forall_behind (h : Separated (r :: l)) (hr : i < r.1) :
    ∀ t ∈ r :: l, i < t.1 := by
  rw [separated_cons] at h
  intro t ht
  rcases List.mem_cons.1 ht with rfl | ht
  · exact hr
  · exact hr.trans (h.1.trans (h.2.1 t ht))

/-- What lies before a bound at the last range lies before it at all. -/
theorem Separated.forall_before (h : Separated (l ++ [p]))
    (hp : p.2 < i) : ∀ t ∈ l ++ [p], t.2 < i := by
  obtain ⟨-, hp', hl⟩ := separated_append.1 h
  have := hp'.nonempty p (by simp)
  intro t ht
  rcases List.mem_append.1 ht with ht | ht
  · have := hl t ht p (by simp)
    omega
  · rw [List.mem_singleton.1 ht]
    exact hp

-- ===== counting

theorem total_append (l1 l2 : List (ℕ × ℕ)) :
    total (l1 ++ l2) = total l1 + total l2 := by
  induction l1 with
  | nil => simp [total]
  | cons r l ih =>
    simp only [List.cons_append, total, ih]
    omega

theorem length_indexes (l : List (ℕ × ℕ)) :
    (indexes l).length = total l := by
  induction l with
  | nil => rfl
  | cons r l ih =>
    show (List.range' r.1 (r.2 - r.1) ++ Ranges.indexes l).length = _
    rw [List.length_append, List.length_range', ih, total]

/-- The members below a bound on the list are all of them. -/
theorem Separated.count_eq_total (h : Separated l)
    (hl : ∀ r ∈ l, r.2 ≤ i) : Nat.count (Covers l) i = total l := by
  have hset : (Finset.range i).filter (Covers l)
      = (Ranges.indexes l).toFinset := by
    ext j
    simp only [Finset.mem_filter, Finset.mem_range, List.mem_toFinset,
      mem_indexes, and_iff_right_iff_imp]
    exact fun hj => hj.lt hl
  rw [Nat.count_eq_card_filter_range, hset,
    List.toFinset_card_of_nodup (h.indexes.imp ne_of_lt),
    length_indexes]

/-- Counting looks at the indexes below the bound only. -/
theorem count_congr {P Q : ℕ → Prop} [DecidablePred P] [DecidablePred Q]
    (h : ∀ j < i, P j ↔ Q j) : Nat.count P i = Nat.count Q i := by
  rw [Nat.count_eq_card_filter_range, Nat.count_eq_card_filter_range]
  congr 1
  exact Finset.filter_congr fun j hj => h j (Finset.mem_range.1 hj)

theorem Separated.count_cut (h : Separated (l1 ++ l2))
    (hl1 : ∀ r ∈ l1, r.2 ≤ i) (hl2 : ∀ r ∈ l2, i ≤ r.1) :
    Nat.count (Covers (l1 ++ l2)) i = total l1 := by
  rw [← (separated_append.1 h).1.count_eq_total hl1]
  refine count_congr fun j hj => ?_
  rw [covers_append]
  refine or_iff_left fun hc => ?_
  have := hc.ge hl2
  omega

/-- At an index up to the end of the range behind a cut. -/
theorem Separated.count_inside (h : Separated (l1 ++ r :: l2))
    (hl1 : ∀ r ∈ l1, r.2 ≤ i) (hr : i ≤ r.2) :
    Nat.count (Covers (l1 ++ r :: l2)) i = total l1 + (i - r.1) := by
  obtain ⟨hs1, hs2, hs⟩ := separated_append.1 h
  obtain ⟨-, hl2, -⟩ := separated_cons.1 hs2
  by_cases hin : r.1 < i
  · have hcut : Separated (l1 ++ [(r.1, i)]) := separated_around.2
      ⟨hs1, hin, separated_nil, fun t ht => hs t ht r (by simp), by simp⟩
    have hle : ∀ t ∈ l1 ++ [(r.1, i)], t.2 ≤ i :=
      List.forall_mem_append.2 ⟨hl1, List.forall_mem_singleton.2 le_rfl⟩
    have htotal : total (l1 ++ [(r.1, i)]) = total l1 + (i - r.1) := by
      simp [total_append, total]
    rw [← htotal, ← hcut.count_eq_total hle]
    refine count_congr fun j hj => ?_
    simp only [covers_append, covers_cons, not_covers_nil, or_false]
    have hno : ¬ Covers l2 j := by
      intro ⟨t, ht, hle, _⟩
      have := hl2 t ht
      omega
    simp only [hno, or_false]
    refine or_congr_right ?_
    omega
  · rw [h.count_cut hl1 ?_]
    · omega
    · intro t ht
      rcases List.mem_cons.1 ht with rfl | ht
      · omega
      · have := hl2 t ht
        omega

-- ===== an index put at a cursor

section Joins

variable {m m' : List (ℕ × ℕ)}

section

variable (h : Joins l1 l2 i m r m')

include h

section

variable (hl : Separated (l1 ++ l2)) (hl2 : ∀ t ∈ l2, i < t.2)

include hl hl2

/-- The range that is left holds the index. -/
theorem Joins.holds : r.1 ≤ i ∧ i < r.2 := by
  have hne := hl.nonempty
  cases h with
  | present h2 hr => exact ⟨hr, hl2 _ (by simp [h2])⟩
  | @bridge p r m m' h1 h2 hp hr =>
    have hp' := hne p (by simp [h1])
    have hr' := hl2 r (by simp [h2])
    exact ⟨by simp only; omega, hr'⟩
  | @after p m h1 hp h2 =>
    have hp' := hne p (by simp [h1])
    exact ⟨by simp only; omega, Nat.lt_succ_self i⟩
  | @before r m' h2 hr h1 => exact ⟨le_rfl, hl2 r (by simp [h2])⟩
  | alone h1 h2 => exact ⟨le_rfl, Nat.lt_succ_self i⟩

theorem Joins.separated : Separated (m ++ r :: m') := by
  have hold := h.holds hl hl2
  have hlt := hold.1.trans_lt hold.2
  obtain ⟨hs1, hs2, -⟩ := separated_append.1 hl
  cases h with
  | present h2 hr => exact h2 ▸ hl
  | @bridge p r m m' h1 h2 hp hr =>
    subst h1 h2
    obtain ⟨hm, -, -, hmp, -⟩ := separated_around.1 hs1
    obtain ⟨-, hrm', hm'⟩ := separated_cons.1 hs2
    exact separated_around.2 ⟨hm, hlt, hm', hmp, hrm'⟩
  | @after p m h1 hp h2 =>
    subst h1
    obtain ⟨hm, -, -, hmp, -⟩ := separated_around.1 hs1
    exact separated_around.2 ⟨hm, hlt, hs2, hmp, h2⟩
  | @before r m' h2 hr h1 =>
    subst h2
    obtain ⟨-, hrm', hm'⟩ := separated_cons.1 hs2
    exact separated_around.2 ⟨hs1, hlt, hm', h1, hrm'⟩
  | alone h1 h2 => exact separated_around.2 ⟨hs1, hlt, hs2, h1, h2⟩

/-- One index is new. -/
theorem Joins.covers :
    Covers (m ++ r :: m') j ↔ Covers (l1 ++ l2) j ∨ j = i := by
  have hne := hl.nonempty
  have hold := h.holds hl hl2
  cases h with
  | @present r m' h2 hr =>
    subst h2
    simp only [covers_append, covers_cons]
    constructor
    · exact Or.inl
    · intro h
      rcases h with h | rfl
      · exact h
      · exact .inr (.inl hold)
  | @bridge p r m m' h1 h2 hp hr =>
    subst h1 h2
    have hp' := hne p (by simp)
    have hr' := hne r (by simp)
    simp only [covers_append, covers_cons, not_covers_nil, or_false]
    grind
  | @after p m h1 hp h2 =>
    subst h1
    have hp' := hne p (by simp)
    simp only [covers_append, covers_cons, not_covers_nil, or_false]
    grind
  | @before r m' h2 hr h1 =>
    subst h2
    have hr' := hne r (by simp)
    simp only [covers_append, covers_cons]
    grind
  | alone h1 h2 =>
    simp only [covers_append, covers_cons]
    grind

end

/-- Where nothing follows closely, the index is the last of its range
and nothing behind it changes. -/
theorem Joins.tight
    (hl2 : ∀ t ∈ l2, i + 1 < t.1) : r.2 = i + 1 ∧ m' = l2 := by
  cases h with
  | @present r m' h2 hr =>
    have := hl2 r (by simp [h2])
    omega
  | @bridge p r m m' h1 h2 hp hr =>
    have := hl2 r (by simp [h2])
    omega
  | after h1 hp h2 => exact ⟨rfl, rfl⟩
  | @before r m' h2 hr h1 =>
    have := hl2 r (by simp [h2])
    omega
  | alone h1 h2 => exact ⟨rfl, rfl⟩

end

end Joins

-- ===== appending

@[simp] theorem push_nil : push [] r = [r] := rfl

theorem push_concat : push (l ++ [p]) r
    = if p.2 = r.1 then l ++ [(p.1, r.2)] else l ++ [p, r] := by
  unfold push
  simp

theorem length_push_le : (push l r).length ≤ l.length + 1 := by
  rcases List.eq_nil_or_concat' l with rfl | ⟨k, p, rfl⟩
  · simp
  · rw [push_concat]
    split <;> simp

/-- The last range ends at `top`. -/
def EndsAt (l : List (ℕ × ℕ)) (top : ℕ) : Prop :=
  ∃ k c, l = k ++ [(c, top)]

theorem EndsAt.le {top bound : ℕ} (h : EndsAt l top)
    (hl : ∀ t ∈ l, t.2 ≤ bound) : top ≤ bound := by
  obtain ⟨k, c, rfl⟩ := h
  exact hl (c, top) (by simp)

theorem EndsAt.length_push (h : EndsAt l r.1) :
    (push l r).length = l.length := by
  obtain ⟨k, c, rfl⟩ := h
  rw [push_concat, if_pos rfl]
  simp

theorem endsAt_push : EndsAt (push l r) r.2 := by
  rcases List.eq_nil_or_concat' l with rfl | ⟨k, p, rfl⟩
  · exact ⟨[], r.1, rfl⟩
  · rw [push_concat]
    split
    · exact ⟨k, p.1, rfl⟩
    · exact ⟨k ++ [p], r.1, by simp⟩

/-- A range behind the list can be appended. -/
theorem Separated.push (h : Separated l) (hl : ∀ t ∈ l, t.2 ≤ r.1)
    (hr : r.1 < r.2) :
    Separated (push l r) ∧ (∀ t ∈ Ranges.push l r, t.2 ≤ r.2)
      ∧ ∀ j, Covers (Ranges.push l r) j
        ↔ Covers l j ∨ r.1 ≤ j ∧ j < r.2 := by
  rcases List.eq_nil_or_concat' l with rfl | ⟨k, p, rfl⟩
  · simp [hr]
  · obtain ⟨hk, hp, hkp⟩ := separated_append.1 h
    have hpne := hp.nonempty p (by simp)
    have hpr := hl p (by simp)
    have hle : ∀ t ∈ k, t.2 ≤ r.2 := fun t ht => by
      have := hl t (by simp [ht])
      omega
    rw [push_concat]
    split
    · rename_i heq
      refine ⟨separated_around.2 ⟨hk, by simp only; omega, separated_nil,
        fun t ht => hkp t ht p (by simp), by simp⟩, ?_, ?_⟩
      · exact List.forall_mem_append.2 ⟨hle,
          List.forall_mem_singleton.2 le_rfl⟩
      · intro j
        simp only [covers_append, covers_cons, not_covers_nil, or_false]
        grind
    · rename_i hne
      have happ : k ++ [p, r] = k ++ [p] ++ [r] := by simp
      rw [happ]
      have hlt : p.2 < r.1 := by omega
      refine ⟨separated_around.2 ⟨h, hr, separated_nil,
        h.forall_before hlt, by simp⟩, ?_, ?_⟩
      · intro t ht
        rcases List.mem_append.1 ht with ht | ht
        · have := hl t ht
          omega
        · rw [List.mem_singleton.1 ht]
      · intro j
        simp only [covers_append, covers_cons, not_covers_nil, or_false]

theorem push_push {a b : ℕ} :
    push (push l (a, b)) (b, c) = push l (a, c) := by
  rcases List.eq_nil_or_concat' l with rfl | ⟨k, p, rfl⟩
  · exact (@push_concat [] (b, c) (a, b)).trans (if_pos rfl)
  · rw [push_concat, push_concat]
    split
    · rw [push_concat, if_pos rfl]
    · have happ : k ++ [p, (a, b)] = (k ++ [p]) ++ [(a, b)] := by simp
      rw [happ, push_concat, if_pos rfl]
      simp

/-- A range appended index by index. -/
theorem foldl_push_range' {a n : ℕ} (hn : 0 < n) :
    (List.range' a n).foldl (fun l i => push l (i, i + 1)) l
      = push l (a, a + n) := by
  induction n with
  | zero => omega
  | succ n ih =>
    rcases Nat.eq_zero_or_pos n with rfl | hpos
    · simp
    · rw [List.range'_concat, List.foldl_append, ih hpos]
      simp only [List.foldl_cons, List.foldl_nil, Nat.one_mul]
      exact push_push

-- ===== an index taken at a cursor

/-- `Closes l1 r l2 i m`: with `i` taken out between `l1` and the end of
`r`, and everything behind it moved down, the list is `m`. -/
inductive Closes (l1 : List (ℕ × ℕ)) (r : ℕ × ℕ) (l2 : List (ℕ × ℕ))
    (i : ℕ) : List (ℕ × ℕ) → Prop
  | whole (hi : r.1 ≤ i) (hr : r.1 + 1 = r.2) :
      Closes l1 r l2 i (l1 ++ moveDown l2)
  | part (hi : r.1 ≤ i) (hr : r.1 + 1 < r.2) :
      Closes l1 r l2 i (l1 ++ (r.1, r.2 - 1) :: moveDown l2)
  | gap {m : List (ℕ × ℕ)} {p : ℕ × ℕ} (hl1 : l1 = m ++ [p])
      (hi : i < r.1) (hp : p.2 + 1 = r.1) :
      Closes l1 r l2 i (m ++ (p.1, r.2 - 1) :: moveDown l2)
  | apart (hi : i < r.1) (hl1 : ∀ p ∈ l1, p.2 + 1 < r.1) :
      Closes l1 r l2 i (l1 ++ moveDown (r :: l2))

section Closes

section

variable (h : Closes l1 r l2 i m) (hl : Separated (l1 ++ r :: l2))

include h hl

theorem Closes.separated : Separated m := by
  obtain ⟨hs1, hs2, hs⟩ := separated_append.1 hl
  obtain ⟨hr, hrl, hs3⟩ := separated_cons.1 hs2
  have hpos : ∀ t ∈ l2, 1 ≤ t.1 := fun t ht => by
    have := hrl t ht
    omega
  have hdown := hs3.moveDown hpos
  have hmoved : ∀ t ∈ Ranges.moveDown l2, r.2 ≤ t.1 :=
    mem_moveDown fun t ht => hrl t ht
  have hshort : ∀ t ∈ Ranges.moveDown l2, r.2 - 1 < t.1 := fun t ht => by
    have := hmoved t ht
    omega
  cases h with
  | whole hi hr =>
    refine separated_append.2 ⟨hs1, hdown, ?_⟩
    intro t ht u hu
    have := hs t ht r (by simp)
    have := hmoved u hu
    omega
  | part hi hr =>
    exact separated_around.2 ⟨hs1, by simp only; omega, hdown,
      fun t ht => hs t ht r (by simp), hshort⟩
  | @gap m p hl1 hi hp =>
    subst hl1
    obtain ⟨hm, hpne, -, hmp, -⟩ := separated_around.1 hs1
    exact separated_around.2 ⟨hm, by simp only; omega, hdown, hmp, hshort⟩
  | apart hi hl1 =>
    have hpos' : ∀ t ∈ r :: l2, 1 ≤ t.1 := by
      intro t ht
      have := hs2.forall_behind hi t ht
      omega
    refine separated_append.2 ⟨hs1, hs2.moveDown hpos', ?_⟩
    intro t ht u hu
    obtain ⟨w, hw, rfl⟩ := List.mem_map.1 hu
    have htr := hl1 t ht
    show t.2 < w.1 - 1
    rcases List.mem_cons.1 hw with rfl | hw
    · omega
    · have := hrl w hw
      omega

theorem Closes.covers (hl1 : ∀ t ∈ l1, t.2 ≤ i)
    (hr : i < r.2) : Covers m j ↔ if j < i then
        Covers (l1 ++ r :: l2) j
      else Covers (l1 ++ r :: l2) (j + 1) := by
  obtain ⟨hs1, hs2, hs⟩ := separated_append.1 hl
  obtain ⟨hrne, hrl, hs3⟩ := separated_cons.1 hs2
  have hpos : ∀ t ∈ l2, 1 ≤ t.1 := fun t ht => by
    have := hrl t ht
    omega
  have h1 : ∀ k, Covers l1 k → k < i := fun k hk => hk.lt hl1
  have h2 : ∀ k, Covers l2 k → r.2 < k := fun k hk => hk.ge hrl
  have h₁j := h1 j
  have h₁j' := h1 (j + 1)
  have h₂j := h2 j
  have h₂j' := h2 (j + 1)
  cases h with
  | whole | part =>
    simp only [covers_append, covers_cons, covers_moveDown hpos]
    grind
  | @gap m p hl1' hi hp =>
    have hpi := hl1 p (by simp [hl1'])
    have hpne := hs1.nonempty p (by simp [hl1'])
    subst hl1'
    simp only [covers_append, covers_cons, covers_moveDown hpos,
      not_covers_nil, or_false] at h₁j h₁j' ⊢
    grind
  | apart hi hl1' =>
    have hpos' : ∀ t ∈ r :: l2, 1 ≤ t.1 := by
      intro t ht
      have := hs2.forall_behind hi t ht
      omega
    simp only [covers_append, covers_cons, covers_moveDown hpos']
    grind

end

end Closes

end Ranges
