/-
The queries of index sets.

# Counting

`count` has a loop of its own for a start inside of a chunk, and goes on
by the counts of whole chunks. Two of its paths are wrong. If the end is
before the start, and both are in one range, the difference wraps round.
If the start is inside of a chunk, and the end is in the first range of
the next chunk, the part of this range is not added, since the first test
wants a range that is not the first one and the second one returns.
`Counted` says that neither is so, by the range that `find` gives.

# Shifting

A sequence with rows inserted at the positions of a set is one that has
the old rows when the positions are dropped (`dropAt`).
-/
import BarqSync.ObjectStore.Proofs.ChangeBuilder
import Mathlib.Algebra.BigOperators.Intervals

namespace BarqSync.ObjectStore

open Ranges ChunkedRangeVector Positions IndexSet

variable {build : Build} {v : IndexSet build} {start stop : ℕ} {r : ℕ × ℕ}
  {c : Chunk} {cs1 cs2 : List Chunk} {d e l1 l2 : List (ℕ × ℕ)}

-- ===== the answers

/-- The number of members from `start` up to `stop`. -/
def number (v : IndexSet build) (start stop : ℕ) : ℕ :=
  ((Finset.Ico start stop).filter (· ∈ v)).card

theorem number_add_count (h : start ≤ stop) :
    number v start stop + Nat.count (· ∈ v) start
      = Nat.count (· ∈ v) stop := by
  induction stop, h using Nat.le_induction with
  | base => simp [number]
  | succ stop hle ih =>
    have hsucc : number v start (stop + 1)
        = number v start stop + if stop ∈ v then 1 else 0 := by
      unfold number
      rw [Finset.card_filter, Finset.card_filter,
        Finset.sum_Ico_succ_top hle]
    rw [hsucc, Nat.count_succ, ← ih]
    omega

theorem number_eq (v : IndexSet build) (start stop : ℕ) :
    number v start stop
      = Nat.count (· ∈ v) stop - Nat.count (· ∈ v) start := by
  rcases Nat.le_total start stop with hle | hle
  · have := number_add_count (v := v) hle
    omega
  · have hmono := Nat.count_monotone (· ∈ v) hle
    have hempty : number v start stop = 0 := by
      unfold number
      rw [Finset.Ico_eq_empty_of_le hle]
      rfl
    omega

-- ===== the loop

/-- The place in a chunk behind some of its ranges, or the next chunk. -/
def placeBehind (cs : List Chunk) (d e : List (ℕ × ℕ)) : Iter :=
  if e = [] then ⟨cs.length + 1, 0⟩ else ⟨cs.length, d.length⟩

section

variable (hcs : v.chunks = cs1 ++ c :: cs2)

include hcs

theorem next_behind (hc : c.data = d ++ r :: e) :
    v.next ⟨cs1.length, d.length⟩ = placeBehind cs1 (d ++ [r]) e := by
  have hchunk : v.chunk ⟨cs1.length, d.length⟩ = c := by
    unfold chunk
    rw [hcs]
    exact getD_at
  unfold ChunkedRangeVector.next placeBehind nextChunk
  rw [hchunk, hc]
  cases e with
  | nil => simp
  | cons s e => simp

theorem get_behind
    (hc : c.data = d ++ r :: e) : v.get ⟨cs1.length, d.length⟩ = r := by
  unfold ChunkedRangeVector.get chunk
  rw [hcs, getD_at, hc]
  exact getD_at

/-- The loop over the rest of a chunk stops at a range that does not end
before `stop`, or at the next chunk. -/
theorem countRanges_spec (hc : c.data = d ++ e) (hd : d ≠ []) {fuel : ℕ}
    (hfuel : e.length ≤ fuel) (stop ret : ℕ) :
    ∃ e1 e2, e = e1 ++ e2 ∧ (∀ t ∈ e1, t.2 < stop)
      ∧ (∀ t ∈ e2.head?, stop ≤ t.2)
      ∧ v.countRanges stop fuel (placeBehind cs1 d e) ret
        = (placeBehind cs1 (d ++ e1) e2, ret + total e1) := by
  induction e generalizing d fuel ret with
  | nil =>
    refine ⟨[], [], rfl, by simp, by simp, ?_⟩
    have hinner : (placeBehind cs1 d []).inner = 0 := rfl
    cases fuel with
    | zero => rfl
    | succ fuel =>
      rw [countRanges, if_neg (by simp [hinner])]
      rfl
  | cons r e ih =>
    have hit : placeBehind cs1 d (r :: e) = ⟨cs1.length, d.length⟩ :=
      if_neg (List.cons_ne_nil r e)
    have hget := get_behind hcs hc
    have hend : (⟨cs1.length, d.length⟩ : Iter) ≠ v.endIt := by
      unfold endIt
      rw [hcs]
      simp
    have hinner : d.length ≠ 0 := by simpa using hd
    cases fuel with
    | zero => simp at hfuel
    | succ fuel =>
      rw [hit, countRanges, hget]
      by_cases hlt : r.2 < stop
      · rw [if_pos ⟨hend, hlt, hinner⟩, next_behind hcs hc]
        obtain ⟨e1, e2, he, hbefore, hhead, hloop⟩ :=
          ih (d := d ++ [r]) (by simp [hc]) (by simp)
            (by simpa using hfuel) (ret + (r.2 - r.1))
        refine ⟨r :: e1, e2, by rw [he]; rfl, ?_, hhead, ?_⟩
        · exact List.forall_mem_cons.2 ⟨hlt, hbefore⟩
        · rw [hloop, total, List.append_assoc, Nat.add_assoc]
          rfl
      · rw [if_neg (by simp [hlt])]
        refine ⟨[], r :: e, rfl, by simp, ?_, ?_⟩
        · intro t ht
          cases ht
          exact Nat.le_of_not_lt hlt
        · rw [List.append_nil, hit]
          rfl

end

-- ===== counting

/-- Neither of the two wrong paths is taken. -/
def Counted (v : IndexSet build) (start stop : ℕ) : Prop :=
  let it := v.find start
  let r := v.get it
  let next := v.get (nextChunk it)
  it = v.endIt
    ∨ ¬ (r.1 < stop ∧ stop < start)
      ∧ ¬ (r.2 < stop ∧ (r.1 < start ∨ it.inner ≠ 0)
        ∧ nextChunk it ≠ v.endIt ∧ next.1 < stop ∧ stop ≤ next.2)

instance (v : IndexSet build) (start stop : ℕ) :
    Decidable (Counted v start stop) :=
  inferInstanceAs (Decidable (_ ∨ _ ∧ _))

theorem Found.count_start {it : Iter} (h : Found v it start l1 (r :: l2)) :
    Nat.count (· ∈ v) start = total l1 + (start - r.1) := by
  have hcount : Nat.count (· ∈ v) start
      = Nat.count (Covers (l1 ++ r :: l2)) start :=
    count_congr fun j _ => h.cursor.mem
  rw [hcount]
  exact h.separated.count_inside h.before
    (h.behind r List.mem_cons_self).le

/-- The members up to a range that `stop` is in, or before. -/
theorem WellFormed.count_inside (hv : WellFormed v)
    (hr : v.ranges = l1 ++ r :: l2) (hl1 : ∀ t ∈ l1, t.2 ≤ stop)
    (hstop : stop ≤ r.2) :
    Nat.count (· ∈ v) stop = total l1 + (stop - r.1) := by
  have hs : Separated (l1 ++ r :: l2) := hr ▸ hv.separated
  have hcount : Nat.count (· ∈ v) stop
      = Nat.count (Covers (l1 ++ r :: l2)) stop :=
    count_congr fun j _ => by rw [mem_def, hr]
  rw [hcount]
  exact hs.count_inside hl1 hstop

/-- What `count` does behind the ranges of the chunk that it began in. -/
def countBehind (v : IndexSet build) (stop : ℕ) (it : Iter) (ret : ℕ) : ℕ :=
  let r := v.get it
  let ret := if it ≠ v.endIt ∧ r.1 < stop ∧ it.inner ≠ 0 then
      ret + (stop - r.1)
    else ret
  if it = v.endIt ∨ stop ≤ r.2 then ret else v.countFrom stop it ret

/-- The end is in the same chunk. -/
theorem countBehind_inside {s : ℕ × ℕ} {ret : ℕ}
    (hcs : v.chunks = cs1 ++ c :: cs2) (hc : c.data = d ++ s :: e)
    (hd : d ≠ []) (hle : stop ≤ s.2) :
    countBehind v stop ⟨cs1.length, d.length⟩ ret
      = ret + (stop - s.1) := by
  have hend : (⟨cs1.length, d.length⟩ : Iter) ≠ v.endIt := by
    simp [endIt, hcs]
  rw [countBehind, get_behind hcs hc]
  dsimp only
  rw [if_pos (.inr hle)]
  split
  · rfl
  · next hno =>
    have hle' : stop ≤ s.1 := by
      by_contra hlt
      exact hno ⟨hend, by omega, by simpa using hd⟩
    omega

section

variable {k ret : ℕ} {s : ℕ × ℕ}

/-- There is no other chunk. -/
theorem Cursor.countBehind_end (h : Cursor v ⟨k, 0⟩ l1 []) :
    countBehind v stop ⟨k, 0⟩ ret = ret := by
  have hend := h.eq_end_iff.2 rfl
  simp [countBehind, hend]

/-- The next chunk is reached. If the end is in its first range, that one
is not counted. -/
theorem Cursor.countBehind_next (h : Cursor v ⟨k, 0⟩ l1 (s :: l2)) :
    countBehind v stop ⟨k, 0⟩ ret
      = if stop ≤ s.2 then ret else v.countFrom stop ⟨k, 0⟩ ret := by
  have hend : (⟨k, 0⟩ : Iter) ≠ v.endIt := by
    rw [Ne, h.eq_end_iff]
    exact List.cons_ne_nil s l2
  simp [countBehind, h.get, hend]

/-- A range before a place ends before the one at the place begins. -/
theorem Cursor.not_reached {it : Iter} (h : Cursor v it l1 l2)
    (hv : WellFormed v) (hs : s ∈ l1) (hle : stop ≤ s.2) :
    ¬ (it ≠ v.endIt ∧ (v.get it).1 < stop) := by
  intro ⟨hend, hlt⟩
  cases l2 with
  | nil => exact hend (h.eq_end_iff.2 rfl)
  | cons t l2 =>
    have hsep := hv.separated
    rw [h.ranges] at hsep
    have := (separated_append.1 hsep).2.2 s hs t List.mem_cons_self
    rw [h.get] at hlt
    omega

end

section

variable {d1 d2 : List (ℕ × ℕ)} (hcs : v.chunks = cs1 ++ c :: cs2)
  (hc : c.data = d1 ++ r :: d2)
  (h : Found v ⟨cs1.length, d1.length⟩ start (flat cs1 ++ d1)
    (r :: (d2 ++ flat cs2)))
  (hstop : r.2 < stop) (hinside : r.1 < start ∨ d1.length ≠ 0)
  (hfind : v.find start = ⟨cs1.length, d1.length⟩)

include hcs hc h hstop hinside hfind

/-- `count`, from a start inside of a chunk: the ranges of the chunk that
end before `stop` are counted first. -/
theorem Found.count_eq_countBehind :
    ∃ e1 e2, d2 = e1 ++ e2 ∧ (∀ t ∈ e1, t.2 < stop)
      ∧ (∀ t ∈ e2.head?, stop ≤ t.2)
      ∧ v.count start stop
        = countBehind v stop (placeBehind cs1 (d1 ++ [r] ++ e1) e2)
          (r.2 - max r.1 start + total e1) := by
  have hend : (⟨cs1.length, d1.length⟩ : Iter) ≠ v.endIt := by
    rw [Ne, h.cursor.eq_end_iff]
    exact List.cons_ne_nil _ _
  have hnonempty := h.separated.nonempty r (by simp)
  have hfuel : d2.length ≤ v.ranges.length := by
    rw [h.cursor.ranges]
    simp only [List.length_append, List.length_cons]
    omega
  obtain ⟨e1, e2, he, hbefore, hhead, hloop⟩ :=
    countRanges_spec hcs (d := d1 ++ [r]) (e := d2) (by simp [hc]) (by simp)
      hfuel stop (r.2 - max r.1 start)
  refine ⟨e1, e2, he, hbefore, hhead, ?_⟩
  unfold count countBehind
  rw [hfind]
  dsimp only
  rw [get_behind hcs hc, if_neg (by simp [hend]; omega),
    if_neg (by omega), if_pos hinside, next_behind hcs hc, hloop]

/-- From a start inside of a chunk, up to an end behind its range. -/
theorem Found.count_rest (hv : WellFormed v) :
    v.count start stop = number v start stop
      ↔ ¬ ((⟨cs1.length + 1, 0⟩ : Iter) ≠ v.endIt
        ∧ (v.get ⟨cs1.length + 1, 0⟩).1 < stop
        ∧ stop ≤ (v.get ⟨cs1.length + 1, 0⟩).2) := by
  obtain ⟨e1, e2, he, hbefore, hhead, hcount⟩ :=
    h.count_eq_countBehind hcs hc hstop hinside hfind
  have hlt := h.behind r List.mem_cons_self
  have hbefore' : ∀ t ∈ flat cs1 ++ d1 ++ r :: e1, t.2 ≤ stop := by
    refine List.forall_mem_append.2 ⟨fun t ht => ?_,
      List.forall_mem_cons.2 ⟨hstop.le, fun t ht => (hbefore t ht).le⟩⟩
    exact ((h.before t ht).trans hlt.le).trans hstop.le
  have htotal : total (flat cs1 ++ d1 ++ r :: e1)
      = total (flat cs1 ++ d1) + (r.2 - r.1) + total e1 := by
    rw [total_append, total, Nat.add_assoc]
  have hnext : Cursor v ⟨cs1.length + 1, 0⟩ (flat cs1 ++ c.data)
      (flat cs2) := by
    have hchunk := cursor_chunk hv.cached
      (show v.chunks = (cs1 ++ [c]) ++ cs2 by simp [hcs])
    simpa [flat] using hchunk
  rw [hcount, number_eq, h.count_start]
  cases e2 with
  | cons s e2 =>
    -- the end is in this chunk
    have hdata : c.data = (d1 ++ [r] ++ e1) ++ s :: e2 := by
      rw [hc, he]
      simp
    have hle : stop ≤ s.2 := hhead s rfl
    have hstop' := hv.count_inside
      (show v.ranges = (flat cs1 ++ d1 ++ r :: e1) ++ s :: (e2 ++ flat cs2)
        by rw [h.cursor.ranges, he]; simp) hbefore' hle
    rw [placeBehind, if_neg (List.cons_ne_nil s e2),
      countBehind_inside hcs hdata (by simp) hle, hstop', htotal]
    refine iff_of_true (by omega) fun hbad => ?_
    exact hnext.not_reached hv (by simp [hdata]) hle ⟨hbad.1, hbad.2.1⟩
  | nil =>
    -- the next chunk is reached
    rw [List.append_nil] at he
    subst he
    have hdata : flat cs1 ++ c.data = flat cs1 ++ d1 ++ r :: d2 := by
      rw [hc, List.append_assoc]
    rw [hdata] at hnext
    rw [placeBehind, if_pos rfl]
    cases hrest : flat cs2 with
    | nil =>
      rw [hrest] at hnext
      have hranges := hnext.ranges
      rw [List.append_nil] at hranges
      have hstop' : Nat.count (· ∈ v) stop
          = total (flat cs1 ++ d1 ++ r :: d2) := by
        have hs := hv.separated
        rw [hranges] at hs
        rw [← hs.count_eq_total hbefore']
        exact count_congr fun j _ => by rw [mem_def, hranges]
      rw [hnext.countBehind_end, hstop', htotal]
      exact iff_of_true (by omega)
        fun hbad => hbad.1 (hnext.eq_end_iff.2 rfl)
    | cons s l =>
      rw [hrest] at hnext
      rw [hnext.countBehind_next, hnext.get]
      by_cases hle : stop ≤ s.2
      · rw [if_pos hle, hv.count_inside hnext.ranges hbefore' hle, htotal]
        have hend : (⟨cs1.length + 1, 0⟩ : Iter) ≠ v.endIt := by
          rw [Ne, hnext.eq_end_iff]
          exact List.cons_ne_nil s l
        constructor
        · intro heq hbad
          omega
        · intro hgood
          have hle' : stop ≤ s.1 := by
            by_contra hlt'
            exact hgood ⟨hend, by omega, hle⟩
          omega
      · have hfrom := hv.countFrom_chunk
          (show v.chunks = (cs1 ++ [c]) ++ cs2 by simp [hcs]) stop
          (by simpa [flat, hc] using hbefore')
          (r.2 - max r.1 start + total d2)
        have hflat : flat (cs1 ++ [c]) = flat cs1 ++ d1 ++ r :: d2 := by
          rw [← hdata]
          simp [flat]
        rw [hflat, htotal, List.length_append,
          List.length_singleton] at hfrom
        rw [if_neg hle]
        exact iff_of_true (by omega) fun hbad => hle hbad.2.2

end

/-- `count` is right if and only if neither of its wrong paths is taken. -/
theorem WellFormed.count_iff (hv : WellFormed v) (hstart : start < 2 ^ 64) :
    v.count start stop = number v start stop ↔ Counted v start stop := by
  obtain ⟨l1, l2, h⟩ := hv.find start
  cases h.cursor.place with
  | last hit hl1 hl2 =>
    have hcount : v.count start stop = 0 := if_pos (.inl hit)
    have hnumber : number v start stop = 0 := by
      refine Finset.card_eq_zero.2 (Finset.filter_eq_empty_iff.2 ?_)
      intro x hx hmem
      rw [hl1] at h
      exact Nat.not_lt.2 (Finset.mem_Ico.1 hx).1 (hmem.lt h.before)
    exact iff_of_true (hcount.trans hnumber.symm) (.inl hit)
  | mid cs1 c cs2 d1 r d2 hcs hc hit hl1 hl2 =>
    rw [hit, hl1, hl2] at h
    have hget := get_behind hcs hc
    have hend : (⟨cs1.length, d1.length⟩ : Iter) ≠ v.endIt := by
      rw [Ne, h.cursor.eq_end_iff]
      exact List.cons_ne_nil _ _
    have hlt := h.behind r List.mem_cons_self
    have hcount := h.count_start
    unfold Counted
    dsimp only
    rw [hit, hget, or_iff_right hend, number_eq, hcount]
    by_cases hle1 : stop ≤ r.1
    · -- the end is before the range
      have hl1 : ∀ t ∈ flat cs1 ++ d1, t.2 ≤ r.1 := fun t ht =>
        ((separated_append.1 h.separated).2.2 t ht r List.mem_cons_self).le
      have hr := h.separated.nonempty r (by simp)
      have hcount' : v.count start stop = 0 := by
        unfold IndexSet.count
        rw [hit]
        dsimp only
        rw [hget, if_pos (.inr hle1)]
      have hfirst := hv.count_inside h.cursor.ranges hl1 hr.le
      have hmono := Nat.count_monotone (· ∈ v) hle1
      exact iff_of_true (by omega) ⟨by omega, by omega⟩
    have hl1 : ∀ t ∈ flat cs1 ++ d1, t.2 ≤ stop := fun t ht =>
      ((separated_append.1 h.separated).2.2 t ht r
        List.mem_cons_self).le.trans (Nat.le_of_not_le hle1)
    by_cases hle2 : stop ≤ r.2
    · -- it is in the range
      have hcount' : v.count start stop
          = sizeSub (min r.2 stop) (max r.1 start) := by
        unfold IndexSet.count
        rw [hit]
        dsimp only
        rw [hget, if_neg (by simp [hend, hle1]), if_pos hle2]
      have hstop := hv.count_inside h.cursor.ranges hl1 hle2
      rw [hcount', hstop]
      unfold sizeSub
      by_cases hlt' : stop < start
      · rw [if_neg (by omega)]
        refine iff_of_false (by omega) fun hgood => ?_
        exact hgood.1 ⟨by omega, hlt'⟩
      · rw [if_pos (by omega)]
        exact iff_of_true (by omega) ⟨by omega, by omega⟩
    by_cases hinside : r.1 < start ∨ d1.length ≠ 0
    · -- the rest of the chunk comes first
      rw [← hcount, ← number_eq,
        h.count_rest hcs hc (by omega) hinside hit hv]
      constructor
      · exact fun hgood => ⟨by omega, fun hbad => hgood hbad.2.2⟩
      · exact fun hgood hbad => hgood.2 ⟨by omega, hinside, hbad⟩
    · have hd1 : d1 = [] := by
        rw [← List.length_eq_zero_iff]
        omega
      subst hd1
      have hcount' : v.count start stop
          = v.countFrom stop ⟨cs1.length, 0⟩ 0 := by
        unfold IndexSet.count
        rw [hit]
        dsimp only
        rw [hget, if_neg fun h => h.elim hend hle1, if_neg hle2,
          if_neg hinside]
        rfl
      have hfrom := hv.countFrom_chunk hcs stop
        (fun t ht => hl1 t (List.mem_append_left [] ht)) 0
      rw [hcount', List.append_nil]
      exact iff_of_true (by omega) ⟨by omega, fun hbad => hinside hbad.2.1⟩

-- ===== shifting

/-- The ranges that `shift` passes. -/
theorem shiftRanges_spec {l : List (ℕ × ℕ)} (hl : Separated l)
    (index : ℕ) :
    ∃ l1 l2, l = l1 ++ l2
      ∧ IndexSet.shiftRanges l index = index + total l1
      ∧ (∀ r ∈ l1, r.2 ≤ index + total l1)
      ∧ ∀ r ∈ l2, index + total l1 < r.1 := by
  induction l generalizing index with
  | nil =>
    refine ⟨[], [], rfl, rfl, ?_, ?_⟩ <;> intro r hr <;> cases hr
  | cons r l ih =>
    obtain ⟨hr, hbehind, hl'⟩ := separated_cons.1 hl
    rw [shiftRanges]
    by_cases hlt : index < r.1
    · rw [if_pos hlt]
      refine ⟨[], r :: l, rfl, rfl, by simp, ?_⟩
      refine List.forall_mem_cons.2 ⟨hlt, fun t ht => ?_⟩
      have := hbehind t ht
      simp only [total, Nat.add_zero]
      omega
    · rw [if_neg hlt]
      obtain ⟨l1, l2, rfl, hshift, h1, h2⟩ := ih hl' (index + (r.2 - r.1))
      have htotal : index + (r.2 - r.1) + total l1
          = index + total (r :: l1) := by
        rw [total]
        omega
      rw [htotal] at hshift h1 h2
      refine ⟨r :: l1, l2, rfl, hshift, ?_, h2⟩
      refine List.forall_mem_cons.2 ⟨?_, h1⟩
      rw [total]
      omega

theorem WellFormed.shift (hv : WellFormed v) (index : ℕ) :
    v.shift index ∉ v ∧ unshifted v (v.shift index) = index := by
  obtain ⟨l1, l2, h, hshift, h1, h2⟩ := shiftRanges_spec hv.separated index
  rw [IndexSet.shift, hshift]
  obtain ⟨hmem, hun⟩ := hv.unshifted_cut h h1 h2
  exact ⟨hmem, by rw [hun, Nat.add_sub_cancel]⟩

theorem WellFormed.unshift (hv : WellFormed v) (index : ℕ) :
    v.unshift index = unshifted v index := by
  rw [IndexSet.unshift, hv.count]
  rfl

theorem unshifted_eq (v : IndexSet build) (i : ℕ) :
    unshifted v i = i - number v 0 i := by
  rw [number_eq, Nat.count_zero, Nat.sub_zero]
  rfl

/-- The row at an index is at its shifted index once rows are inserted at
the positions of the set. -/
theorem WellFormed.getElem?_shift (hv : WellFormed v) {α : Type*}
    {old new : List α} (h : dropAt (mem v) new = old) {i : ℕ}
    (hi : i < old.length) :
    v.shift i < new.length ∧ new[v.shift i]? = old[i]? := by
  obtain ⟨hmem, hun⟩ := hv.shift i
  have hlen : i < rank (mem v) new.length := by
    rw [← length_dropAt, h]
    exact hi
  obtain ⟨j, hj, hmem', hrank⟩ := exists_rank hlen
  have heq : v.shift i = j := by
    refine unshifted_inj hmem (mem_eq_false.1 hmem') ?_
    rw [hun, ← rank_mem, hrank]
  rw [heq, ← h, ← hrank]
  exact ⟨hj, (getElem?_dropAt hj hmem').symm⟩

-- ===== the statement

/-- The queries give the answers on the set of members, if and only if no
wrong path of `count` is taken. -/
theorem queries_exact_iff (hv : WellFormed v) (hstart : start < 2 ^ 64) :
    ((∀ i, v.contains i = true ↔ i ∈ v)
      ∧ v.count start stop = number v start stop
      ∧ (∀ i, v.shift i ∉ v ∧ v.shift i - number v 0 (v.shift i) = i
        ∧ ∀ (α : Type) (old new : List α), dropAt (mem v) new = old
          → i < old.length
          → v.shift i < new.length ∧ new[v.shift i]? = old[i]?)
      ∧ (∀ i, i ∉ v → v.unshift i = i - number v 0 i)
      ∧ ∀ i, v.unshift (v.shift i) = i)
    ↔ Counted v start stop := by
  rw [← hv.count_iff hstart]
  refine ⟨fun h => h.2.1, fun hcount => ⟨fun i => hv.contains_iff, hcount,
    fun i => ⟨?_, ?_, ?_⟩, ?_, ?_⟩⟩
  · exact (hv.shift i).1
  · rw [← unshifted_eq]
    exact (hv.shift i).2
  · exact fun α old new h hi => hv.getElem?_shift h hi
  · intro i _
    rw [hv.unshift, unshifted_eq]
  · intro i
    rw [hv.unshift]
    exact (hv.shift i).2

/-- The even numbers up to 510, in a full chunk, and two numbers. -/
def evensAndTwo : IndexSet .release :=
  ⟨[⟨(evens 256).map fun a => (a, a + 1), 0, 511, 256⟩,
    ⟨[(512, 514)], 512, 514, 2⟩]⟩

theorem wellFormed_evensAndTwo : WellFormed evensAndTwo := by
  have hof : evensAndTwo = ofList (evens 256 ++ [512, 513]) := by
    decide +kernel
  rw [hof]
  exact (wellFormed_ofList _).1

/-- A start inside of the first chunk, and an end behind the second. -/
theorem queries_exact_iff_chunks : Counted evensAndTwo 509 600
      ∧ evensAndTwo.count 509 600 = number evensAndTwo 509 600 := by
  have hcounted : Counted evensAndTwo 509 600 := by decide +kernel
  exact ⟨hcounted, ((queries_exact_iff wellFormed_evensAndTwo
    (by decide)).2 hcounted).2.1⟩

theorem count_not_exact :
    (∃ v : IndexSet .release, WellFormed v ∧ v.count 509 513 = 1
        ∧ number v 509 513 = 2)
      ∧ ∃ v : IndexSet .release, WellFormed v ∧ v.count 5 3 = 2 ^ 64 - 2
        ∧ number v 5 3 = 0 := by
  refine ⟨⟨evensAndTwo, wellFormed_evensAndTwo, by decide +kernel,
    by decide +kernel⟩, ⟨[⟨[(0, 10)], 0, 10, 10⟩]⟩, ?_, by decide,
    by decide⟩
  refine ⟨⟨by decide, by decide⟩, fun c hc => ?_⟩
  rw [List.mem_singleton.1 hc]
  exact ⟨by decide, by decide, by decide, by decide, by decide⟩

end BarqSync.ObjectStore
