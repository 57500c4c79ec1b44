/-
`add_shifted_by`, which walks three lists of ranges: those of the set,
those that shift the values, and the values, index by index.

# The loop

`Shifting` relates the loop to what was passed: the builder holds the
ranges of the set that were passed and the values that were placed. The
values of one range that are not skipped are placed next to each other,
or next to what lies between them, so each range of values adds one
range at most (`run`).

# What can go wrong

The ranges behind the last value are copied whole, and a range that opens
a chunk beyond the reserved ones is counted as one index. `FitsShifted`
excludes that.
-/
import BarqSync.ObjectStore.Proofs.Bulk

namespace BarqSync.ObjectStore

open Ranges ChunkedRangeVector IndexSet

variable {build : Build} {v s values shiftedBy : IndexSet build}
  {b : ChunkedRangeVectorBuilder build} {l : List (ℕ × ℕ)}
  {exact : Prop} {reserved top i n index low : ℕ} {run : Bool} {P : ℕ → Prop}
  {st : IndexSet.ShiftedBy build}

-- ===== shifted indexes

/-- The index after the members of the set are deleted. -/
def unshifted (v : IndexSet build) (n : ℕ) : ℕ :=
  n - Nat.count (· ∈ v) n

theorem unshifted_add_count (v : IndexSet build) (n : ℕ) :
    unshifted v n + Nat.count (· ∈ v) n = n :=
  Nat.sub_add_cancel (Nat.count_le _)

theorem unshifted_succ (v : IndexSet build) (n : ℕ) :
    unshifted v (n + 1) = unshifted v n + if n ∈ v then 0 else 1 := by
  have h1 := unshifted_add_count v n
  have h2 := unshifted_add_count v (n + 1)
  rw [Nat.count_succ] at h2
  split at h2 <;> rename_i h <;> simp only [h, if_true, if_false] <;> omega

theorem unshifted_mono (v : IndexSet build) : Monotone (unshifted v) := by
  refine monotone_nat_of_le_succ fun n => ?_
  rw [unshifted_succ]
  omega

/-- Two indexes outside the set are unshifted differently. -/
theorem unshifted_inj {j : ℕ} (hi : i ∉ v) (hj : j ∉ v)
    (h : unshifted v i = unshifted v j) : i = j := by
  have hstep : ∀ a b, a ∉ v → a < b → unshifted v a < unshifted v b := by
    intro a b ha hab
    have := unshifted_succ v a
    rw [if_neg ha] at this
    have := unshifted_mono v (show a + 1 ≤ b by omega)
    omega
  rcases Nat.lt_trichotomy i j with hlt | heq | hlt
  · exact absurd h (hstep i j hi hlt).ne
  · exact heq
  · exact absurd h (hstep j i hj hlt).ne'

/-- At a cut of the ranges of a set. -/
theorem WellFormed.unshifted_cut (hv : WellFormed v)
    {l1 l2 : List (ℕ × ℕ)} (h : v.ranges = l1 ++ l2)
    (hl1 : ∀ t ∈ l1, t.2 ≤ n) (hl2 : ∀ t ∈ l2, n < t.1) :
    n ∉ v ∧ unshifted v n = n - total l1 := by
  have hs : Separated (l1 ++ l2) := h ▸ hv.separated
  have hmem : ∀ j, j ∈ v ↔ Covers (l1 ++ l2) j := fun j => by
    rw [mem_def, h]
  constructor
  · rw [hmem, covers_append]
    intro hc
    rcases hc with hc | hc
    · exact (hc.lt hl1).false
    · exact Nat.not_succ_le_self _ (hc.ge hl2)
  · have hcount : Nat.count (· ∈ v) n
        = Nat.count (Covers (l1 ++ l2)) n :=
      count_congr fun j _ => hmem j
    rw [unshifted, hcount, hs.count_cut hl1 fun t ht => (hl2 t ht).le]

/-- Where the index `x`, which has had the members of `s` inserted and
those of `v` deleted, was before. -/
def Placed (v s : IndexSet build) (x j : ℕ) : Prop :=
  j ∉ v ∧ unshifted v j = unshifted s x

/-- Only the place that a cut of the ranges leads to. -/
theorem WellFormed.placed_iff (hv : WellFormed v) {pos : ℕ}
    {pre rest : List (ℕ × ℕ)} (h : v.ranges = pre ++ rest)
    (hpre : ∀ t ∈ pre, t.2 ≤ pos) (hrest : ∀ t ∈ rest, pos < t.1)
    (hpos : pos = unshifted s index + total pre) {j : ℕ} :
    Placed v s index j ↔ j = pos := by
  obtain ⟨hout, hun⟩ := hv.unshifted_cut h hpre hrest
  constructor
  · intro ⟨hj, heq⟩
    exact unshifted_inj hj hout (by omega)
  · rintro rfl
    exact ⟨hout, by omega⟩

-- ===== the two inner loops

theorem passShifts_spec (index : ℕ) (shifts : List (ℕ × ℕ))
    (newShift skipUntil : ℕ) :
    ∃ pre rest, shifts = pre ++ rest
      ∧ IndexSet.passShifts index shifts newShift skipUntil
        = (rest, newShift + total pre, (pre.getLastD (0, skipUntil)).2)
      ∧ (∀ t ∈ pre, t.1 ≤ index) ∧ ∀ t ∈ rest.head?, index < t.1 := by
  induction shifts generalizing newShift skipUntil with
  | nil => exact ⟨[], [], rfl, rfl, by simp, by simp⟩
  | cons r rs ih =>
    rw [passShifts]
    by_cases hr : r.1 ≤ index
    · obtain ⟨pre, rest, rfl, heq, hpre, hrest⟩ :=
        ih (newShift + (r.2 - r.1)) r.2
      refine ⟨r :: pre, rest, rfl, ?_, ?_, hrest⟩
      · rw [if_pos hr, heq, total, List.getLastD_cons, Nat.add_assoc]
        cases pre <;> rfl
      · exact List.forall_mem_cons.2 ⟨hr, hpre⟩
    · refine ⟨[], r :: rs, rfl, ?_, by simp, ?_⟩
      · rw [if_neg hr]
        rfl
      · simpa using hr

/-- The shifts passed up to an index tell whether it is in the set, and
how far it is shifted if it is not. -/
theorem WellFormed.skip_iff (hs : WellFormed s)
    {pre rest : List (ℕ × ℕ)} (h : s.ranges = pre ++ rest)
    (hpre : ∀ t ∈ pre, t.1 ≤ index) (hrest : ∀ t ∈ rest, index < t.1) :
    (index < (pre.getLastD (0, 0)).2 ↔ index ∈ s)
      ∧ (index ∉ s → index - total pre = unshifted s index) := by
  have hsep : Separated (pre ++ rest) := h ▸ hs.separated
  have hnot : ¬ Covers rest index :=
    fun hc => Nat.not_succ_le_self _ (hc.ge hrest)
  have hmem : index ∈ s ↔ Covers pre index := by
    rw [mem_def, h, covers_append]
    exact or_iff_left hnot
  have hiff : index < (pre.getLastD (0, 0)).2 ↔ index ∈ s := by
    rw [hmem]
    rcases List.eq_nil_or_concat' pre with rfl | ⟨k, p, rfl⟩
    · simp
    · rw [getLastD_at]
      have hp := hpre p (by simp)
      have hk := (separated_append.1 (separated_append.1 hsep).1).2.2
      simp only [List.getLastD_nil, covers_append, covers_cons,
        not_covers_nil, or_false]
      constructor
      · intro hlt
        exact .inr ⟨hp, hlt⟩
      · intro hc
        rcases hc with ⟨t, ht, -, hlt⟩ | hc
        · have := hk t ht p (by simp)
          omega
        · exact hc.2
  refine ⟨hiff, fun hno => ?_⟩
  have hle : ∀ t ∈ pre, t.2 ≤ index := by
    intro t ht
    by_contra hgt
    exact hno (hmem.2 ⟨t, ht, hpre t ht, by omega⟩)
  exact ((hs.unshifted_cut h hle hrest).2).symm

/-- What `passOlds` passes: the ranges that begin up to the place of
`x`, which are copied. If the builder ends at that place they continue
its last range. -/
theorem passOlds_spec {x index newShift : ℕ} (hx : index - newShift = x)
    {olds : List (ℕ × ℕ)} {oldShift : ℕ} (h : Filled exact reserved b l top)
    (holds : Separated olds) (htop : ∀ t ∈ olds, top ≤ t.1)
    (hle : top ≤ x + oldShift) :
    ∃ pre rest l' top' b', olds = pre ++ rest
      ∧ IndexSet.passOlds index newShift olds oldShift b
        = (rest, oldShift + total pre, b')
      ∧ Filled exact reserved b' l' top' ∧ top' ≤ x + (oldShift + total pre)
      ∧ (∀ t ∈ pre, t.2 ≤ x + (oldShift + total pre))
      ∧ (∀ t ∈ rest, x + (oldShift + total pre) < t.1)
      ∧ l'.length ≤ l.length + pre.length
      ∧ (EndsAt l (x + oldShift) → l'.length = l.length
        ∧ EndsAt l' (x + (oldShift + total pre)))
      ∧ ∀ j, Covers l' j ↔ Covers l j ∨ Covers pre j := by
  induction olds generalizing b l top oldShift with
  | nil => exact ⟨[], [], l, top, b, rfl, rfl, h, hle, by simp, by simp,
      by simp, fun h => ⟨rfl, h⟩, by simp⟩
  | cons r rs ih =>
    rw [passOlds, hx]
    obtain ⟨hr, hrl, hrs⟩ := separated_cons.1 holds
    have hr1 := htop r (by simp)
    by_cases hpass : r.1 ≤ x + oldShift
    · obtain ⟨hf, hmem⟩ := h.pushIndexes_range hr hr1
      obtain ⟨pre, rest, l', top', b', rfl, heq, hfin, htop', hpre, hrest,
        hlen, hends, hcov⟩ := @ih _ _ _ (oldShift + (r.2 - r.1)) hf hrs
          (fun t ht => (hrl t ht).le) (by omega)
      rw [Nat.add_assoc] at heq htop' hpre hrest hends
      refine ⟨r :: pre, rest, l', top', b', rfl, ?_, hfin, htop', ?_, hrest,
        ?_, fun hl => ?_, fun j => ?_⟩
      · rw [if_pos hpass, heq, total]
      · refine List.forall_mem_cons.2 ⟨?_, hpre⟩
        rw [total]
        omega
      · have := @length_push_le l r
        simp only [List.length_cons]
        omega
      · -- the range begins where the builder ends
        have hat : x + oldShift = r.1 := by
          have := hl.le h.below
          omega
        rw [hat] at hl
        rw [← hl.length_push]
        refine hends ?_
        rw [show x + (oldShift + (r.2 - r.1)) = r.2 by omega]
        exact endsAt_push
      · rw [hcov, hmem, covers_cons, or_assoc]
    · refine ⟨[], r :: rs, l, top, b, rfl, ?_, h, hle, by simp, ?_,
        by simp, fun h => ⟨rfl, h⟩, by simp⟩
      · rw [if_neg hpass]
        rfl
      · exact holds.forall_behind (Nat.lt_of_not_le hpass)

-- ===== the loop

/-- The loop of `add_shifted_by` before an index not below `low`: the old
ranges passed are in the builder with the placed values, those in `P`,
and the rest begin behind them. The values have added `n` ranges at
most, and in a `run` the next value may continue the last one. -/
structure Shifting (reserved : ℕ) (v s : IndexSet build)
    (st : IndexSet.ShiftedBy build) (low n : ℕ) (run : Bool)
    (P : ℕ → Prop) : Prop where
  olds : ∃ pre l top, v.ranges = pre ++ st.olds ∧ st.oldShift = total pre
    ∧ Filled True reserved st.builder l top
    ∧ top ≤ unshifted s low + total pre
    ∧ (∀ t ∈ pre, t.2 ≤ unshifted s low + total pre)
    ∧ (∀ t ∈ st.olds, top ≤ t.1)
    ∧ (∀ x, P x → x < low ∧ unshifted s x + total pre < top)
    ∧ l.length ≤ pre.length + n
    ∧ (run = true → EndsAt l (unshifted s low + total pre))
    ∧ ∀ j, Covers l j ↔ Covers pre j ∨ ∃ x, P x ∧ Placed v s x j
  shifts : ∃ pre, s.ranges = pre ++ st.shifts ∧ st.newShift = total pre
    ∧ (∀ t ∈ pre, t.1 < low)
    ∧ st.skipUntil = (pre.getLastD (0, 0)).2

theorem Shifting.congr {Q : ℕ → Prop}
    (h : Shifting reserved v s st low n run P) (hP : ∀ x, P x ↔ Q x) :
    Shifting reserved v s st low n run Q := by
  obtain rfl : P = Q := funext fun x => propext (hP x)
  exact h

/-- A new range of values need not continue the last one. -/
theorem Shifting.halt (h : Shifting reserved v s st low n run P) :
    Shifting reserved v s st low n false P := by
  obtain ⟨pre, l, top, h1, h2, h3, h4, h5, h6, h7, h8, -, h9⟩ := h.olds
  exact ⟨⟨pre, l, top, h1, h2, h3, h4, h5, h6, h7, h8, by simp, h9⟩,
    h.shifts⟩

section

variable (hv : WellFormed v) (hs : WellFormed s)
  (h : Shifting reserved v s st low n run P) (hlow : low ≤ index)
  (hrun : run = true → low = index)

include hs h hlow

/-- The shifts that a step passes. -/
theorem Shifting.passShifts :
    ∃ pre rest, IndexSet.passShifts index st.shifts st.newShift
        st.skipUntil = (rest, total pre, (pre.getLastD (0, 0)).2)
      ∧ s.ranges = pre ++ rest ∧ (∀ t ∈ pre, t.1 < index + 1)
      ∧ (index < (pre.getLastD (0, 0)).2 ↔ index ∈ s)
      ∧ (index ∉ s → index - total pre = unshifted s index) := by
  obtain ⟨spre, hsr, hnew, hspre, hskip⟩ := h.shifts
  obtain ⟨spre', srest, hsplit, hpass, hspre', hsrest⟩ :=
    passShifts_spec index st.shifts st.newShift st.skipUntil
  have hsr' : s.ranges = (spre ++ spre') ++ srest := by
    rw [hsr, hsplit, List.append_assoc]
  have hall : ∀ t ∈ spre ++ spre', t.1 ≤ index := by
    refine List.forall_mem_append.2 ⟨fun t ht => ?_, hspre'⟩
    have := hspre t ht
    omega
  have hbehind : ∀ t ∈ srest, index < t.1 := by
    have hsep := hs.separated
    rw [hsr'] at hsep
    cases srest with
    | nil => simp
    | cons r srest =>
      exact (separated_append.1 hsep).2.1.forall_behind (hsrest r rfl)
  have hlast : (spre'.getLastD (0, st.skipUntil)).2
      = ((spre ++ spre').getLastD (0, 0)).2 := by
    cases spre' with
    | nil => simpa using hskip
    | cons p k => rw [getLastD_at, List.getLastD_cons]
  refine ⟨spre ++ spre', srest, ?_, hsr',
    fun t ht => Nat.lt_succ_of_le (hall t ht),
    hs.skip_iff hsr' hall hbehind⟩
  rw [hpass, hlast, total_append, hnew]

include hrun

/-- A value that was inserted since is skipped. -/
theorem Shifting.skip (hin : index ∈ s) :
    Shifting reserved v s (st.step index) (index + 1) n run P := by
  obtain ⟨spre, srest, hpass, hsr, hspre, hiff, -⟩ := h.passShifts hs hlow
  obtain ⟨pre, l, top, hranges, hold, hf, htop, hpre, holds, hP, hlen,
    hends, hcov⟩ := h.olds
  have hsucc := unshifted_succ s index
  rw [if_pos hin, Nat.add_zero] at hsucc
  have hmono : unshifted s low ≤ unshifted s index := unshifted_mono s hlow
  rw [ShiftedBy.step]
  simp only [hpass]
  rw [if_pos (hiff.2 hin)]
  refine ⟨⟨pre, l, top, hranges, hold, hf, by omega, fun t ht => ?_, holds,
    fun x hx => ⟨?_, (hP x hx).2⟩, hlen, fun hr => ?_, hcov⟩,
    spre, hsr, rfl, hspre, rfl⟩
  · have := hpre t ht
    omega
  · have := (hP x hx).1
    omega
  · rw [hsucc, ← hrun hr]
    exact hends hr

include hv

/-- Another value is placed. In a run it continues the last range. -/
theorem Shifting.place (hout : index ∉ s) :
    Shifting reserved v s (st.step index) (index + 1)
      (if run then n else n + 1) true (fun x => P x ∨ x = index) := by
  obtain ⟨spre, srest, hpass, hsr, hspre, hiff, hun⟩ := h.passShifts hs hlow
  obtain ⟨pre, l, top, hranges, hold, hf, htop, hpre, holds, hP, hlen,
    hends, hcov⟩ := h.olds
  have hx := hun hout
  have hsucc := unshifted_succ s index
  rw [if_neg hout] at hsucc
  have hmono : unshifted s low ≤ unshifted s index := unshifted_mono s hlow
  have hsep := hv.separated
  rw [hranges] at hsep
  obtain ⟨opre, orest, l', top', b', hosplit, hopass, hf', htop', hopre,
    horest, hlen', hends', hcov'⟩ := passOlds_spec hx hf
      (separated_append.1 hsep).2.1 holds
      (show top ≤ unshifted s index + st.oldShift by omega)
  rw [ShiftedBy.step]
  simp only [hpass]
  rw [if_neg (mt hiff.1 hout), hopass]
  have hranges' : v.ranges = (pre ++ opre) ++ orest := by
    rw [hranges, hosplit, List.append_assoc]
  rw [hold, ← total_append] at htop' hopre horest hends'
  obtain ⟨pos, hpos⟩ : ∃ pos, pos = unshifted s index
      + total (pre ++ opre) := ⟨_, rfl⟩
  have hplace : index - total spre + (st.oldShift + total opre) = pos := by
    rw [hx, hold, ← total_append, hpos]
  rw [← hpos] at htop' hopre horest hends'
  obtain ⟨hfin, hmem⟩ := hf'.pushIndex htop'
  have hpre' : ∀ t ∈ pre ++ opre, t.2 ≤ pos := by
    refine List.forall_mem_append.2 ⟨fun t ht => ?_, hopre⟩
    have := hpre t ht
    rw [hpos, total_append]
    omega
  simp only [hplace]
  refine ⟨⟨pre ++ opre, push l' (pos, pos + 1), pos + 1, hranges', ?_,
    hfin, ?_, ?_, ?_, ?_, ?_, fun _ => ?_, fun j => ?_⟩,
    spre, hsr, rfl, hspre, rfl⟩
  · simp only [hold, total_append]
  · omega
  · intro t ht
    have := hpre' t ht
    omega
  · exact horest
  · intro x hx
    rcases hx with hx | rfl
    · have := (hP x hx).1
      have : unshifted s x ≤ unshifted s index :=
        unshifted_mono s (by omega)
      omega
    · omega
  · have hpush := @length_push_le l' (pos, pos + 1)
    rw [List.length_append]
    cases run with
    | false =>
      simp only [Bool.false_eq_true, if_false]
      omega
    | true =>
      rw [hrun rfl] at hends
      obtain ⟨hsame, hlast⟩ := hends' (hold ▸ hends rfl)
      rw [hlast.length_push, if_pos rfl]
      omega
  · rw [show unshifted s (index + 1) + total (pre ++ opre) = pos + 1 by
      omega]
    exact endsAt_push
  · have hone : (∃ x, (P x ∨ x = index) ∧ Placed v s x j)
        ↔ (∃ x, P x ∧ Placed v s x j) ∨ j = pos := by
      rw [← hv.placed_iff hranges' hpre' horest hpos]
      simp only [or_and_right, exists_or, exists_eq_left]
    rw [hmem, hcov', hcov, covers_append, hone]
    exact (or_congr_left or_right_comm).trans or_assoc

end

/-- The range has an index outside of the set. -/
def hasOutside (s : IndexSet build) (r : ℕ × ℕ) : Bool :=
  (List.range' r.1 (r.2 - r.1)).any fun x => decide (x ∉ s)

section

variable (hv : WellFormed v) (hs : WellFormed s)

include hv hs

/-- The values of a range add one range at most, and none in a run. -/
theorem Shifting.foldl_range' {a k : ℕ}
    (h : Shifting reserved v s st low n run P) (hlow : low ≤ a)
    (hrun : run = true → low = a) :
    ∃ low' run', low' ≤ a + k ∧ Shifting reserved v s
      ((List.range' a k).foldl IndexSet.ShiftedBy.step st) low'
      (n + if !run && (List.range' a k).any (fun x => decide (x ∉ s))
        then 1 else 0)
      run' (fun x => P x ∨ x ∈ List.range' a k ∧ x ∉ s) := by
  induction k generalizing a st low n run P with
  | zero => exact ⟨low, run, hlow, by simpa using h⟩
  | succ k ih =>
    rw [List.range'_succ, List.foldl_cons, List.any_cons]
    by_cases ha : a ∈ s
    · obtain ⟨low', run', hle, hfin⟩ :=
        ih (h.skip hs hlow hrun ha) le_rfl fun _ => rfl
      rw [decide_eq_false (not_not.2 ha), Bool.false_or]
      refine ⟨low', run', by omega, hfin.congr fun x => ?_⟩
      rw [List.mem_cons, or_and_right]
      refine or_congr_right (or_iff_right ?_).symm
      rintro ⟨rfl, hno⟩
      exact hno ha
    · obtain ⟨low', run', hle, hfin⟩ :=
        ih (h.place hv hs hlow hrun ha) le_rfl fun _ => rfl
      rw [Bool.not_true, Bool.false_and] at hfin
      have hn : (n + if !run && (decide (a ∉ s) || (List.range' (a + 1)
            k).any fun x => decide (x ∉ s)) then 1 else 0)
          = if run then n else n + 1 := by
        cases run <;> simp [ha]
      rw [hn]
      refine ⟨low', run', by omega, hfin.congr fun x => ?_⟩
      rw [List.mem_cons, or_and_right, or_assoc]
      refine or_congr_right (or_congr_left ?_)
      exact ⟨fun heq => ⟨heq, heq ▸ ha⟩, And.left⟩

/-- Each range of values adds one range at most. -/
theorem Shifting.foldl_indexes {rs : List (ℕ × ℕ)}
    (h : Shifting reserved v s st low n false P) (hrs : Separated rs)
    (hlow : ∀ r ∈ rs, low ≤ r.1) :
    ∃ low', Shifting reserved v s
      ((indexes rs).foldl IndexSet.ShiftedBy.step st) low'
      (n + rs.countP (hasOutside s)) false
      (fun x => P x ∨ x ∈ indexes rs ∧ x ∉ s) := by
  induction rs generalizing st low n P with
  | nil => exact ⟨low, by simpa [indexes] using h⟩
  | cons r rs ih =>
    obtain ⟨hr, hrl, hrs⟩ := separated_cons.1 hrs
    obtain ⟨mid, run, hmid, hrange⟩ := h.foldl_range' hv hs
      (k := r.2 - r.1) (hlow r (by simp)) (by simp)
    obtain ⟨low', hfin⟩ := ih hrange.halt hrs fun t ht => by
      have := hrl t ht
      omega
    refine ⟨low', ?_⟩
    have hcount : n + (r :: rs).countP (hasOutside s)
        = n + (if hasOutside s r then 1 else 0)
          + rs.countP (hasOutside s) := by
      rw [List.countP_cons]
      omega
    have happ : indexes (r :: rs)
        = List.range' r.1 (r.2 - r.1) ++ indexes rs := rfl
    rw [hcount, happ, List.foldl_append]
    refine hfin.congr fun x => ?_
    rw [List.mem_append, or_and_right, or_assoc]

end

-- ===== the whole call

/-- The ranges that `add_shifted_by` copies whole do not open a chunk
with a wrong count: the ranges of the set fit in the chunks reserved,
with one more for each range of values that are not all skipped, or
every range of two or more indexes has a value to be placed at or behind
its start. -/
def FitsShifted (v shiftedBy values : IndexSet build) : Prop :=
  v.ranges.length + values.ranges.countP (hasOutside shiftedBy)
    ≤ (v.ranges.length / build.maxSize + 1) * build.maxSize
  ∨ ∀ r ∈ v.ranges, r.2 = r.1 + 1 ∨ ∃ x ∈ values, x ∉ shiftedBy
    ∧ unshifted v r.1 ≤ unshifted shiftedBy x

/-- The ranges copied whole at the end. -/
theorem Filled.pushRanges {rs : List (ℕ × ℕ)}
    (h : Filled exact reserved b l top) (hrs : Separated rs)
    (htop : ∀ r ∈ rs, top ≤ r.1)
    (hok : exact → l.length + rs.length ≤ reserved * build.maxSize
      ∨ ∀ r ∈ rs, r.2 = r.1 + 1) :
    ∃ l' top', Filled exact reserved
        (rs.foldl ChunkedRangeVectorBuilder.pushBack b) l' top'
      ∧ ∀ j, Covers l' j ↔ Covers l j ∨ Covers rs j := by
  induction rs generalizing b l top with
  | nil => exact ⟨l, top, h, by simp⟩
  | cons r rs ih =>
    obtain ⟨hr, hrl, hrs⟩ := separated_cons.1 hrs
    obtain ⟨hf, hmem⟩ := h.pushBack hr (htop r (by simp)) (by
      intro he
      rcases hok he with hok | hok
      · simp only [List.length_cons] at hok
        omega
      · exact .inl (hok r (by simp)))
    obtain ⟨l', top', hf', hmem'⟩ := ih hf hrs
      (fun t ht => (hrl t ht).le) (by
        refine fun he => (hok he).imp (fun hok => ?_)
          fun hok t ht => hok t (by simp [ht])
        have := @length_push_le l r
        simp only [List.length_cons] at hok
        omega)
    refine ⟨l', top', hf', fun j => ?_⟩
    rw [hmem', hmem, covers_cons, or_assoc]

/-- The state of `add_shifted_by` behind the last value. -/
def shiftedEnd (v shiftedBy values : IndexSet build) :
    IndexSet.ShiftedBy build :=
  values.asIndexes.foldl IndexSet.ShiftedBy.step
    { shifts := shiftedBy.ranges, olds := v.ranges, builder := .new v }

section

variable (hv : WellFormed v) (hs : WellFormed shiftedBy) (hvalues :
  WellFormed values)

include hv hs hvalues

/-- Behind the last value, the builder has the values and the ranges that
were passed. -/
theorem WellFormed.shiftedEnd :
    ∃ pre l top, v.ranges = pre ++ (shiftedEnd v shiftedBy values).olds
      ∧ Filled True (v.ranges.length / build.maxSize + 1)
        (shiftedEnd v shiftedBy values).builder l top
      ∧ (∀ t ∈ (shiftedEnd v shiftedBy values).olds, top ≤ t.1)
      ∧ (∀ x ∈ values, x ∉ shiftedBy
        → unshifted shiftedBy x + total pre < top)
      ∧ l.length
        ≤ pre.length + values.ranges.countP (hasOutside shiftedBy)
      ∧ ∀ j, Covers l j ↔ Covers pre j
        ∨ ∃ x ∈ values, x ∉ shiftedBy ∧ Placed v shiftedBy x j := by
  have hmemv := hvalues.asIndexes.2
  have hinit : Shifting (v.ranges.length / build.maxSize + 1) v shiftedBy
      { shifts := shiftedBy.ranges, olds := v.ranges, builder := .new v }
      0 0 false (fun _ => False) :=
    ⟨⟨[], [], 0, rfl, rfl, filled_new v, by simp, by simp, by simp,
      by simp, by simp, by simp, by simp⟩, ⟨[], rfl, rfl, by simp, rfl⟩⟩
  obtain ⟨low, hfin⟩ :=
    hinit.foldl_indexes hv hs hvalues.separated (by simp)
  obtain ⟨pre, l, top, hranges, -, hf, -, -, holds, hP, hlen, -, hcov⟩ :=
    hfin.olds
  refine ⟨pre, l, top, hranges, hf, holds, fun x hx hno => ?_, ?_,
    fun j => ?_⟩
  · exact (hP x (.inr ⟨(hmemv x).2 hx, hno⟩)).2
  · rw [Nat.zero_add] at hlen
    exact hlen
  · rw [hcov]
    refine or_congr_right (exists_congr fun x => ?_)
    rw [false_or, show x ∈ indexes values.ranges ↔ _ from hmemv x,
      and_assoc]

/-- What `add_shifted_by` adds; its caches are right if the ranges fit. -/
theorem WellFormed.addShiftedBy :
    (FitsShifted v shiftedBy values
      → WellFormed (v.addShiftedBy shiftedBy values))
    ∧ ∀ j, j ∈ v.addShiftedBy shiftedBy values ↔ j ∈ v
      ∨ ∃ x ∈ values, x ∉ shiftedBy ∧ Placed v shiftedBy x j := by
  rw [IndexSet.addShiftedBy]
  by_cases hempty : values.empty = true
  · rw [if_pos hempty]
    refine ⟨fun _ => hv, fun j => (or_iff_left ?_).symm⟩
    intro ⟨x, hx, _⟩
    exact not_mem_of_empty hempty hx
  rw [if_neg hempty]
  obtain ⟨pre, l, top, hranges, hf, holds, hP, hlen, hcov⟩ :=
    hv.shiftedEnd hs hvalues
  have hsep := hv.separated
  rw [hranges] at hsep
  have hf : Filled (FitsShifted v shiftedBy values) _ _ l top :=
    ⟨hf.built.imp fun _ => trivial, hf.separated, hf.below⟩
  obtain ⟨l', top', hf', hcov'⟩ := hf.pushRanges
    (separated_append.1 hsep).2.1 holds (by
      rintro (hfit | hfit)
      · left
        rw [hranges, List.length_append] at hfit
        rw [hranges, List.length_append]
        omega
      · right
        intro r hr
        rcases hfit r (by rw [hranges]; simp [hr]) with h | ⟨x, hx, hno, hle⟩
        · exact h
        · -- the range would have been passed before that value
          have hpretop : ∀ t ∈ pre, t.2 ≤ top := by
            intro t ht
            have hne := hsep.nonempty t (by simp [ht])
            have hc : Covers l (t.2 - 1) :=
              (hcov _).2 (.inl ⟨t, ht, by omega, by omega⟩)
            have := hc.lt hf.below
            omega
          have hcount : Nat.count (· ∈ v) top = total pre := by
            rw [← hsep.count_cut hpretop holds]
            exact count_congr fun j _ => by rw [mem_def, hranges]
          have hun := unshifted_add_count v top
          have hmono : unshifted v top ≤ unshifted v r.1 :=
            unshifted_mono v (holds r hr)
          have := hP x hx hno
          omega)
  obtain ⟨hwf, hmem⟩ := hf'.finalize
  refine ⟨hwf, fun j => ?_⟩
  refine (hmem j).trans ?_
  rw [hcov', hcov, mem_def, hranges, covers_append, or_right_comm]

end

end BarqSync.ObjectStore
