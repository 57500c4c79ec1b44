/-
Binary search in packed arrays (`array_direct.hpp`).

# Elements

`get_direct` reads bit fields of one, two and four bits as unsigned
numbers, and wider elements as little-endian two's complement. The array
is read only below its size, so the memory behind it does not matter.

# The search

One turn halves `size` whatever the comparison says, and moves `low` past
the probe, or onto it when `size` is even. What stays true is that the
elements before `low` are passed and those from `low + size` on are not
(`Enclosed`), so with an empty range `low` is the number of elements that
are passed.
-/
import Mathlib.Data.List.Count
import Mathlib.Data.List.Range
import Mathlib.Tactic.Ring

namespace BarqSync.Storage

-- ===== elements

/-- The widths of a packed array. -/
inductive Width
  | w0
  | w1
  | w2
  | w4
  | w8
  | w16
  | w32
  | w64
deriving DecidableEq, Repr

/-- The signed number in some bytes from an offset on. -/
def signedAt (data : ℕ → UInt8) (offset bytes : ℕ) : ℤ :=
  Int.bmod (((List.range bytes).map fun k =>
    (data (offset + k)).toNat * 256 ^ k).sum : ℕ) (256 ^ bytes)

/-- `get_direct`. -/
def getDirect (data : ℕ → UInt8) (ndx : ℕ) : Width → ℤ
  | .w0 => 0
  | .w1 => ((data (ndx >>> 3)).toNat >>> (ndx &&& 7) &&& 0x01 : ℕ)
  | .w2 => ((data (ndx >>> 2)).toNat >>> ((ndx &&& 3) <<< 1) &&& 0x03 : ℕ)
  | .w4 => ((data (ndx >>> 1)).toNat >>> ((ndx &&& 1) <<< 2) &&& 0x0F : ℕ)
  | .w8 => signedAt data ndx 1
  | .w16 => signedAt data (ndx * 2) 2
  | .w32 => signedAt data (ndx * 4) 4
  | .w64 => signedAt data (ndx * 8) 8

-- ===== the search

section Search

variable (passes : ℕ → Bool)

/-- One turn, from `low` and `size`. The element at the probe is passed or
not. -/
def halve (s : ℕ × ℕ) : ℕ × ℕ :=
  let half := s.2 / 2
  let otherHalf := s.2 - half
  let probe := s.1 + half
  let otherLow := s.1 + otherHalf
  (if passes probe then otherLow else s.1, half)

/-- The first loop, three turns at a time. -/
def unrolledLoop (s : ℕ × ℕ) : ℕ × ℕ :=
  if 8 ≤ s.2 then
    unrolledLoop (halve passes (halve passes (halve passes s)))
  else s
termination_by s.2
decreasing_by
  simp only [halve]
  omega

/-- The second loop. -/
def remainingLoop (s : ℕ × ℕ) : ℕ × ℕ :=
  if 0 < s.2 then remainingLoop (halve passes s) else s
termination_by s.2
decreasing_by
  simp only [halve]
  omega

end Search

/-- `lower_bound`. -/
def lowerBound (width : Width) (data : ℕ → UInt8) (size : ℕ)
    (value : ℤ) : ℕ :=
  let passes := fun i => decide (getDirect data i width < value)
  (remainingLoop passes (unrolledLoop passes (0, size))).1

/-- `upper_bound`. -/
def upperBound (width : Width) (data : ℕ → UInt8) (size : ℕ)
    (value : ℤ) : ℕ :=
  let passes := fun i => decide (value ≥ getDirect data i width)
  (remainingLoop passes (unrolledLoop passes (0, size))).1

-- ===== the invariant

section Enclosed

variable {passes : ℕ → Bool} {n : ℕ} {s : ℕ × ℕ}

/-- The first element that is not passed lies in the range, or right
behind it. -/
structure Enclosed (passes : ℕ → Bool) (n : ℕ) (s : ℕ × ℕ) : Prop where
  inside : s.1 + s.2 ≤ n
  before : ∀ i < s.1, passes i = true
  behind : ∀ i < n, s.1 + s.2 ≤ i → passes i = false

variable (hmono : ∀ j < n, ∀ i ≤ j, passes j = true → passes i = true)

include hmono

theorem Enclosed.halve (h : Enclosed passes n s) (hs : 0 < s.2) :
    Enclosed passes n (halve passes s) := by
  have hin := h.inside
  by_cases hprobe : passes (s.1 + s.2 / 2) = true
  · -- of an even range the element at the probe is looked at again
    simp only [Storage.halve, hprobe, if_true]
    refine ⟨by simp only; omega, fun i hi => ?_, fun i hi hle => ?_⟩
    · exact hmono (s.1 + s.2 / 2) (by omega) i (by omega) hprobe
    · exact h.behind i hi (by omega)
  · simp only [Storage.halve, hprobe, Bool.false_eq_true, if_false]
    refine ⟨by simp only; omega, h.before, fun i hi hle => ?_⟩
    rw [Bool.eq_false_iff]
    exact fun hpass => hprobe (hmono i hi _ hle hpass)

theorem Enclosed.unrolledLoop (h : Enclosed passes n s) :
    Enclosed passes n (unrolledLoop passes s) := by
  induction s using Storage.unrolledLoop.induct passes with
  | case1 s hs ih =>
    rw [Storage.unrolledLoop, if_pos hs]
    have h1 := h.halve hmono (by omega)
    have h2 := h1.halve hmono (by simp only [Storage.halve]; omega)
    exact ih (h2.halve hmono (by simp only [Storage.halve]; omega))
  | case2 s hs =>
    rw [Storage.unrolledLoop, if_neg hs]
    exact h

theorem Enclosed.remainingLoop (h : Enclosed passes n s) :
    Enclosed passes n (remainingLoop passes s)
      ∧ (remainingLoop passes s).2 = 0 := by
  induction s using Storage.remainingLoop.induct passes with
  | case1 s hs ih =>
    rw [Storage.remainingLoop, if_pos hs]
    exact ih (h.halve hmono hs)
  | case2 s hs =>
    rw [Storage.remainingLoop, if_neg hs]
    exact ⟨h, by omega⟩

/-- The loops end at the number of elements that are passed. -/
theorem search_eq_countP :
    (remainingLoop passes (unrolledLoop passes (0, n))).1
      = (List.range n).countP passes := by
  have hstart : Enclosed passes n (0, n) :=
    ⟨by simp, by simp, fun i hi hle => by simp only at hle; omega⟩
  obtain ⟨h, hempty⟩ := (hstart.unrolledLoop hmono).remainingLoop hmono
  generalize remainingLoop passes (unrolledLoop passes (0, n)) = s
    at h hempty ⊢
  obtain ⟨k, rfl⟩ := Nat.exists_eq_add_of_le (show s.1 ≤ n by
    have := h.inside
    omega)
  have hbefore : (List.range s.1).countP passes = s.1 := by
    rw [List.countP_eq_length.2 fun i hi => h.before i (List.mem_range.1 hi),
      List.length_range]
  have hbehind : ((List.range k).map (s.1 + ·)).countP passes = 0 := by
    refine List.countP_eq_zero.2 fun i hi => ?_
    obtain ⟨j, hj, rfl⟩ := List.mem_map.1 hi
    rw [h.behind _ (by rw [List.mem_range] at hj; omega) (by omega)]
    simp
  rw [List.range_add, List.countP_append, hbefore, hbehind, Nat.add_zero]

end Enclosed

-- ===== the bounds

/-- In a non-decreasing array the lower bound of a value is the number of
smaller elements, and the upper bound the number of elements that are not
greater. -/
theorem bounds_exact (width : Width) (data : ℕ → UInt8) (size : ℕ)
    (value : ℤ)
    (hsorted : ∀ j < size, ∀ i ≤ j,
      getDirect data i width ≤ getDirect data j width) :
    lowerBound width data size value
      = (List.range size).countP (getDirect data · width < value)
    ∧ upperBound width data size value
      = (List.range size).countP (getDirect data · width ≤ value) := by
  constructor
  · refine search_eq_countP fun j hj i hij hpass => ?_
    have hle := hsorted j hj i hij
    rw [decide_eq_true_eq] at hpass ⊢
    exact lt_of_le_of_lt hle hpass
  · refine search_eq_countP fun j hj i hij hpass => ?_
    have hle := hsorted j hj i hij
    rw [decide_eq_true_eq] at hpass ⊢
    exact le_trans hle hpass

/-- Seven bytes with runs of equal elements. -/
theorem bounds_exact_seven_bytes :
    lowerBound .w8 (fun i => [254, 1, 1, 1, 4, 4, 9].getD i 0) 7 4 = 4
    ∧ upperBound .w8 (fun i => [254, 1, 1, 1, 4, 4, 9].getD i 0) 7 4 = 6 := by
  obtain ⟨hlower, hupper⟩ := bounds_exact .w8
    (fun i => [254, 1, 1, 1, 4, 4, 9].getD i 0) 7 4 (by decide)
  exact ⟨hlower.trans (by decide), hupper.trans (by decide)⟩

end BarqSync.Storage
