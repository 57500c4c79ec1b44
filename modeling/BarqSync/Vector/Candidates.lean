/-
The admissible keys of a filtered vector search (index_vector.hpp,
index_vector.cpp).

The keys are a bitmap over their range, if that costs about as much as a
hash set, and a hash set otherwise. A bitmap that turns out to have too
few distinct keys is given up again. Keys are words of 64 bits, and the
range is computed in them.

An access outside the bitmap has no result. A hash set is a list without
duplicates, in the order of its iteration. Sizes are natural numbers.
-/
import Mathlib.Data.List.Basic
import Mathlib.Algebra.Ring.Nat

namespace BarqSync.Vector

structure VectorCandidates where
  bits : List (BitVec 64) := []
  sparse : List (BitVec 64) := []
  min : BitVec 64 := 0
  max : BitVec 64 := 0
  count : ℕ := 0
  dense : Bool := false

namespace VectorCandidates

/-- The least and the greatest key, from the first on. -/
def bounds (keys : List (BitVec 64)) (first : BitVec 64) :
    BitVec 64 × BitVec 64 :=
  keys.foldl (fun bounds key =>
    (if key < bounds.1 then key else bounds.1,
      if bounds.2 < key then key else bounds.2)) (first, first)

/-- The bit of a key is set, and counted if it was not. -/
def mark (min : BitVec 64) (state : List (BitVec 64) × ℕ)
    (key : BitVec 64) : Option (List (BitVec 64) × ℕ) :=
  let bit := key - min
  let mask := 1#64 <<< (bit &&& 63#64)
  state.1[(bit >>> 6).toNat]?.map fun word =>
    if word &&& mask = 0#64 then
      (state.1.set (bit >>> 6).toNat (word ||| mask), state.2 + 1)
    else state

/-- `unordered_set::insert` of some keys. -/
def inserted (keys : List (BitVec 64)) : List (BitVec 64) :=
  keys.foldl (fun set key => set.insert key) []

/-- The number of keys of the range is a word of 64 bits. -/
def rangeFits (min max : BitVec 64) : Bool :=
  max - min ≠ BitVec.allOnes 64

/-- The index of the last word of a bitmap over the range. -/
def lastWord (min max : BitVec 64) : ℕ :=
  let range := if rangeFits min max then max - min + 1#64 else 0#64
  ((range - 1#64) / 64#64).toNat

/-- The constructor. -/
def ofKeys : List (BitVec 64) → Option VectorCandidates
  | [] => some {}
  | first :: rest =>
    let keys := first :: rest
    let min := (bounds keys first).1
    let max := (bounds keys first).2
    let lastWord := lastWord min max
    if rangeFits min max ∧ lastWord < keys.length then
      (keys.foldlM (mark min)
          (List.replicate (lastWord + 1) 0#64, 0)).map fun state =>
        if state.2 ≤ lastWord then
          { sparse := inserted keys, min := min, max := max
            count := state.2 }
        else
          { bits := state.1, min := min, max := max
            count := state.2, dense := true }
    else
      some { sparse := inserted keys, min := min, max := max
             count := (inserted keys).length }

variable (c : VectorCandidates)

def contains (key : BitVec 64) : Option Bool :=
  if c.dense then
    if key < c.min ∨ c.max < key then some false
    else
      let bit := key - c.min
      c.bits[(bit >>> 6).toNat]?.map fun word =>
        (word >>> (bit &&& 63#64)) &&& 1#64 ≠ 0#64
  else some (key ∈ c.sparse)

def size : ℕ := c.count

/-- The loop over the bits of a word: the keys that it comes to. -/
def visitWord (base : BitVec 64) (b : ℕ) (bits : BitVec 64) :
    List (BitVec 64) :=
  if bits = 0#64 then []
  else
    (if bits &&& 1#64 ≠ 0#64 then [base + BitVec.ofNat 64 b] else [])
      ++ visitWord base (b + 1) (bits >>> 1)
termination_by bits.toNat
decreasing_by
  have hpos : bits.toNat ≠ 0 := fun h => ‹¬ bits = 0#64›
    (BitVec.eq_of_toNat_eq h)
  rw [BitVec.toNat_ushiftRight, Nat.shiftRight_eq_div_pow]
  omega

/-- The keys that `for_each` visits, in this order. -/
def forEach : List (BitVec 64) :=
  if c.dense then
    c.bits.zipIdx.flatMap fun word =>
      visitWord (c.min + (BitVec.ofNat 64 word.2 <<< 6)) 0 word.1
  else c.sparse

end VectorCandidates

end BarqSync.Vector
