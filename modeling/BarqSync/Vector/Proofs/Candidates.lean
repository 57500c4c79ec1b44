/-
The candidates of a filtered search are the keys that they were made of.

# The bitmap

`Marked` relates the bitmap to the keys that were added so far, by their
distances from the least key. A distance is below the number of bits,
since that number covers the range, and different keys have different
distances. Whether the bitmap is kept is decided on its count, which is
the number of distinct keys.

# The walk

The loop over a word comes to its bits that are set (`visitWord_eq`). The
distances of all words are below `2 ^ 64`, so no key is visited twice.
-/
import BarqSync.Index.Bitmap
import BarqSync.Vector.Candidates
import Mathlib.Data.Finset.Card
import Mathlib.Data.Finset.Dedup

namespace BarqSync.Vector.VectorCandidates

open Bitmap (test ones)

variable {keys : List (BitVec 64)} {min max : BitVec 64} {n : ℕ}
  {key : BitVec 64} {c : VectorCandidates} {state : List (BitVec 64) × ℕ}

-- ===== the range

theorem bounds_spec (keys : List (BitVec 64)) (first : BitVec 64) :
    (∀ key ∈ keys, (bounds keys first).1 ≤ key
      ∧ key ≤ (bounds keys first).2)
      ∧ (bounds keys first).1 ≤ first
      ∧ first ≤ (bounds keys first).2 := by
  induction keys using List.reverseRecOn with
  | nil => simp [bounds]
  | append_singleton keys key ih =>
    obtain ⟨hkeys, hfirst, hfirst'⟩ := ih
    have heq : bounds (keys ++ [key]) first
        = (if key < (bounds keys first).1 then key
            else (bounds keys first).1,
          if (bounds keys first).2 < key then key
            else (bounds keys first).2) :=
      List.foldl_concat ..
    rw [heq]
    simp only [BitVec.le_def, BitVec.lt_def] at hkeys hfirst hfirst' ⊢
    refine ⟨fun other hother => ?_, ?_, ?_⟩
    · rcases List.mem_append.1 hother with hmem | hlast
      · have := hkeys other hmem
        constructor <;> split <;> omega
      · rw [List.mem_singleton.1 hlast]
        constructor <;> split <;> omega
    · split <;> omega
    · split <;> omega

/-- The distance of a key from the least one. -/
def distance (min key : BitVec 64) : ℕ := (key - min).toNat

theorem add_distance (min key : BitVec 64) :
    min + BitVec.ofNat 64 (distance min key) = key := by
  rw [distance, BitVec.ofNat_toNat, BitVec.setWidth_eq, BitVec.add_comm,
    BitVec.sub_add_cancel]

theorem distance_inj {other : BitVec 64}
    (h : distance min key = distance min other) : key = other := by
  rw [← add_distance min key, h, add_distance]

/-- The distances in a range are at most its span. -/
theorem distance_le (hmin : min ≤ key) (hmax : key ≤ max) :
    distance min key ≤ (max - min).toNat := by
  rw [distance, BitVec.toNat_sub_of_le hmin,
    BitVec.toNat_sub_of_le (BitVec.le_trans hmin hmax)]
  exact Nat.sub_le_sub_right hmax _

/-- A bitmap over the range has a word for each key in it. -/
theorem distance_div_lt (hfits : rangeFits min max = true)
    (hmin : min ≤ key) (hmax : key ≤ max) :
    distance min key / 64 < lastWord min max + 1 := by
  have hlast : lastWord min max = (max - min).toNat / 64 := by
    rw [lastWord, if_pos hfits, BitVec.add_sub_cancel, BitVec.toNat_udiv]
    rfl
  rw [hlast]
  exact Nat.lt_succ_of_le (Nat.div_le_div_right (distance_le hmin hmax))

theorem toNat_shift (key : BitVec 64) :
    ((key - min) >>> 6).toNat = distance min key / 64 := by
  rw [BitVec.toNat_ushiftRight, Nat.shiftRight_eq_div_pow]
  rfl

theorem toNat_mask (key : BitVec 64) :
    ((key - min) &&& 63#64).toNat = distance min key % 64 := by
  rw [BitVec.toNat_and]
  exact Nat.and_two_pow_sub_one_eq_mod _ 6

-- ===== the bitmap

/-- The bitmap has the distances of some keys, and counts the keys. -/
structure Marked (min : BitVec 64) (keys : List (BitVec 64)) (n : ℕ)
    (state : List (BitVec 64) × ℕ) : Prop where
  length : state.1.length = n
  test_iff : ∀ i, test state.1 i = true ↔ ∃ key ∈ keys, distance min key = i
  count : state.2 = keys.toFinset.card

theorem Marked.nil (min : BitVec 64) (n : ℕ) :
    Marked min [] n (List.replicate n 0#64, 0) where
  length := List.length_replicate
  test_iff i := by
    rw [Bitmap.test_replicate_zero]
    simp
  count := rfl

section

variable (h : Marked min keys n state)

include h

theorem Marked.test_key (key : BitVec 64) :
    test state.1 (distance min key) = true ↔ key ∈ keys := by
  rw [h.test_iff]
  constructor
  · intro hex
    obtain ⟨other, hother, heq⟩ := hex
    exact distance_inj heq ▸ hother
  · intro hkey
    exact ⟨key, hkey, rfl⟩

theorem Marked.mark (hlt : distance min key / 64 < n) :
    ∃ state', mark min state key = some state'
      ∧ Marked min (keys ++ [key]) n state' := by
  obtain ⟨word, hword⟩ : ∃ word, state.1[distance min key / 64]?
      = some word :=
    ⟨_, List.getElem?_eq_getElem (h.length ▸ hlt)⟩
  have hbit : word &&& (1#64 <<< (distance min key % 64)) ≠ 0#64
      ↔ key ∈ keys := by
    rw [Bitmap.and_mask_ne_zero (Nat.mod_lt _ (by decide)),
      ← Bitmap.test_of_getElem? hword, h.test_key]
  unfold VectorCandidates.mark
  dsimp only
  rw [toNat_shift, hword, Option.map_some, BitVec.shiftLeft_eq',
    toNat_mask]
  refine ⟨_, rfl, ?_⟩
  split
  · next hzero =>
    have hnew : key ∉ keys := fun hkey => hbit.2 hkey hzero
    refine ⟨?_, ?_, ?_⟩
    · exact List.length_set.trans h.length
    · intro i
      rw [Bitmap.test_set (by decide) hword, Bool.or_eq_true, h.test_iff,
        decide_eq_true_eq]
      simp [or_and_right, exists_or, eq_comm]
    · rw [List.toFinset_append, List.toFinset_cons, List.toFinset_nil,
        Finset.union_insert, Finset.union_empty,
        Finset.card_insert_of_notMem (by simpa using hnew), h.count]
  · next hset =>
    have hold : key ∈ keys := hbit.1 hset
    have hsame : ∀ other, other ∈ keys ++ [key] ↔ other ∈ keys := by
      intro other
      simp only [List.mem_append, List.mem_singleton, or_iff_left_iff_imp]
      exact fun heq => heq ▸ hold
    refine ⟨h.length, ?_, ?_⟩
    · intro i
      rw [h.test_iff]
      simp only [hsame]
    · have hset : (keys ++ [key]).toFinset = keys.toFinset := by
        ext other
        rw [List.mem_toFinset, List.mem_toFinset, hsame]
      rw [hset, h.count]

theorem Marked.foldlM {more : List (BitVec 64)}
    (hlt : ∀ key ∈ more, distance min key / 64 < n) :
    ∃ state', more.foldlM (VectorCandidates.mark min) state = some state'
      ∧ Marked min (keys ++ more) n state' := by
  induction more generalizing keys state with
  | nil => exact ⟨state, rfl, by rwa [List.append_nil]⟩
  | cons key more ih =>
    obtain ⟨state', hmark, h'⟩ := h.mark (hlt key List.mem_cons_self)
    obtain ⟨last, hfold, hlast⟩ := ih h'
      fun other hother => hlt other (List.mem_cons_of_mem key hother)
    refine ⟨last, ?_, ?_⟩
    · rw [List.foldlM_cons, hmark]
      exact hfold
    · rwa [List.append_assoc] at hlast

end

theorem inserted_spec :
    (inserted keys).Nodup ∧ ∀ key, key ∈ inserted keys ↔ key ∈ keys := by
  induction keys using List.reverseRecOn with
  | nil => exact ⟨List.nodup_nil, fun _ => Iff.rfl⟩
  | append_singleton keys last ih =>
    have heq : inserted (keys ++ [last]) = (inserted keys).insert last :=
      List.foldl_concat ..
    rw [heq]
    refine ⟨ih.1.insert, fun key => ?_⟩
    rw [List.mem_insert_iff, ih.2, List.mem_append, List.mem_singleton,
      or_comm]

-- ===== the walk

/-- The loop over a word comes to its bits that are set. -/
theorem visitWord_eq (base : BitVec 64) :
    ∀ {b : ℕ} {bits : BitVec 64}, bits.toNat < 2 ^ n
      → visitWord base b bits
        = (ones n bits).map fun i => base + BitVec.ofNat 64 (b + i) := by
  induction n with
  | zero =>
    intro b bits hbits
    have hzero : bits = 0#64 := BitVec.eq_of_toNat_eq (by simpa using hbits)
    rw [hzero, visitWord, if_pos rfl, Bitmap.ones_zero, List.map_nil]
  | succ n ih =>
    intro b bits hbits
    by_cases hzero : bits = 0#64
    · rw [hzero, visitWord, if_pos rfl, Bitmap.ones_zero, List.map_nil]
    · have hshift : (bits >>> 1).toNat < 2 ^ n := by
        rw [BitVec.toNat_ushiftRight, Nat.shiftRight_eq_div_pow]
        omega
      have hbit : bits &&& 1#64 ≠ 0#64 ↔ bits.getLsbD 0 = true := by
        rw [← Bitmap.ushiftRight_and_one_ne_zero (by decide),
          BitVec.ushiftRight_zero]
      rw [visitWord, if_neg hzero, Bitmap.ones_succ, ih hshift,
        List.map_append, List.map_map]
      congr 1
      · by_cases hone : bits.getLsbD 0 = true
        · rw [if_pos (hbit.2 hone), if_pos hone]
          rfl
        · rw [if_neg (fun h => hone (hbit.1 h)), if_neg hone]
          rfl
      · refine List.map_congr_left fun i _ => ?_
        rw [Function.comp_apply, Nat.add_assoc, Nat.add_comm 1 i]

/-- A walk over a bitmap comes to its positions. -/
theorem forEach_dense (hdense : c.dense = true) :
    c.forEach = (Bitmap.positions c.bits 0).map
      fun i => c.min + BitVec.ofNat 64 i := by
  have hbase : ∀ k i : ℕ, (BitVec.ofNat 64 k <<< 6) + BitVec.ofNat 64 i
      = BitVec.ofNat 64 (64 * k + i) := by
    intro k i
    apply BitVec.eq_of_toNat_eq
    simp only [BitVec.toNat_add, BitVec.toNat_shiftLeft,
      BitVec.toNat_ofNat, Nat.shiftLeft_eq]
    omega
  rw [forEach, if_pos hdense, Bitmap.positions, List.map_flatMap]
  congr 1
  funext word
  rw [visitWord_eq _ (n := 64) word.1.isLt, List.map_map]
  refine List.map_congr_left fun i _ => ?_
  rw [Function.comp_apply, Nat.zero_add, BitVec.add_assoc, hbase]

/-- What candidates are to be for some keys. -/
structure Exactly (keys : List (BitVec 64)) (c : VectorCandidates) :
    Prop where
  contains : ∀ key, c.contains key = some (decide (key ∈ keys))
  size : c.size = keys.toFinset.card
  nodup : c.forEach.Nodup
  mem_forEach : ∀ key, key ∈ c.forEach ↔ key ∈ keys

theorem exactly_sparse (hdense : c.dense = false)
    (hsparse : c.sparse = inserted keys)
    (hcount : c.count = keys.toFinset.card) : Exactly keys c := by
  have hwalk : c.forEach = inserted keys := by
    rw [forEach, hdense, hsparse]
    rfl
  refine ⟨fun key => ?_, hcount, ?_, fun key => ?_⟩
  · rw [VectorCandidates.contains, hdense, hsparse]
    simp [inserted_spec.2 key]
  · rw [hwalk]
    exact inserted_spec.1
  · rw [hwalk]
    exact inserted_spec.2 key

theorem exactly_dense (hdense : c.dense = true)
    (hmarked : Marked c.min keys n (c.bits, c.count))
    (hbounds : ∀ key ∈ keys, c.min ≤ key ∧ key ≤ c.max)
    (hrange : ∀ key, c.min ≤ key → key ≤ c.max
      → distance c.min key / 64 < n) : Exactly keys c := by
  have hmem : ∀ i, i ∈ Bitmap.positions c.bits 0
      ↔ ∃ key ∈ keys, distance c.min key = i := by
    intro i
    rw [Bitmap.mem_positions (by decide), ← hmarked.test_iff]
    simp
  refine ⟨fun key => ?_, hmarked.count, ?_, fun key => ?_⟩
  · rw [VectorCandidates.contains, if_pos hdense]
    by_cases hout : key < c.min ∨ c.max < key
    · have hkey : key ∉ keys := by
        intro hkey
        have := hbounds key hkey
        rw [BitVec.le_def, BitVec.le_def] at this
        rw [BitVec.lt_def, BitVec.lt_def] at hout
        omega
      rw [if_pos hout, decide_eq_false hkey]
    · have hin : c.min ≤ key ∧ key ≤ c.max := by
        rw [BitVec.lt_def, BitVec.lt_def] at hout
        rw [BitVec.le_def, BitVec.le_def]
        omega
      have hlt := hrange key hin.1 hin.2
      obtain ⟨word, hword⟩ : ∃ word, c.bits[distance c.min key / 64]?
          = some word :=
        ⟨_, List.getElem?_eq_getElem (hmarked.length ▸ hlt)⟩
      rw [if_neg hout]
      dsimp only
      rw [toNat_shift, hword, Option.map_some, BitVec.ushiftRight_eq',
        toNat_mask, Option.some_inj, decide_eq_decide,
        Bitmap.ushiftRight_and_one_ne_zero (by decide),
        ← Bitmap.test_of_getElem? hword]
      exact hmarked.test_key key
  · rw [forEach_dense hdense]
    refine List.Nodup.map_on ?_ (Bitmap.nodup_positions (by decide))
    intro i hi j hj hij
    obtain ⟨key, -, hkey⟩ := (hmem i).1 hi
    obtain ⟨other, -, hother⟩ := (hmem j).1 hj
    rw [← hkey, ← hother, add_distance, add_distance] at hij
    rw [← hkey, ← hother, hij]
  · rw [forEach_dense hdense, List.mem_map]
    constructor
    · intro hex
      obtain ⟨i, hi, heq⟩ := hex
      obtain ⟨other, hother, hi⟩ := (hmem i).1 hi
      rw [← hi, add_distance] at heq
      exact heq ▸ hother
    · intro hkey
      exact ⟨distance c.min key, (hmem _).2 ⟨key, hkey, rfl⟩,
        add_distance c.min key⟩

/-- Candidates are exactly their keys, however these are represented. -/
theorem candidates_exact (keys : List (BitVec 64)) :
    ∃ c, ofKeys keys = some c ∧ Exactly keys c := by
  cases keys with
  | nil => exact ⟨{}, rfl, exactly_sparse rfl rfl rfl⟩
  | cons first rest =>
    obtain ⟨hbounds, -⟩ := bounds_spec (first :: rest) first
    unfold ofKeys
    dsimp only
    generalize first :: rest = keys at *
    generalize (bounds keys first).1 = min at *
    generalize (bounds keys first).2 = max at *
    split
    · next hchoice =>
      have hrange : ∀ key, min ≤ key → key ≤ max
          → distance min key / 64 < lastWord min max + 1 :=
        fun key => distance_div_lt hchoice.1
      obtain ⟨state, hfold, hmarked⟩ :=
        (Marked.nil min _).foldlM
          fun key hkey => hrange key (hbounds key hkey).1
            (hbounds key hkey).2
      rw [List.nil_append] at hmarked
      rw [hfold, Option.map_some]
      refine ⟨_, rfl, ?_⟩
      split
      · exact exactly_sparse rfl rfl hmarked.count
      · exact exactly_dense rfl hmarked hbounds hrange
    · refine ⟨_, rfl, exactly_sparse rfl rfl ?_⟩
      show (inserted keys).length = keys.toFinset.card
      rw [← List.toFinset_card_of_nodup inserted_spec.1]
      congr 1
      ext key
      rw [List.mem_toFinset, List.mem_toFinset, inserted_spec.2]

end BarqSync.Vector.VectorCandidates
