/-
Bitmaps: a list of words of one width, as a set of positions.

The position `i` is bit `i % w` of the word `i / w`. What a program does
with shifts and masks, in the word of a position, is related to `test` by
the lemmas on words. `ones` are the bits of a word that are set, in the
order in which a loop that shifts the word down comes to them.
-/
import Mathlib.Data.List.Nodup
import Mathlib.Algebra.Ring.Nat

namespace Bitmap

variable {w : ℕ} {word : BitVec w} {i n b k : ℕ} {words : List (BitVec w)}

-- ===== words

/-- A word has the bit of a mask of one bit. -/
theorem and_mask_ne_zero (hb : b < w) :
    word &&& (1#w <<< b) ≠ 0#w ↔ word.getLsbD b = true := by
  rw [← BitVec.twoPow_eq, BitVec.and_twoPow]
  split
  · next hbit =>
    refine iff_of_true ?_ hbit
    intro hzero
    have hget := congrArg (BitVec.getLsbD · b) hzero
    simp [hb] at hget
  · next hbit => simpa using hbit

/-- The bit that is shifted down to the first place. -/
theorem ushiftRight_and_one_ne_zero (hw : 0 < w) :
    (word >>> b) &&& 1#w ≠ 0#w ↔ word.getLsbD b = true := by
  have hbit : (word >>> b).getLsbD 0 = word.getLsbD b := by
    rw [BitVec.getLsbD_ushiftRight, Nat.add_zero]
  rw [← hbit, ← and_mask_ne_zero hw, BitVec.shiftLeft_zero]

theorem getLsbD_or_mask (hb : b < w) : (word ||| (1#w <<< b)).getLsbD i
      = (word.getLsbD i || decide (i = b)) := by
  rw [← BitVec.twoPow_eq, BitVec.getLsbD_or, BitVec.getLsbD_twoPow]
  simp [hb, eq_comm]

/-- The bits of a word that are set, of the first ones. -/
def ones (n : ℕ) (word : BitVec w) : List ℕ :=
  (List.range n).filter word.getLsbD

theorem mem_ones : i ∈ ones n word ↔ i < n ∧ word.getLsbD i = true := by
  simp [ones]

theorem nodup_ones : (ones n word).Nodup :=
  List.nodup_range.filter _

theorem ones_zero : ones n 0#w = [] := by
  simp [ones]

/-- The bits above the first one are those of the word shifted down. -/
theorem ones_succ : ones (n + 1) word
      = (if word.getLsbD 0 then [0] else [])
        ++ (ones n (word >>> 1)).map Nat.succ := by
  have hshift : (word.getLsbD ∘ Nat.succ) = (word >>> 1).getLsbD := by
    funext i
    rw [BitVec.getLsbD_ushiftRight, Function.comp_apply, Nat.add_comm]
  rw [ones, List.range_succ_eq_map, List.filter_cons, List.filter_map,
    hshift, ones]
  split <;> rfl

-- ===== bitmaps

/-- The position is set. -/
def test (words : List (BitVec w)) (i : ℕ) : Bool :=
  (words.getD (i / w) 0#w).getLsbD (i % w)

theorem test_of_getElem? (hget : words[i / w]? = some word) :
    test words i = word.getLsbD (i % w) := by
  rw [test, List.getD_eq_getElem?_getD, hget, Option.getD_some]

theorem test_replicate_zero : test (List.replicate n 0#w) i = false := by
  have hword : (List.replicate n 0#w).getD (i / w) 0#w = 0#w := by
    rw [List.getD_eq_getElem?_getD, List.getElem?_replicate]
    split <;> rfl
  rw [test, hword, BitVec.getLsbD_zero]

/-- A position is set, in its word. -/
theorem test_set {j : ℕ} (hw : 0 < w) (hget : words[i / w]? = some word) :
    test (words.set (i / w) (word ||| (1#w <<< (i % w)))) j
      = (test words j || decide (j = i)) := by
  have hlt := (List.getElem?_eq_some_iff.1 hget).1
  by_cases hsame : j / w = i / w
  · have hset : (words.set (i / w) (word ||| (1#w <<< (i % w))))[j / w]?
        = some (word ||| (1#w <<< (i % w))) := by
      rw [hsame]
      exact List.getElem?_set_self hlt
    have hiff : j % w = i % w ↔ j = i := by
      refine ⟨fun hmod => ?_, fun heq => heq ▸ rfl⟩
      rw [← Nat.div_add_mod j w, ← Nat.div_add_mod i w, hsame, hmod]
    rw [test_of_getElem? hset, test_of_getElem? (hsame ▸ hget),
      getLsbD_or_mask (Nat.mod_lt i hw), decide_eq_decide.2 hiff]
  · have hne : j ≠ i := fun heq => hsame (heq ▸ rfl)
    have hkeep : (words.set (i / w) (word ||| (1#w <<< (i % w)))).getD
        (j / w) 0#w = words.getD (j / w) 0#w := by
      rw [List.getD_eq_getElem?_getD, List.getElem?_set_ne
        (Ne.symm hsame), ← List.getD_eq_getElem?_getD]
    rw [test, hkeep, ← test, decide_eq_false hne, Bool.or_false]

/-- The positions that are set, word by word from some word on. -/
def positions (words : List (BitVec w)) (k : ℕ) : List ℕ :=
  (words.zipIdx k).flatMap fun word =>
    (ones w word.1).map (w * word.2 + ·)

theorem positions_cons : positions (word :: words) k
      = (ones w word).map (w * k + ·) ++ positions words (k + 1) := by
  rw [positions, List.zipIdx_cons, List.flatMap_cons]
  rfl

theorem test_cons_of_lt (hi : i < w) :
    test (word :: words) i = word.getLsbD i := by
  rw [test, Nat.div_eq_of_lt hi, Nat.mod_eq_of_lt hi]
  rfl

theorem test_cons_add (hw : 0 < w) :
    test (word :: words) (w + i) = test words i := by
  rw [test, Nat.add_div_left i hw, Nat.add_mod_left]
  rfl

theorem mem_positions (hw : 0 < w) : i ∈ positions words k
      ↔ ∃ j, i = w * k + j ∧ test words j = true := by
  induction words generalizing k with
  | nil => simp [positions, test]
  | cons word words ih =>
    rw [positions_cons, List.mem_append, List.mem_map, ih]
    constructor
    · intro hmem
      rcases hmem with hhere | hthere
      · obtain ⟨j, hj, heq⟩ := hhere
        obtain ⟨hlt, hbit⟩ := mem_ones.1 hj
        exact ⟨j, heq.symm, (test_cons_of_lt hlt).trans hbit⟩
      · obtain ⟨j, heq, htest⟩ := hthere
        refine ⟨w + j, ?_, (test_cons_add hw).trans htest⟩
        rw [heq, Nat.mul_succ, Nat.add_assoc]
    · intro hex
      obtain ⟨j, heq, htest⟩ := hex
      rcases Nat.lt_or_ge j w with hlt | hge
      · rw [test_cons_of_lt hlt] at htest
        exact .inl ⟨j, mem_ones.2 ⟨hlt, htest⟩, heq.symm⟩
      · obtain ⟨j', hj'⟩ := Nat.exists_eq_add_of_le hge
        rw [hj', test_cons_add hw] at htest
        refine .inr ⟨j', ?_, htest⟩
        rw [heq, hj', Nat.mul_succ, Nat.add_assoc]

theorem nodup_positions (hw : 0 < w) : (positions words k).Nodup := by
  induction words generalizing k with
  | nil => exact List.nodup_nil
  | cons word words ih =>
    rw [positions_cons]
    refine List.Nodup.append ?_ ih ?_
    · exact nodup_ones.map fun i j hij => Nat.add_left_cancel hij
    · intro i hhere hthere
      obtain ⟨j, hj, heq⟩ := List.mem_map.1 hhere
      obtain ⟨j', heq', -⟩ := (mem_positions hw).1 hthere
      have hlt := (mem_ones.1 hj).1
      rw [Nat.mul_succ] at heq'
      omega

end Bitmap
