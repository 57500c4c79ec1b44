/-
The operations of index sets that walk two increasing lists of indexes:
`insert_at`, `shift_for_insert_at` and `erase_at` of a set. What they
push is described by members and counts of members, and is increasing.
-/
import BarqSync.ObjectStore.Proofs.Builder

namespace BarqSync.ObjectStore

open Ranges ChunkedRangeVector ChunkedRangeVectorBuilder IndexSet

variable {build : Build} {v values positions : IndexSet build}
  {b : ChunkedRangeVectorBuilder build} {i : ℕ} {is js : List ℕ}

-- ===== two sorted lists

/-- In an increasing list the members below a bound are counted by
`Nat.count`. -/
theorem countP_lt_eq_count (hjs : js.Pairwise (· < ·)) [DecidablePred P]
    (hP : ∀ j, j ∈ js ↔ P j) (n : ℕ) :
    js.countP (fun j => decide (j < n)) = Nat.count P n := by
  have hset : (Finset.range n).filter P
      = (js.filter fun j => decide (j < n)).toFinset := by
    ext j
    simp only [Finset.mem_filter, Finset.mem_range, List.mem_toFinset,
      List.mem_filter, decide_eq_true_eq, hP]
    exact and_comm
  rw [Nat.count_eq_card_filter_range, hset,
    List.toFinset_card_of_nodup ((hjs.imp ne_of_lt).filter _),
    List.countP_eq_length_filter]

theorem countP_lt_eq_zero (h : ∀ j ∈ js, n ≤ j) :
    js.countP (fun j => decide (j < n)) = 0 := by
  refine List.countP_eq_zero.2 fun j hj => ?_
  have := h j hj
  simpa using this

theorem le_of_mem_cons {a k : ℕ} (h : (a :: js).Pairwise (· < ·))
    (hk : k ∈ a :: js) : a ≤ k := by
  rcases List.mem_cons.1 hk with rfl | hk
  · exact le_rfl
  · exact ((List.pairwise_cons.1 h).1 k hk).le

/-- An increasing list behind `a` has few members below `n`. -/
theorem countP_lt_le {js : List ℕ} (hjs : js.Pairwise (· < ·)) {a : ℕ}
    (h : ∀ j ∈ js, a ≤ j) (n : ℕ) :
    js.countP (fun j => decide (j < n)) ≤ n - a := by
  induction js generalizing a with
  | nil => simp
  | cons j js ih =>
    rw [List.pairwise_cons] at hjs
    have hj := h j (by simp)
    have := ih hjs.2 fun k hk => hjs.1 k hk
    rw [List.countP_cons]
    split
    · rename_i hlt
      simp only [decide_eq_true_eq] at hlt
      omega
    · omega

/-- The walk over the indexes of a set and the positions to insert: in
the order they are passed, the new places of the indexes (`true`) and
the positions (`false`). -/
def walk : ℕ → List ℕ → List ℕ → ℕ → List (Bool × ℕ)
  | fuel + 1, i :: is, j :: js, shift =>
    if i + shift < j then (true, i + shift) :: walk fuel is (j :: js) shift
    else (false, j) :: walk fuel (i :: is) js (shift + 1)
  | _, is, js, shift =>
    is.map (fun i => (true, i + shift)) ++ js.map fun j => (false, j)

section Walk

variable {fuel shift j : ℕ} {is js : List ℕ}

theorem insertAtMerge_eq : IndexSet.insertAtMerge fuel is js shift b
      = ((walk fuel is js shift).map Prod.snd).foldl
        ChunkedRangeVectorBuilder.pushIndex b := by
  fun_induction walk fuel is js shift generalizing b with
  | case1 fuel i is j js shift hlt ih =>
    rw [insertAtMerge, if_pos hlt, ih]
    rfl
  | case2 fuel i is j js shift hlt ih =>
    rw [insertAtMerge, if_neg hlt, ih]
    rfl
  | case3 fuel is js shift hne =>
    rw [insertAtMerge]
    · simp [List.map_map, List.foldl_map, Function.comp_def]
    · exact hne

theorem shiftForInsertAtMerge_eq :
    IndexSet.shiftForInsertAtMerge fuel is js shift b
      = (((walk fuel is js shift).filter Prod.fst).map Prod.snd).foldl
        ChunkedRangeVectorBuilder.pushIndex b := by
  fun_induction walk fuel is js shift generalizing b with
  | case1 fuel i is j js shift hlt ih =>
    rw [shiftForInsertAtMerge, if_pos hlt, ih]
    rfl
  | case2 fuel i is j js shift hlt ih =>
    rw [shiftForInsertAtMerge, if_neg hlt, ih]
    rfl
  | case3 fuel is js shift hne =>
    rw [shiftForInsertAtMerge]
    · simp [List.filter_map, List.map_map, List.foldl_map,
        Function.comp_def]
    · exact hne

/-- What is passed is a position or not below an index. -/
theorem walk_ge {x : Bool × ℕ} (hx : x ∈ walk fuel is js shift) :
    x.2 ∈ js ∨ ∃ i ∈ is, i + shift ≤ x.2 := by
  fun_induction walk fuel is js shift with
  | case1 fuel i is j js shift hlt ih =>
    rcases List.mem_cons.1 hx with rfl | hx
    · exact .inr ⟨i, by simp, le_rfl⟩
    · rcases ih hx with h | ⟨k, hk, hle⟩
      · exact .inl h
      · exact .inr ⟨k, by simp [hk], hle⟩
  | case2 fuel i is j js shift hlt ih =>
    rcases List.mem_cons.1 hx with rfl | hx
    · exact .inl (by simp)
    · rcases ih hx with h | ⟨k, hk, hle⟩
      · exact .inl (by simp [h])
      · exact .inr ⟨k, hk, by omega⟩
  | case3 fuel is js shift hne =>
    simp only [List.mem_append, List.mem_map] at hx
    rcases hx with ⟨i, hi, rfl⟩ | ⟨j, hj, rfl⟩
    · exact .inr ⟨i, hi, le_rfl⟩
    · exact .inl hj

/-- Without fuel, or with one list used up, one of them is empty. -/
theorem nil_or_nil (hfuel : is.length + js.length ≤ fuel)
    (hne : ∀ n i is' j js', fuel = n + 1 → is = i :: is' → js = j :: js'
      → False) : is = [] ∨ js = [] := by
  cases is with
  | nil => exact .inl rfl
  | cons i is =>
    cases js with
    | nil => exact .inr rfl
    | cons j js =>
      obtain ⟨n, rfl⟩ : ∃ n, fuel = n + 1 :=
        Nat.exists_eq_add_of_le' (by simp at hfuel; omega)
      exact (hne n i is j js rfl rfl rfl).elim

theorem walk_increasing (his : is.Pairwise (· < ·))
    (hjs : js.Pairwise (· < ·)) (hfuel : is.length + js.length ≤ fuel) :
    (walk fuel is js shift).Pairwise fun x y => x.2 < y.2 := by
  fun_induction walk fuel is js shift with
  | case1 fuel i is j js shift hlt ih =>
    rw [List.pairwise_cons] at his
    refine List.pairwise_cons.2 ⟨?_, ih his.2 hjs
      (by simp at hfuel ⊢; omega)⟩
    intro x hx
    show i + shift < x.2
    rcases walk_ge hx with h | ⟨k, hk, hle⟩
    · exact hlt.trans_le (le_of_mem_cons hjs h)
    · have := his.1 k hk
      omega
  | case2 fuel i is j js shift hlt ih =>
    rw [List.pairwise_cons] at hjs
    refine List.pairwise_cons.2 ⟨?_, ih his hjs.2
      (by simp at hfuel ⊢; omega)⟩
    intro x hx
    show j < x.2
    rcases walk_ge hx with h | ⟨k, hk, hle⟩
    · exact hjs.1 x.2 h
    · have := le_of_mem_cons his hk
      omega
  | case3 fuel is js shift hne =>
    rcases nil_or_nil hfuel hne with rfl | rfl
    · simpa [List.pairwise_map] using hjs
    · simpa [List.pairwise_map] using his

theorem false_mem_walk : (false, j) ∈ walk fuel is js shift ↔ j ∈ js := by
  fun_induction walk fuel is js shift with
  | case1 fuel i is j0 js shift hlt ih => simpa using ih
  | case2 fuel i is j0 js shift hlt ih =>
    rw [List.mem_cons, ih, List.mem_cons]
    simp
  | case3 fuel is js shift hne => simp

/-- An index is moved up by the positions before its new place, and its
new place is not a position. -/
theorem true_mem_walk (hjs : js.Pairwise (· < ·))
    (his : is.Pairwise (· < ·)) (hfuel : is.length + js.length ≤ fuel) :
    (true, j) ∈ walk fuel is js shift ↔ j ∉ js ∧ ∃ i ∈ is,
      i + shift + js.countP (fun k => decide (k < j)) = j := by
  fun_induction walk fuel is js shift with
  | case1 fuel i is j0 js shift hlt ih =>
    rw [List.pairwise_cons] at his
    rw [List.mem_cons, ih hjs his.2 (by simp at hfuel ⊢; omega)]
    have hge : ∀ k ∈ j0 :: js, j0 ≤ k := fun k => le_of_mem_cons hjs
    constructor
    · intro h
      rcases h with h | ⟨hno, k, hk, heq⟩
      · obtain rfl : j = i + shift := by simpa using h
        refine ⟨fun hmem => ?_, i, by simp, ?_⟩
        · have := hge _ hmem
          omega
        · rw [countP_lt_eq_zero fun k hk => by have := hge k hk; omega]
          omega
      · exact ⟨hno, k, by simp [hk], heq⟩
    · intro ⟨hno, k, hk, heq⟩
      rcases List.mem_cons.1 hk with rfl | hk
      · left
        by_cases hle : j ≤ j0
        · rw [countP_lt_eq_zero fun t ht => hle.trans (hge t ht)] at heq
          simp only [Prod.mk.injEq, true_and]
          omega
        · have := countP_lt_le hjs hge j
          omega
      · exact .inr ⟨hno, k, hk, heq⟩
  | case2 fuel i is j0 js shift hlt ih =>
    rw [List.pairwise_cons] at hjs
    rw [List.mem_cons, ih hjs.2 his (by simp at hfuel ⊢; omega),
      List.mem_cons]
    have hge : ∀ k ∈ i :: is, i ≤ k := fun k => le_of_mem_cons his
    constructor
    · intro h
      rcases h with h | ⟨hno, k, hk, heq⟩
      · simp at h
      · have := hge k hk
        refine ⟨?_, k, hk, ?_⟩
        · intro h
          rcases h with rfl | h
          · omega
          · exact hno h
        · rw [List.countP_cons, if_pos (by simp; omega)]
          omega
    · intro ⟨hno, k, hk, heq⟩
      have := hge k hk
      have hlt' : j0 < j := by
        have : j ≠ j0 := fun h => hno (.inl h)
        omega
      rw [List.countP_cons, if_pos (by simpa using hlt')] at heq
      exact .inr ⟨fun h => hno (.inr h), k, hk, by omega⟩
  | case3 fuel is js shift hne =>
    rcases nil_or_nil hfuel hne with rfl | rfl
    · simp
    · simp

/-- The walk over the indexes of a set and the positions to erase: the
new places of the indexes that stay. -/
def eraseWalk : ℕ → List ℕ → List ℕ → ℕ → List ℕ
  | fuel + 1, i :: is, j :: js, shift =>
    if i < j then (i - shift) :: eraseWalk fuel is (j :: js) shift
    else if i = j then eraseWalk fuel is js (shift + 1)
    else eraseWalk fuel (i :: is) js (shift + 1)
  | _, is, _, shift => is.map (· - shift)

theorem eraseAtMerge_eq : IndexSet.eraseAtMerge fuel is js shift b
      = (eraseWalk fuel is js shift).foldl
        ChunkedRangeVectorBuilder.pushIndex b := by
  fun_induction eraseWalk fuel is js shift generalizing b with
  | case1 fuel i is j js shift hlt ih =>
    rw [eraseAtMerge, if_pos hlt, ih]
    rfl
  | case2 fuel is j js shift hlt ih =>
    rw [eraseAtMerge, if_neg hlt, if_pos rfl, ih]
  | case3 fuel i is j js shift hlt hne ih =>
    rw [eraseAtMerge, if_neg hlt, if_neg hne, ih]
  | case4 fuel is js shift hne =>
    rw [eraseAtMerge]
    · simp [List.foldl_map]
    · exact hne

/-- An index that stays is moved down by the positions before it. -/
theorem mem_eraseWalk (hjs : js.Pairwise (· < ·))
    (his : is.Pairwise (· < ·)) (hfuel : is.length + js.length ≤ fuel) :
    j ∈ eraseWalk fuel is js shift ↔ ∃ i ∈ is, i ∉ js
      ∧ i - shift - js.countP (fun k => decide (k < i)) = j := by
  fun_induction eraseWalk fuel is js shift with
  | case1 fuel i is j0 js shift hlt ih =>
    rw [List.pairwise_cons] at his
    rw [List.mem_cons, ih hjs his.2 (by simp at hfuel ⊢; omega)]
    have hge : ∀ k ∈ j0 :: js, j0 ≤ k := fun k => le_of_mem_cons hjs
    have hzero : (j0 :: js).countP (fun k => decide (k < i)) = 0 :=
      countP_lt_eq_zero fun k hk => by have := hge k hk; omega
    have hno : i ∉ j0 :: js := fun h => by
      have := hge i h
      omega
    constructor
    · intro h
      rcases h with rfl | ⟨k, hk, h⟩
      · exact ⟨i, by simp, hno, by rw [hzero, Nat.sub_zero]⟩
      · exact ⟨k, by simp [hk], h⟩
    · intro ⟨k, hk, hkno, heq⟩
      rcases List.mem_cons.1 hk with rfl | hk
      · rw [hzero, Nat.sub_zero] at heq
        exact .inl heq.symm
      · exact .inr ⟨k, hk, hkno, heq⟩
  | case2 fuel is j0 js shift hlt ih =>
    rw [List.pairwise_cons] at his hjs
    rw [ih hjs.2 his.2 (by simp at hfuel ⊢; omega)]
    have hcount : ∀ k ∈ is, k ∉ js ↔ k ∉ j0 :: js := by
      intro k hk
      have := his.1 k hk
      rw [List.mem_cons, not_or]
      exact (and_iff_right (by omega)).symm
    have hsub : ∀ k ∈ is, k - (shift + 1)
          - js.countP (fun t => decide (t < k))
        = k - shift - (j0 :: js).countP (fun t => decide (t < k)) := by
      intro k hk
      have := his.1 k hk
      rw [List.countP_cons, if_pos (by simpa using this)]
      omega
    constructor
    · intro ⟨k, hk, hkno, heq⟩
      exact ⟨k, by simp [hk], (hcount k hk).1 hkno, hsub k hk ▸ heq⟩
    · intro ⟨k, hk, hkno, heq⟩
      rcases List.mem_cons.1 hk with rfl | hk
      · exact absurd (by simp) hkno
      · exact ⟨k, hk, (hcount k hk).2 hkno, (hsub k hk).trans heq⟩
  | case3 fuel i is j0 js shift hlt hne ih =>
    rw [List.pairwise_cons] at hjs
    rw [ih hjs.2 his (by simp at hfuel ⊢; omega)]
    refine exists_congr fun k => and_congr_right fun hk => ?_
    have hge := le_of_mem_cons his hk
    have : j0 < k := by omega
    rw [List.mem_cons, not_or, List.countP_cons,
      if_pos (by simpa using this)]
    refine and_congr (and_iff_right (by omega)).symm ?_
    omega
  | case4 fuel is js shift hne =>
    rcases nil_or_nil hfuel hne with rfl | rfl
    · simp
    · simp

/-- The indexes that stay keep their order. -/
theorem eraseWalk_increasing (his : is.Pairwise (· < ·))
    (hjs : js.Pairwise (· < ·)) (hfuel : is.length + js.length ≤ fuel)
    (hi : ∀ i ∈ is, shift ≤ i) (hj : ∀ j ∈ js, shift ≤ j) :
    (eraseWalk fuel is js shift).Pairwise (· < ·) := by
  fun_induction eraseWalk fuel is js shift with
  | case1 fuel i is j0 js shift hlt ih =>
    rw [List.pairwise_cons] at his
    have hfuel' : is.length + (j0 :: js).length ≤ fuel := by
      simp at hfuel ⊢
      omega
    refine List.pairwise_cons.2 ⟨?_, ih his.2 hjs hfuel'
      (fun k hk => hi k (by simp [hk])) hj⟩
    intro x hx
    obtain ⟨k, hk, -, rfl⟩ := (mem_eraseWalk hjs his.2 hfuel').1 hx
    have hik := his.1 k hk
    have hshift := hi i (by simp)
    have hcount := @countP_lt_le _ hjs (i + 1)
      (fun t ht => hlt.trans_le (le_of_mem_cons hjs ht)) k
    omega
  | case2 fuel is j0 js shift hlt ih =>
    rw [List.pairwise_cons] at his hjs
    have hshift := hj j0 (by simp)
    exact ih his.2 hjs.2 (by simp at hfuel ⊢; omega)
      (fun k hk => by have := his.1 k hk; omega)
      (fun k hk => by have := hjs.1 k hk; omega)
  | case3 fuel i is j0 js shift hlt hne ih =>
    rw [List.pairwise_cons] at hjs
    have hshift := hj j0 (by simp)
    refine ih his hjs.2 (by simp at hfuel ⊢; omega) ?_
      (fun k hk => by have := hjs.1 k hk; omega)
    intro k hk
    have := le_of_mem_cons his hk
    omega
  | case4 fuel is js shift hne =>
    rw [List.pairwise_map]
    refine his.imp_of_mem fun ha hb hlt => ?_
    have := hi _ ha
    omega

end Walk

theorem not_mem_of_empty (h : v.empty = true) : i ∉ v := by
  have hnil : v.chunks = [] := by simpa [empty] using h
  rw [mem_def, ranges_eq_flat, hnil]
  exact not_covers_nil

section

variable (hv : WellFormed v)

include hv

/-- Members end by the end of the last chunk. -/
theorem WellFormed.lt_stop : ∀ i ∈ v, i < (v.chunks.getLastD {}).stop := by
  intro i hi
  rcases List.eq_nil_or_concat' v.chunks with hnil | ⟨cs, c, hcs⟩
  · exact absurd hi (not_mem_of_empty (by simp [empty, hnil]))
  · obtain ⟨hle, -⟩ := hv.chunk_spec hcs
    rw [hcs, getLastD_at]
    refine Covers.lt hi fun t ht => ?_
    have hs := hv.separated
    have hok := hv.cached c (by simp [hcs])
    rw [ranges_eq_flat, hcs, flat_append] at hs ht
    simp only [flat_cons, flat_nil, List.append_nil] at hs ht
    rcases List.mem_append.1 ht with ht | ht
    · obtain ⟨p, d, hd⟩ := List.exists_cons_of_ne_nil hok.nonempty
      have hp : p ∈ c.data := by simp [hd]
      have := (separated_append.1 hs).2.2 t ht p hp
      have := (separated_append.1 hs).2.1.nonempty p hp
      have := hle p hp
      show t.2 ≤ c.stop
      omega
    · exact hle t ht

/-- Members begin from the start of the first chunk. -/
theorem WellFormed.start_le : ∀ i ∈ v, (v.chunks.headD {}).start ≤ i := by
  intro i hi
  cases hcs : v.chunks with
  | nil => exact absurd hi (not_mem_of_empty (by simp [empty, hcs]))
  | cons c cs =>
    have hok := hv.cached c (by simp [hcs])
    obtain ⟨p, d, hd⟩ := List.exists_cons_of_ne_nil hok.nonempty
    have hstart : c.start = p.1 := by rw [hok.start, hd]; rfl
    have hs := hv.separated
    have hranges : v.ranges = p :: (d ++ flat cs) := by
      rw [ranges_eq_flat, hcs, flat_cons, hd]
      rfl
    rw [hranges, separated_cons] at hs
    rw [mem_def, hranges] at hi
    refine Covers.ge hi fun t ht => ?_
    show c.start ≤ t.1
    rcases List.mem_cons.1 ht with rfl | ht
    · exact hstart.le
    · have := hs.2.1 t ht
      omega

theorem WellFormed.countP_asIndexes (n : ℕ) :
    v.asIndexes.countP (fun k => decide (k < n))
      = Nat.count (· ∈ v) n :=
  countP_lt_eq_count hv.asIndexes.1 hv.asIndexes.2 n

theorem WellFormed.insertAtSet (hp : WellFormed positions) :
    WellFormed (v.insertAtSet positions)
      ∧ ∀ j, j ∈ v.insertAtSet positions
        ↔ j ∈ positions ∨ j - Nat.count (· ∈ positions) j ∈ v := by
  rw [IndexSet.insertAtSet]
  by_cases hpe : positions.empty = true
  · rw [if_pos hpe]
    refine ⟨hv, fun j => ?_⟩
    have hzero : Nat.count (· ∈ positions) j = 0 :=
      Nat.count_iff_forall_not.2 fun k _ => not_mem_of_empty hpe
    rw [hzero, Nat.sub_zero]
    exact (or_iff_right (not_mem_of_empty hpe)).symm
  rw [if_neg hpe]
  by_cases hve : v.empty = true
  · rw [if_pos hve]
    exact ⟨hp, fun j => (or_iff_left (not_mem_of_empty hve)).symm⟩
  rw [if_neg hve, insertAtMerge_eq]
  obtain ⟨hvi, hvm⟩ := hv.asIndexes
  obtain ⟨hpi, hpm⟩ := hp.asIndexes
  generalize hfuel : v.asIndexes.length + positions.asIndexes.length
    = fuel
  obtain ⟨top, hf, hmem⟩ := (filled_new v).pushIndexes
    (List.pairwise_map.2 (@walk_increasing _ 0 _ _ hvi hpi hfuel.le))
    fun _ _ => Nat.zero_le _
  obtain ⟨hwf, hfin⟩ := hf.finalize
  refine ⟨hwf trivial, fun j => ?_⟩
  rw [hfin, hmem, or_iff_right not_covers_nil]
  have hcount := hp.countP_asIndexes j
  have hle := Nat.count_le (· ∈ positions) (n := j)
  constructor
  · intro h
    obtain ⟨⟨side, k⟩, hx, hk⟩ := List.mem_map.1 h
    obtain rfl : k = j := hk
    cases side with
    | false => exact .inl ((hpm k).1 (false_mem_walk.1 hx))
    | true =>
      obtain ⟨-, i, hi, heq⟩ := (true_mem_walk hpi hvi hfuel.le).1 hx
      have hplace : k - Nat.count (· ∈ positions) k = i := by omega
      exact .inr (hplace ▸ (hvm i).1 hi)
  · intro h
    by_cases hj : j ∈ positions
    · exact List.mem_map.2 ⟨(false, j), false_mem_walk.2 ((hpm j).2 hj),
        rfl⟩
    · have hi := h.resolve_left hj
      refine List.mem_map.2 ⟨(true, j), (true_mem_walk hpi hvi
        hfuel.le).2 ⟨mt (hpm j).1 hj, _, (hvm _).2 hi, ?_⟩, rfl⟩
      omega

theorem WellFormed.shiftForInsertAtSet (hp : WellFormed values) :
    WellFormed (v.shiftForInsertAtSet values)
      ∧ ∀ j, j ∈ v.shiftForInsertAtSet values
        ↔ j ∉ values ∧ j - Nat.count (· ∈ values) j ∈ v := by
  obtain ⟨hvi, hvm⟩ := hv.asIndexes
  obtain ⟨hpi, hpm⟩ := hp.asIndexes
  rw [IndexSet.shiftForInsertAtSet]
  by_cases hempty : v.empty = true ∨ values.empty = true
  · rw [if_pos hempty]
    refine ⟨hv, fun j => ?_⟩
    rcases hempty with hve | hpe
    · exact iff_of_false (not_mem_of_empty hve)
        fun h => not_mem_of_empty hve h.2
    · have hzero : Nat.count (· ∈ values) j = 0 :=
        Nat.count_iff_forall_not.2 fun k _ => not_mem_of_empty hpe
      rw [hzero, Nat.sub_zero]
      exact (and_iff_right (not_mem_of_empty hpe)).symm
  rw [if_neg hempty]
  by_cases hapart : (v.chunks.getLastD {}).stop
      ≤ (values.chunks.headD {}).start
  · -- every value lies behind the set
    rw [if_pos hapart]
    have hlt := hv.lt_stop
    have hge := hp.start_le
    refine ⟨hv, fun j => ?_⟩
    have hcount := hp.countP_asIndexes j
    have hle := countP_lt_le hpi (fun k hk => hge k ((hpm k).1 hk)) j
    rw [hcount] at hle
    constructor
    · intro hj
      have := hlt j hj
      have hzero : Nat.count (· ∈ values) j = 0 := by omega
      rw [hzero, Nat.sub_zero]
      refine ⟨fun h => ?_, hj⟩
      have := hge j h
      omega
    · intro ⟨_, hj⟩
      have := hlt _ hj
      have hzero : Nat.count (· ∈ values) j = 0 := by omega
      rwa [hzero, Nat.sub_zero] at hj
  rw [if_neg hapart, shiftForInsertAtMerge_eq]
  generalize hfuel : v.asIndexes.length + values.asIndexes.length
    = fuel
  obtain ⟨top, hf, hmem⟩ := (filled_new v).pushIndexes (List.pairwise_map.2
      ((@walk_increasing _ 0 _ _ hvi hpi hfuel.le).filter Prod.fst))
    fun _ _ => Nat.zero_le _
  obtain ⟨hwf, hfin⟩ := hf.finalize
  refine ⟨hwf trivial, fun j => ?_⟩
  rw [hfin, hmem, or_iff_right not_covers_nil]
  have hcount := hp.countP_asIndexes j
  have hle := Nat.count_le (· ∈ values) (n := j)
  constructor
  · intro h
    obtain ⟨⟨side, k⟩, hx, hk⟩ := List.mem_map.1 h
    obtain rfl : k = j := hk
    obtain ⟨hx, rfl⟩ : (side, k) ∈ walk fuel v.asIndexes
        values.asIndexes 0 ∧ side = true := List.mem_filter.1 hx
    obtain ⟨hno, i, hi, heq⟩ := (true_mem_walk hpi hvi hfuel.le).1 hx
    have hplace : k - Nat.count (· ∈ values) k = i := by omega
    exact ⟨mt (hpm k).2 hno, hplace ▸ (hvm i).1 hi⟩
  · intro ⟨hj, hi⟩
    refine List.mem_map.2 ⟨(true, j), List.mem_filter.2 ⟨?_, rfl⟩, rfl⟩
    refine (true_mem_walk hpi hvi hfuel.le).2
      ⟨mt (hpm j).1 hj, _, (hvm _).2 hi, ?_⟩
    omega

theorem WellFormed.eraseAtSet (hp : WellFormed positions) :
    WellFormed (v.eraseAtSet positions)
      ∧ ∀ j, j ∈ v.eraseAtSet positions ↔ ∃ i ∈ v, i ∉ positions
        ∧ i - Nat.count (· ∈ positions) i = j := by
  obtain ⟨hvi, hvm⟩ := hv.asIndexes
  obtain ⟨hpi, hpm⟩ := hp.asIndexes
  rw [IndexSet.eraseAtSet]
  by_cases hempty : v.empty = true ∨ positions.empty = true
  · rw [if_pos hempty]
    refine ⟨hv, fun j => ?_⟩
    rcases hempty with hve | hpe
    · refine iff_of_false (not_mem_of_empty hve) ?_
      intro ⟨i, hi, _⟩
      exact not_mem_of_empty hve hi
    · have hzero : ∀ i, Nat.count (· ∈ positions) i = 0 := fun i =>
        Nat.count_iff_forall_not.2 fun k _ => not_mem_of_empty hpe
      constructor
      · intro hj
        exact ⟨j, hj, not_mem_of_empty hpe, by rw [hzero, Nat.sub_zero]⟩
      · intro ⟨i, hi, _, heq⟩
        rw [hzero, Nat.sub_zero] at heq
        exact heq ▸ hi
  rw [if_neg hempty, eraseAtMerge_eq]
  generalize hfuel : v.asIndexes.length + positions.asIndexes.length
    = fuel
  obtain ⟨top, hf, hmem⟩ := (filled_new v).pushIndexes
    (@eraseWalk_increasing _ 0 _ _ hvi hpi hfuel.le (by simp) (by simp))
    fun _ _ => Nat.zero_le _
  obtain ⟨hwf, hfin⟩ := hf.finalize
  refine ⟨hwf trivial, fun j => ?_⟩
  rw [hfin, hmem, or_iff_right not_covers_nil,
    mem_eraseWalk hpi hvi hfuel.le]
  refine exists_congr fun i => ?_
  rw [hp.countP_asIndexes, hvm, hpm, Nat.sub_zero]

end

end BarqSync.ObjectStore
