/-
The builder of index sets.

`Built b l` relates a builder to the ranges pushed so far: the chunks
behind it are full and right, the chunk being filled is right but for
its end, and the reserved chunks ahead are empty. A range that opens a
chunk beyond the reserved ones is counted as one index, so pushing keeps
`Built` when the range is a single index or a reserved chunk is left.
-/
import BarqSync.ObjectStore.Proofs.Shifts

namespace BarqSync.ObjectStore

open Ranges ChunkedRangeVector ChunkedRangeVectorBuilder

variable {build : Build} {v : IndexSet build}
  {b : ChunkedRangeVectorBuilder build} {l : List (ℕ × ℕ)}
  {r : ℕ × ℕ} {exact : Prop} {reserved : ℕ} {done spare : List Chunk}
  {cur c : Chunk}

-- ===== the builder

/-- The chunk with its end set. -/
def Chunk.closed (c : Chunk) : Chunk :=
  { c with stop := (c.data.getLastD (0, 0)).2 }

theorem Chunk.closed_ok : c.closed.Ok build ↔ c.data ≠ []
    ∧ c.data.length ≤ build.maxSize ∧ c.start = (c.data.headD (0, 0)).1
    ∧ c.count = total c.data :=
  ⟨fun h => ⟨h.nonempty, h.size, h.start, h.count⟩,
    fun h => ⟨h.1, h.2.1, h.2.2.1, rfl, h.2.2.2⟩⟩

/-- The ranges pushed so far, in a builder of `reserved` chunks: full
chunks, the one that is filled now and empty ones. The caches are right
if `exact` is. -/
structure Laid (exact : Prop) (reserved : ℕ)
    (b : ChunkedRangeVectorBuilder build) (l : List (ℕ × ℕ))
    (done : List Chunk) (cur : Chunk) (spare : List Chunk) : Prop where
  chunks : b.chunks = done ++ cur :: spare
  pos : b.outerPos = done.length
  ranges : l = flat done ++ cur.data
  first : cur.data = [] → done = []
  empty : ∀ c ∈ spare, c = ({} : Chunk)
  room : reserved ≤ done.length + 1 + spare.length
  full : exact → ∀ c ∈ done, c.Ok build ∧ c.data.length = build.maxSize
  filled : exact → cur.data ≠ [] → cur.closed.Ok build

/-- So laid out in some way. -/
def Built (exact : Prop) (reserved : ℕ)
    (b : ChunkedRangeVectorBuilder build) (l : List (ℕ × ℕ)) : Prop :=
  ∃ done cur spare, Laid exact reserved b l done cur spare

theorem built_new (v : ChunkedRangeVector build) :
    Built exact (v.ranges.length / build.maxSize + 1)
      (ChunkedRangeVectorBuilder.new v) [] := by
  refine ⟨[], {}, List.replicate (v.ranges.length / build.maxSize) {},
    List.replicate_succ, rfl, rfl, by simp, ?_, by simp [Nat.add_comm],
    by simp, by simp⟩
  intro c hc
  exact (List.mem_replicate.1 hc).2

theorem setChunk_chunks (hchunks : b.chunks = done ++ cur :: spare)
    (hpos : b.outerPos = done.length) :
    (b.setChunk c).chunks = done ++ c :: spare := by
  rw [setChunk, hchunks, hpos, set_at]

theorem total_concat (l : List (ℕ × ℕ)) (r : ℕ × ℕ) :
    total (l ++ [r]) = total l + (r.2 - r.1) := by
  simp [total_append, total]

/-- Full chunks hold as many ranges as they can. -/
theorem length_flat_full (h : ∀ c ∈ done, c.data.length = build.maxSize) :
    (flat done).length = done.length * build.maxSize := by
  induction done with
  | nil => simp
  | cons c done ih =>
    rw [flat_cons, List.length_append, h c (by simp),
      ih fun c hc => h c (by simp [hc]), List.length_cons, Nat.succ_mul,
      Nat.add_comm]

section

variable (h : Laid exact reserved b l done cur spare)

include h

theorem Laid.chunk : b.chunk = cur := by
  rw [ChunkedRangeVectorBuilder.chunk, h.chunks, h.pos, getD_at]

/-- The chunk that is filled now is changed. -/
theorem Laid.setChunk (hne : c.data ≠ [])
    (hok : exact → c.closed.Ok build) :
    Built exact reserved (b.setChunk c) (flat done ++ c.data) :=
  ⟨done, c, spare, setChunk_chunks h.chunks h.pos, h.pos, rfl,
    fun hnil => absurd hnil hne, h.empty, h.room, h.full, fun he _ => hok he⟩

/-- The chunk that is filled now is closed, and a range begins another
one. -/
theorem Laid.next {b' : ChunkedRangeVectorBuilder build}
    (hne : cur.data ≠ []) (hmax : ¬cur.data.length < build.maxSize)
    (hchunks : b'.chunks = done ++ cur.closed :: c :: spare.tail)
    (hpos : b'.outerPos = done.length + 1) (hdata : c.data = [r])
    (hok : exact → c.closed.Ok build) :
    Built exact reserved b' (l ++ [r]) := by
  refine ⟨done ++ [cur.closed], c, spare.tail, by simp [hchunks],
    by simp [hpos], by simp [h.ranges, hdata, Chunk.closed],
    by simp [hdata], fun c hc => h.empty c (List.mem_of_mem_tail hc), ?_,
    fun he => List.forall_mem_append.2 ⟨h.full he,
      List.forall_mem_singleton.2 ⟨h.filled he hne, ?_⟩⟩,
    fun he _ => hok he⟩
  · have := h.room
    simp only [List.length_append, List.length_singleton,
      List.length_tail]
    omega
  · exact le_antisymm (h.filled he hne).size (Nat.le_of_not_lt hmax)

/-- A range that needs another chunk. Behind the reserved ones, its chunk
is given the count 1. -/
theorem Laid.pushBack_full (hne : cur.data ≠ [])
    (hmax : ¬cur.data.length < build.maxSize)
    (hjoin : r.1 ≠ (cur.data.getLastD (0, 0)).2)
    (hok : exact → r.2 = r.1 + 1 ∨ l.length < reserved * build.maxSize) :
    Built exact reserved (b.pushBack r) (l ++ [r]) := by
  rw [ChunkedRangeVectorBuilder.pushBack]
  simp only [h.chunk]
  rw [if_neg (by simp [hne]), if_neg hjoin, if_neg hmax]
  have hset : (b.setChunk { cur with stop := _ }).chunks
      = done ++ cur.closed :: spare := setChunk_chunks h.chunks h.pos
  have hpos : (b.setChunk { cur with stop :=
      (cur.data.getLastD (0, 0)).2 }).outerPos = done.length := h.pos
  rw [hset, hpos]
  cases spare with
  | nil =>
    rw [if_pos (by simp)]
    refine h.next (c := ⟨[r], r.1, 0, 1⟩) hne hmax (by simp) rfl rfl
      fun he => ?_
    have hone : r.2 = r.1 + 1 := by
      rcases hok he with hok | hok
      · exact hok
      · -- no reserved chunk is left, so all of them are full
        have hsize : build.maxSize ≤ cur.data.length := by omega
        rw [h.ranges, List.length_append, length_flat_full
          (fun c hc => (h.full he c hc).2)] at hok
        have := Nat.mul_le_mul_right build.maxSize
          (show reserved ≤ done.length + 1 by simpa using h.room)
        rw [Nat.add_one_mul] at this
        omega
    have hsingle := @ok_singleton build r
    rw [hone, Nat.add_sub_cancel_left] at hsingle
    simpa [Chunk.closed, hone] using hsingle
  | cons c spare =>
    rw [if_neg (by simp)]
    obtain rfl : c = {} := h.empty c (by simp)
    have happ : done ++ cur.closed :: {} :: spare
        = (done ++ [cur.closed]) ++ {} :: spare := by simp
    have hnext : (⟨done ++ cur.closed :: {} :: spare, done.length + 1⟩
        : ChunkedRangeVectorBuilder build).chunk = {} := by
      rw [ChunkedRangeVectorBuilder.chunk, happ]
      simp
    rw [hnext]
    refine h.next (c := ⟨[r], r.1, 0, r.2 - r.1⟩) hne hmax ?_ rfl rfl
      fun _ => ok_singleton r
    rw [setChunk_chunks happ (by simp)]
    simp

/-- A range that the chunk that is filled now takes. -/
theorem Laid.pushBack_room (hroom : cur.data.length < build.maxSize
      ∨ r.1 = (cur.data.getLastD (0, 0)).2)
    (hok : exact → r.1 < r.2 ∧ ∀ t ∈ l, t.1 < t.2) :
    Built exact reserved (b.pushBack r) (push l r) := by
  rw [ChunkedRangeVectorBuilder.pushBack]
  simp only [h.chunk]
  rcases List.eq_nil_or_concat' cur.data with hnil | ⟨d, p, hd⟩
  · -- the first range of all
    obtain rfl := h.first hnil
    rw [if_pos (by simp [hnil]), h.ranges, hnil]
    exact h.setChunk (by simp) fun _ => ok_singleton r
  have hback : cur.data.getLastD (0, 0) = p := by
    rw [hd, getLastD_at]
    rfl
  rw [hback] at hroom ⊢
  rw [if_neg (by simp [hd]), h.ranges, hd, ← List.append_assoc, push_concat]
  by_cases hjoin : r.1 = p.2
  · -- the range continues the last one
    rw [if_pos hjoin, if_pos hjoin.symm, List.append_assoc,
      List.dropLast_concat]
    refine h.setChunk (by simp) fun he => Chunk.closed_ok.2 ?_
    obtain ⟨-, hlen, hstart, hcount⟩ :=
      Chunk.closed_ok.1 (h.filled he (by simp [hd]))
    obtain ⟨hr, hne⟩ := hok he
    have hpne : p.1 < p.2 := hne p (by simp [h.ranges, hd])
    rw [hd] at hlen hstart hcount
    refine ⟨by simp, by simpa using hlen, ?_, ?_⟩
    · cases d <;> exact hstart
    · rw [total_concat] at hcount ⊢
      simp only
      omega
  · -- the chunk has room
    have hlt := hroom.resolve_right hjoin
    rw [hd] at hlt
    rw [if_neg hjoin, if_neg (Ne.symm hjoin), if_pos hlt]
    rw [show flat done ++ d ++ [p, r] = flat done ++ (d ++ [p] ++ [r]) by
      simp]
    refine h.setChunk (by simp) fun he => Chunk.closed_ok.2 ?_
    obtain ⟨-, -, hstart, hcount⟩ :=
      Chunk.closed_ok.1 (h.filled he (by simp [hd]))
    rw [hd] at hstart hcount
    refine ⟨by simp, ?_, ?_, ?_⟩
    · simp only [List.length_append, List.length_singleton] at hlt ⊢
      omega
    · cases d <;> exact hstart
    · rw [total_concat, ← hcount]

end

/-- What a push leaves. The caches stay right where the range is one index
or a reserved chunk has room for it. -/
theorem Built.pushBack (h : Built exact reserved b l)
    (hok : exact → r.1 < r.2 ∧ (∀ t ∈ l, t.1 < t.2)
      ∧ (r.2 = r.1 + 1 ∨ l.length < reserved * build.maxSize)) :
    Built exact reserved (b.pushBack r) (push l r) := by
  obtain ⟨done, cur, spare, h⟩ := h
  by_cases hroom : cur.data.length < build.maxSize
      ∨ r.1 = (cur.data.getLastD (0, 0)).2
  · exact h.pushBack_room hroom fun he => ⟨(hok he).1, (hok he).2.1⟩
  rw [not_or] at hroom
  have hsize := build.maxSize_eq
  obtain ⟨d, p, hd⟩ := List.eq_nil_or_concat' cur.data |>.resolve_left
    fun hnil => hroom.1 (by rw [hnil, List.length_nil]; omega)
  have hpush : push l r = l ++ [r] := by
    have hne : r.1 ≠ p.2 := by simpa [hd] using hroom.2
    rw [h.ranges, hd, ← List.append_assoc, push_concat, if_neg (Ne.symm hne)]
    simp
  rw [hpush]
  exact h.pushBack_full (by simp [hd]) hroom.1 hroom.2 fun he => (hok he).2.2

/-- The vector a builder leaves. -/
theorem Built.finalize (h : Built exact reserved b l) :
    (exact → Cached b.finalize) ∧ b.finalize.ranges = l := by
  obtain ⟨done, cur, spare, h⟩ := h
  have htake : b.chunks.take (b.outerPos + 1) = done ++ [cur] := by
    rw [h.chunks, h.pos]
    simp [List.take_append]
  have hlast : (done ++ [cur]).getLastD {} = cur := by
    rw [getLastD_at]
    rfl
  rw [ChunkedRangeVectorBuilder.finalize, h.ranges]
  simp only [htake, hlast]
  rw [if_neg (by simp)]
  by_cases hempty : cur.data = []
  · rw [if_pos (by simp [hempty]), h.first hempty]
    exact ⟨fun _ c hc => (nomatch hc), by simp [ranges_eq_flat, hempty]⟩
  · rw [if_neg (by simp [hempty])]
    refine ⟨?_, by simp [ranges_eq_flat]⟩
    intro he c hc
    rw [List.dropLast_concat, List.mem_append, List.mem_singleton] at hc
    rcases hc with hc | rfl
    · exact (h.full he c hc).1
    · exact h.filled he hempty

theorem Built.imp {exact' : Prop} (himp : exact' → exact) :
    Built exact reserved b l → Built exact' reserved b l
  | ⟨done, cur, spare, h⟩ => ⟨done, cur, spare, { h with
      full := h.full ∘ himp, filled := h.filled ∘ himp }⟩

-- ===== increasing pushes

/-- The builder holds a separated list that ends by `top`. -/
structure Filled (exact : Prop) (reserved : ℕ)
    (b : ChunkedRangeVectorBuilder build) (l : List (ℕ × ℕ)) (top : ℕ) :
    Prop where
  built : Built exact reserved b l
  separated : Separated l
  below : ∀ t ∈ l, t.2 ≤ top

theorem filled_new (v : ChunkedRangeVector build) :
    Filled exact (v.ranges.length / build.maxSize + 1)
      (ChunkedRangeVectorBuilder.new v) [] 0 :=
  ⟨built_new v, separated_nil, fun _ ht => nomatch ht⟩

variable {top i : ℕ} {is : List ℕ}

section

variable (h : Filled exact reserved b l top)

include h

theorem Filled.pushBack (hr : r.1 < r.2) (htop : top ≤ r.1)
    (hok : exact → r.2 = r.1 + 1 ∨ l.length < reserved * build.maxSize) :
    Filled exact reserved (b.pushBack r) (push l r) r.2
      ∧ ∀ j, Covers (push l r) j ↔ Covers l j ∨ r.1 ≤ j ∧ j < r.2 := by
  obtain ⟨hs, hle, hmem⟩ := h.separated.push
    (fun t ht => (h.below t ht).trans htop) hr
  exact ⟨⟨h.built.pushBack fun he => ⟨hr, h.separated.nonempty, hok he⟩,
    hs, hle⟩, hmem⟩

theorem Filled.pushIndex (htop : top ≤ i) :
    Filled exact reserved (b.pushIndex i) (push l (i, i + 1)) (i + 1)
      ∧ ∀ j, Covers (push l (i, i + 1)) j ↔ Covers l j ∨ j = i := by
  obtain ⟨hf, hmem⟩ := @Filled.pushBack _ _ _ (i, i + 1) _ _ _ h
    (Nat.lt_succ_self i) htop fun _ => .inl rfl
  refine ⟨hf, fun j => ?_⟩
  rw [hmem]
  simp only
  refine or_congr_right ?_
  omega

/-- What the builder leaves of increasing indexes. -/
theorem Filled.pushIndexes
    (his : is.Pairwise (· < ·)) (htop : ∀ i ∈ is, top ≤ i) :
    ∃ top', Filled exact reserved
        (is.foldl ChunkedRangeVectorBuilder.pushIndex b)
        (is.foldl (fun l i => push l (i, i + 1)) l) top'
      ∧ ∀ j, Covers (is.foldl (fun l i => push l (i, i + 1)) l) j
        ↔ Covers l j ∨ j ∈ is := by
  induction is generalizing b l top with
  | nil => exact ⟨top, h, by simp⟩
  | cons i is ih =>
    rw [List.pairwise_cons] at his
    obtain ⟨hf, hmem⟩ := h.pushIndex (htop i (by simp))
    obtain ⟨top', hf', hmem'⟩ := ih hf his.2 fun k hk => his.1 k hk
    refine ⟨top', hf', fun j => ?_⟩
    show Covers (is.foldl _ (push l (i, i + 1))) j ↔ _
    rw [hmem', hmem, List.mem_cons, or_assoc]

/-- A range that is pushed index by index. -/
theorem Filled.pushIndexes_range (hr : r.1 < r.2) (htop : top ≤ r.1) :
    Filled exact reserved ((List.range' r.1 (r.2 - r.1)).foldl
        ChunkedRangeVectorBuilder.pushIndex b) (push l r) r.2
      ∧ ∀ j, Covers (push l r) j ↔ Covers l j ∨ r.1 ≤ j ∧ j < r.2 := by
  obtain ⟨hs, hle, hmem⟩ := h.separated.push
    (fun t ht => (h.below t ht).trans htop) hr
  obtain ⟨top', hf, -⟩ := h.pushIndexes List.pairwise_lt_range'
    fun i hi => htop.trans (List.mem_range'_1.1 hi).1
  have hfold := @foldl_push_range' l r.1 (r.2 - r.1) (by omega)
  rw [Nat.add_sub_cancel' hr.le] at hfold
  rw [hfold] at hf
  exact ⟨⟨hf.built, hs, hle⟩, hmem⟩

/-- What the builder leaves in the end. -/
theorem Filled.finalize :
    (exact → WellFormed b.finalize) ∧ ∀ j, j ∈ b.finalize ↔ Covers l j := by
  obtain ⟨hc, hr⟩ := h.built.finalize
  exact ⟨fun he => ⟨hr ▸ h.separated, hc he⟩, fun j => by rw [mem_def, hr]⟩

end

end BarqSync.ObjectStore
