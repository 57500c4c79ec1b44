/-
Chunk iterators as cursors over the flat list of ranges.

# The reading

`Cursor v it l1 l2` says that the caches of every chunk of `v` are right
and that the iterator `it` stands between the ranges `l1` and the ranges
`l2`. Each primitive of the vector (reading, stepping, changing a range
in place, inserting and erasing one, searching) has one specification
in these terms, so the operations of index sets are proved over lists
split at a cursor, and chunks are not seen again.

# Changes in place

A change in place keeps the shape of a vector, the lengths of its
chunks, and iterators depend on the shape alone (`Cursor.transfer`).
-/
import BarqSync.ObjectStore.IndexSet

namespace BarqSync.ObjectStore

open Ranges ChunkedRangeVector

-- ===== lists at a position

section Lists

variable {α : Type*} {l1 l2 : List α} {a b d : α}

theorem getD_at : (l1 ++ a :: l2).getD l1.length d = a := by
  simp [List.getD]

theorem modify_at {f : α → α} :
    (l1 ++ a :: l2).modify l1.length f = l1 ++ f a :: l2 := by
  induction l1 with
  | nil => rfl
  | cons x l ih => simpa using ih

theorem set_at : (l1 ++ a :: l2).set l1.length b = l1 ++ b :: l2 := by
  simp

theorem eraseIdx_at : (l1 ++ a :: l2).eraseIdx l1.length = l1 ++ l2 := by
  induction l1 with
  | nil => rfl
  | cons x l ih => simpa using ih

theorem insertIdx_at : (l1 ++ l2).insertIdx l1.length a
    = l1 ++ a :: l2 := by
  induction l1 with
  | nil => simp
  | cons x l ih => simpa using ih

theorem headD_at : (l1 ++ a :: l2).headD d = l1.headD a := by
  cases l1 <;> rfl

theorem getLastD_at : (l1 ++ a :: l2).getLastD d = l2.getLastD a := by
  induction l1 generalizing d with
  | nil => exact List.getLastD_cons ..
  | cons x l ih => rw [List.cons_append, List.getLastD_cons, ih]

/-- Where a search stops: before it nothing is found. -/
theorem findIdx_split (l : List α) (p : α → Bool) :
    ∃ a b, l = a ++ b ∧ a.length = l.findIdx p
      ∧ (∀ x ∈ a, p x = false) ∧ ∀ x ∈ b.head?, p x = true := by
  induction l with
  | nil => exact ⟨[], [], by simp⟩
  | cons x l ih =>
    by_cases hx : p x
    · exact ⟨[], x :: l, by simp [List.findIdx_cons, hx]⟩
    · obtain ⟨a, b, rfl, hlen, ha, hb⟩ := ih
      refine ⟨x :: a, b, rfl, ?_, ?_, hb⟩
      · simp [List.findIdx_cons, hx, hlen]
      · refine List.forall_mem_cons.2 ⟨?_, ha⟩
        simpa using hx

end Lists

-- ===== chunks

variable {build : Build} {v v' : ChunkedRangeVector build} {it : Iter}
  {l1 l2 : List (ℕ × ℕ)} {r r' : ℕ × ℕ} {c : Chunk} {a b : List (ℕ × ℕ)}

/-- The caches of a chunk are those of its ranges. -/
structure Chunk.Ok (build : Build) (c : Chunk) : Prop where
  nonempty : c.data ≠ []
  size : c.data.length ≤ build.maxSize
  start : c.start = (c.data.headD (0, 0)).1
  stop : c.stop = (c.data.getLastD (0, 0)).2
  count : c.count = total c.data

/-- The ranges of some chunks. -/
def flat (cs : List Chunk) : List (ℕ × ℕ) := cs.flatMap Chunk.data

@[simp] theorem flat_nil : flat [] = [] := rfl

@[simp] theorem flat_cons (c : Chunk) (cs : List Chunk) :
    flat (c :: cs) = c.data ++ flat cs := rfl

@[simp] theorem flat_append (cs1 cs2 : List Chunk) :
    flat (cs1 ++ cs2) = flat cs1 ++ flat cs2 := by
  simp [flat]

theorem ranges_eq_flat : v.ranges = flat v.chunks := rfl

theorem flat_eq_nil {cs : List Chunk} (hcs : ∀ c ∈ cs, c.Ok build) :
    flat cs = [] ↔ cs = [] := by
  cases cs with
  | nil => simp
  | cons c cs =>
    have := (hcs c (by simp)).nonempty
    simp [this]

/-- A range of a chunk is replaced and the caches with it. -/
theorem Chunk.Ok.replace {c' : Chunk} {d1 d2 : List (ℕ × ℕ)}
    (hc : c.Ok build) (hd : c.data = d1 ++ r :: d2)
    (hd' : c'.data = d1 ++ r' :: d2)
    (hstart : c'.start = if d1.length = 0 then r'.1 else c.start)
    (hstop : c'.stop
      = if d1.length + 1 = c.data.length then r'.2 else c.stop)
    (hcount : c'.count + (r.2 - r.1) = c.count + (r'.2 - r'.1)) :
    c'.Ok build := by
  refine ⟨by simp [hd'], ?_, ?_, ?_, ?_⟩
  · have := hc.size
    simp only [hd, hd', List.length_append, List.length_cons] at this ⊢
    exact this
  · rw [hstart, hc.start, hd, hd', headD_at, headD_at]
    cases d1 <;> simp
  · rw [hstop, hc.stop, hd, hd', getLastD_at, getLastD_at]
    cases d2 with
    | nil => simp
    | cons t d => simp [List.getLastD_cons, -List.getLastD_eq_getLast?]
  · have := hc.count
    rw [hd, total_append, total] at this
    rw [hd', total_append, total]
    omega

-- ===== cursors

/-- Every chunk's caches are right. -/
def Cached (v : ChunkedRangeVector build) : Prop :=
  ∀ c ∈ v.chunks, c.Ok build

/-- The iterator stands between `l1` and `l2`: in a chunk before one of
its ranges, or at the end. -/
inductive At (v : ChunkedRangeVector build) (it : Iter)
    (l1 l2 : List (ℕ × ℕ)) : Prop
  | mid (cs1 : List Chunk) (c : Chunk) (cs2 : List Chunk)
      (d1 : List (ℕ × ℕ)) (r : ℕ × ℕ) (d2 : List (ℕ × ℕ))
      (hv : v.chunks = cs1 ++ c :: cs2) (hc : c.data = d1 ++ r :: d2)
      (hit : it = ⟨cs1.length, d1.length⟩)
      (h1 : l1 = flat cs1 ++ d1) (h2 : l2 = r :: (d2 ++ flat cs2)) :
      At v it l1 l2
  | last (hit : it = v.endIt) (h1 : l1 = v.ranges) (h2 : l2 = []) :
      At v it l1 l2

/-- The caches are right and the iterator stands between `l1` and
`l2`. -/
structure Cursor (v : ChunkedRangeVector build) (it : Iter)
    (l1 l2 : List (ℕ × ℕ)) : Prop where
  cached : Cached v
  place : At v it l1 l2

/-- The chunk of an iterator that is not at the end. -/
theorem Cursor.mid (h : Cursor v it l1 (r :: l2)) :
    ∃ cs1 c cs2 d1 d2, v.chunks = cs1 ++ c :: cs2 ∧ c.data = d1 ++ r :: d2
      ∧ it = ⟨cs1.length, d1.length⟩ ∧ l1 = flat cs1 ++ d1
      ∧ l2 = d2 ++ flat cs2 ∧ c.Ok build ∧ v.chunk it = c := by
  cases h.place with
  | last hit h1 h2 => cases h2
  | mid cs1 c cs2 d1 r' d2 hv hc hit h1 h2 =>
    obtain ⟨rfl, rfl⟩ := List.cons.inj h2
    exact ⟨cs1, c, cs2, d1, d2, hv, hc, hit, h1, rfl,
      h.cached c (by simp [hv]), by rw [chunk, hit, hv, getD_at]⟩

/-- A chunk is replaced by others. -/
theorem Cached.replace {cs1 cs2 : List Chunk} (hv : Cached v)
    (h : v.chunks = cs1 ++ c :: cs2) (cs : List Chunk)
    (h' : v'.chunks = cs1 ++ (cs ++ cs2)) (hcs : ∀ c ∈ cs, c.Ok build) :
    Cached v' := by
  unfold Cached at hv ⊢
  rw [h, List.forall_mem_append, List.forall_mem_cons] at hv
  rw [h', List.forall_mem_append, List.forall_mem_append]
  exact ⟨hv.1, hcs, hv.2.2⟩

theorem Cursor.ranges (h : Cursor v it l1 l2) : v.ranges = l1 ++ l2 := by
  cases h.place with
  | mid cs1 c cs2 d1 r d2 hv hc hit h1 h2 =>
    simp [ranges_eq_flat, hv, hc, h1, h2]
  | last hit h1 h2 => simp [h1, h2]

/-- The iterator at the first range of a chunk, or at the end. -/
theorem cursor_chunk (hv : Cached v) {cs1 cs2 : List Chunk}
    (hcs : v.chunks = cs1 ++ cs2) :
    Cursor v ⟨cs1.length, 0⟩ (flat cs1) (flat cs2) := by
  refine ⟨hv, ?_⟩
  cases cs2 with
  | nil =>
    refine .last ?_ ?_ rfl
    · simp [endIt, hcs]
    · simp [ranges_eq_flat, hcs]
  | cons c cs =>
    have hc := (hv c (by simp [hcs])).nonempty
    obtain ⟨r, d, hd⟩ := List.exists_cons_of_ne_nil hc
    exact .mid cs1 c cs [] r d hcs hd rfl (by simp) (by simp [hd])

theorem cursor_begin (hv : Cached v) : Cursor v beginIt [] v.ranges :=
  @cursor_chunk _ _ hv [] _ rfl

theorem cursor_end (hv : Cached v) : Cursor v v.endIt v.ranges [] :=
  ⟨hv, .last rfl rfl rfl⟩

theorem Cursor.eq_end_iff (h : Cursor v it l1 l2) :
    it = v.endIt ↔ l2 = [] := by
  cases h.place with
  | mid cs1 c cs2 d1 r d2 hv hc hit h1 h2 =>
    simp [hit, h2, endIt, hv]
  | last hit h1 h2 => simp [hit, h2]

theorem Cursor.eq_begin_iff (h : Cursor v it l1 l2) :
    it = beginIt ↔ l1 = [] := by
  have hne := h.cached
  cases h.place with
  | mid cs1 c cs2 d1 r d2 hv hc hit h1 h2 =>
    have hcs : ∀ c ∈ cs1, c.Ok build :=
      fun c hc => hne c (by simp [hv, hc])
    simp [hit, h1, beginIt, flat_eq_nil hcs]
  | last hit h1 h2 =>
    simp [hit, h1, beginIt, endIt, ranges_eq_flat, flat_eq_nil hne]

theorem Cursor.get (h : Cursor v it l1 (r :: l2)) : v.get it = r := by
  obtain ⟨cs1, c, cs2, d1, d2, -, hc, hit, -, -, -, hchunk⟩ := h.mid
  rw [ChunkedRangeVector.get, hchunk, hit, hc, getD_at]

theorem Cursor.next (h : Cursor v it l1 (r :: l2)) :
    Cursor v (v.next it) (l1 ++ [r]) l2 := by
  obtain ⟨cs1, c, cs2, d1, d2, hv, hc, hit, h1, rfl, -, hchunk⟩ := h.mid
  cases d2 with
  | cons t d2 =>
    refine ⟨h.cached, .mid cs1 c cs2 (d1 ++ [r]) t d2 hv (by simp [hc]) ?_
      (by simp [h1]) (by simp)⟩
    rw [next, hchunk, hc, hit, if_neg (by simp)]
    simp
  | nil =>
    have hnext : v.next it = ⟨(cs1 ++ [c]).length, 0⟩ := by
      rw [next, hchunk, hc, hit, if_pos (by simp)]
      simp [nextChunk]
    have hplace := @cursor_chunk _ _ h.cached (cs1 ++ [c]) cs2 (by simp [hv])
    rw [hnext, h1]
    simpa [hc] using hplace

theorem Cursor.prev (h : Cursor v it (l1 ++ [r]) l2) :
    Cursor v (v.prev it) l1 (r :: l2) := by
  have hne := h.cached
  -- from the first range of a chunk, or the end, to the chunk before
  have back : ∀ cs1 cs2 k, v.chunks = cs1 ++ cs2 → cs1.length = k
      → flat cs1 = l1 ++ [r] → flat cs2 = l2
      → At v (v.prev ⟨k, 0⟩) l1 (r :: l2) := by
    intro cs1 cs2 k hv hk hl1 hl2
    rcases List.eq_nil_or_concat' cs1 with rfl | ⟨cs, c, rfl⟩
    · simp at hl1
    · rcases List.eq_nil_or_concat' c.data with hd | ⟨d, t, hd⟩
      · exact absurd hd (hne c (by simp [hv])).nonempty
      · have hlt := hl1
        simp only [flat_append, flat_cons, hd,
          flat_nil, List.append_nil, ← List.append_assoc] at hlt
        obtain ⟨rfl, ht⟩ := List.append_inj' hlt rfl
        obtain rfl : t = r := by simpa using ht
        refine .mid cs c cs2 d t [] (by simp [hv]) (by simp [hd]) ?_ rfl
          (by simp [hl2])
        rw [prev, if_pos rfl]
        simp only [← hk, hv, List.length_append, List.length_singleton,
          Nat.add_sub_cancel, List.append_assoc, List.singleton_append,
          getD_at, hd]
  refine ⟨hne, ?_⟩
  cases h.place with
  | last hit h1 h2 =>
    rw [hit, endIt]
    exact back v.chunks [] _ (by simp) rfl
      (by rw [h1, ranges_eq_flat]) (by simp [h2])
  | mid cs1 c cs2 d1 t d2 hv hc hit h1 h2 =>
    rcases List.eq_nil_or_concat' d1 with rfl | ⟨d, u, rfl⟩
    · rw [hit]
      exact back cs1 (c :: cs2) _ hv rfl (by simpa using h1.symm)
        (by simp [h2, hc])
    · have hl := h1
      simp only [← List.append_assoc] at hl
      obtain ⟨rfl, hu⟩ := List.append_inj' hl rfl
      obtain rfl : r = u := by simpa using hu
      refine .mid cs1 c cs2 d r (t :: d2) hv (by simp [hc]) ?_ rfl
        (by simp [h2])
      rw [prev, hit, if_neg (by simp)]
      simp

-- ===== changes in place

@[simp] theorem offsetBy_natCast (n c : ℕ) : offsetBy n c = n + c := by
  unfold offsetBy
  omega

@[simp] theorem offsetBy_zero (n : ℕ) : offsetBy n 0 = n :=
  offsetBy_natCast n 0

@[simp] theorem offsetBy_one (n : ℕ) : offsetBy n 1 = n + 1 :=
  offsetBy_natCast n 1

@[simp] theorem offsetBy_neg_one (n : ℕ) : offsetBy n (-1) = n - 1 := by
  unfold offsetBy
  omega

/-- The lengths of the chunks. -/
def shape (v : ChunkedRangeVector build) : List ℕ :=
  v.chunks.map fun c => c.data.length

/-- An iterator of a vector is one of every vector of the same shape. -/
theorem Cursor.transfer (h : Cursor v it l1 l2) (hv' : Cached v')
    (hshape : shape v' = shape v) {l1' l2' : List (ℕ × ℕ)}
    (hranges : v'.ranges = l1' ++ l2')
    (hlen : l1'.length = l1.length) : Cursor v' it l1' l2' := by
  have hsum : ∀ cs cs' : List Chunk,
      cs'.map (fun c => c.data.length) = cs.map (fun c => c.data.length)
      → (flat cs').length = (flat cs).length := by
    intro cs
    induction cs with
    | nil => intro cs' h; simp_all
    | cons c cs ih =>
      intro cs' h
      cases cs' with
      | nil => simp at h
      | cons c' cs' =>
        obtain ⟨h0, h⟩ := List.cons.inj h
        simp [h0, ih cs' h]
  refine ⟨hv', ?_⟩
  unfold shape at hshape
  cases h.place with
  | last hit h1 h2 =>
    have hl : l1'.length = v'.ranges.length := by
      rw [hlen, h1]
      exact (hsum _ _ hshape).symm
    have hnil : l2' = [] := by
      rw [hranges, List.length_append] at hl
      exact List.eq_nil_of_length_eq_zero (by omega)
    refine .last ?_ (by simp [hranges, hnil]) hnil
    rw [hit, endIt, endIt, ← List.length_map (fun c => c.data.length),
      ← hshape, List.length_map]
  | mid cs1 c cs2 d1 t d2 hv hc hit h1 h2 =>
    rw [hv, List.map_append, List.map_cons, List.map_eq_append_iff]
      at hshape
    obtain ⟨cs1', cs', hv', hcs1, hcs'⟩ := hshape
    obtain ⟨c', cs2', rfl, hc', hcs2⟩ := List.map_eq_cons_iff.1 hcs'
    obtain ⟨d1', e, hd', hd1⟩ : ∃ d1' e, c'.data = d1' ++ e
        ∧ d1'.length = d1.length :=
      ⟨c'.data.take d1.length, c'.data.drop d1.length, by simp,
        by simp [hc', hc]⟩
    obtain ⟨t', d2', rfl⟩ : ∃ t' d2', e = t' :: d2' := by
      cases e with
      | cons t' d2' => exact ⟨t', d2', rfl⟩
      | nil => simp [hd', hc, hd1] at hc'
    have hflat := hranges
    rw [ranges_eq_flat, hv', flat_append, flat_cons, hd',
      List.append_assoc, ← List.append_assoc] at hflat
    obtain ⟨h1', h2'⟩ := List.append_inj hflat (by
      rw [hlen, h1, List.length_append, List.length_append, hd1,
        hsum _ _ hcs1])
    exact .mid cs1' c' cs2' d1' t' d2' hv' hd'
      (by rw [hit, hd1, ← List.length_map (fun c : Chunk =>
        c.data.length), ← hcs1, List.length_map]) h1'.symm
      (by simpa using h2'.symm)

/-- A vector that differs from another in the range at an iterator. -/
structure Replaced (v v' : ChunkedRangeVector build)
    (l1 : List (ℕ × ℕ)) (r : ℕ × ℕ) (l2 : List (ℕ × ℕ)) : Prop where
  cached : Cached v'
  shape : shape v' = shape v
  ranges : v'.ranges = l1 ++ r :: l2

/-- The iterator at the range stands where it stood. -/
theorem Replaced.here (h : Replaced v v' l1 r' l2)
    (hc : Cursor v it l1 (r :: l2)) : Cursor v' it l1 (r' :: l2) :=
  hc.transfer h.cached h.shape h.ranges rfl

/-- So does the iterator behind the range. -/
theorem Replaced.behind (h : Replaced v v' l1 r' l2)
    (hc : Cursor v it (l1 ++ [r]) l2) : Cursor v' it (l1 ++ [r']) l2 :=
  hc.transfer h.cached h.shape (by simp [h.ranges]) (by simp)

section

variable (h : Cursor v it l1 (r :: l2))

include h

/-- A change of a chunk that replaces the range at the iterator. -/
theorem Cursor.modify (f : Chunk → Chunk)
    (hf : ∀ c d1 d2, c.Ok build → c.data = d1 ++ r :: d2
      → d1.length = it.inner
      → (f c).Ok build ∧ (f c).data = d1 ++ r' :: d2) :
    Replaced v (v.modifyChunk it f) l1 r' l2 := by
  obtain ⟨cs1, c, cs2, d1, d2, hv, hc, hit, h1, rfl, hok, -⟩ := h.mid
  have hchunks : (v.modifyChunk it f).chunks = cs1 ++ f c :: cs2 := by
    rw [modifyChunk, hit, hv, modify_at]
  obtain ⟨hok, hdata⟩ := hf c d1 d2 hok hc (by rw [hit])
  refine ⟨h.cached.replace hv [f c] hchunks (by simpa using hok), ?_, ?_⟩
  · simp [shape, hchunks, hv, hc, hdata]
  · simp [ranges_eq_flat, hchunks, hdata, h1]

theorem Cursor.set (front back : ℕ) :
    Replaced v (v.set it front back) l1 (front, back) l2 := by
  refine h.modify _ fun c d1 d2 hok hdata hlen => ?_
  have hset : c.data.set it.inner (front, back)
      = d1 ++ (front, back) :: d2 := by
    rw [hdata, ← hlen, set_at]
  refine ⟨hok.replace hdata hset (by simp [hlen]) (by simp [hlen]) ?_,
    hset⟩
  have hcount := hok.count
  rw [hdata, total_append, total] at hcount
  simp only [h.get]
  omega

theorem Cursor.adjust {front back : ℤ}
    (hr : r.1 ≤ r.2) (hfront : 0 ≤ r.1 + front)
    (hle : r.1 + front ≤ r.2 + back) :
    Replaced v (v.adjust it front back) l1
      (offsetBy r.1 front, offsetBy r.2 back) l2 := by
  refine h.modify _ fun c d1 d2 hok hdata hlen => ?_
  have hmod : c.data.modify it.inner
        (fun r => (offsetBy r.1 front, offsetBy r.2 back))
      = d1 ++ (offsetBy r.1 front, offsetBy r.2 back) :: d2 := by
    rw [hdata, ← hlen, modify_at]
  refine ⟨hok.replace hdata hmod ?_ ?_ ?_, hmod⟩
  · have := hok.start
    rw [hdata, headD_at] at this
    cases d1 with
    | nil => simp_all
    | cons x d => simp [← hlen]
  · have := hok.stop
    rw [hdata, getLastD_at] at this
    simp only [← hlen, hdata]
    cases d2 with
    | nil => simp_all
    | cons x d => simp
  · have hcount := hok.count
    rw [hdata, total_append, total] at hcount
    simp only [offsetBy]
    omega

end

theorem shiftIt_eq_adjust (distance : ℤ) :
    v.shiftIt it distance = v.adjust it distance distance := by
  have hzero : -distance + distance = 0 := by omega
  simp [shiftIt, adjust, offsetBy, hzero]

/-- The ranges from the iterator on are moved. -/
theorem Cursor.shiftUntilEndBy {distance : ℤ} {fuel : ℕ}
    (h : Cursor v it l1 l2)
    (hl2 : ∀ r ∈ l2, r.1 ≤ r.2 ∧ 0 ≤ (r.1 : ℤ) + distance)
    (hfuel : l2.length ≤ fuel) :
    Cached (ChunkedRangeVector.shiftUntilEndBy distance fuel v it)
      ∧ shape (ChunkedRangeVector.shiftUntilEndBy distance fuel v it)
        = shape v
      ∧ (ChunkedRangeVector.shiftUntilEndBy distance fuel v it).ranges
        = l1 ++ l2.map fun r =>
          (offsetBy r.1 distance, offsetBy r.2 distance) := by
  induction l2 generalizing v it l1 fuel with
  | nil =>
    have hend : it = v.endIt := h.eq_end_iff.2 rfl
    have hsame : shiftUntilEndBy distance fuel v it
        = v := by
      cases fuel with
      | zero => rfl
      | succ fuel => exact if_pos hend
    rw [hsame]
    exact ⟨h.cached, rfl, by simpa using h.ranges⟩
  | cons r l2 ih =>
    obtain ⟨fuel, rfl⟩ : ∃ n, fuel = n + 1 :=
      Nat.exists_eq_add_of_le' (by simp at hfuel; omega)
    have hr := hl2 r (by simp)
    have hmoved := h.adjust hr.1 hr.2 (Int.add_le_add_right (by omega) _)
    rw [← shiftIt_eq_adjust] at hmoved
    obtain ⟨hc, hs, hr⟩ := ih (hmoved.here h).next
      (fun t ht => hl2 t (by simp [ht])) (by simpa using hfuel)
    have hne : ¬ it = v.endIt := by simp [h.eq_end_iff]
    rw [shiftUntilEndBy, if_neg hne]
    exact ⟨hc, hs.trans hmoved.shape, by simpa using hr⟩

theorem Cursor.moveUp {count fuel : ℕ} (h : Cursor v it l1 l2)
    (hl2 : ∀ r ∈ l2, r.1 ≤ r.2) (hfuel : l2.length ≤ fuel) :
    Cached (ChunkedRangeVector.shiftUntilEndBy count fuel v it)
      ∧ shape (ChunkedRangeVector.shiftUntilEndBy count fuel v it)
        = shape v
      ∧ (ChunkedRangeVector.shiftUntilEndBy count fuel v it).ranges
        = l1 ++ Ranges.moveUp count l2 := by
  have := @Cursor.shiftUntilEndBy _ _ _ _ _ (count : ℤ) fuel h
    (fun r hr => ⟨hl2 r hr, by omega⟩) hfuel
  simpa [Ranges.moveUp] using this

theorem Cursor.moveDown {fuel : ℕ} (h : Cursor v it l1 l2)
    (hl2 : ∀ r ∈ l2, 1 ≤ r.1 ∧ r.1 ≤ r.2) (hfuel : l2.length ≤ fuel) :
    Cached (ChunkedRangeVector.shiftUntilEndBy (-1) fuel v it)
      ∧ (ChunkedRangeVector.shiftUntilEndBy (-1) fuel v it).ranges
        = l1 ++ Ranges.moveDown l2 := by
  have := @Cursor.shiftUntilEndBy _ _ _ _ _ (-1) fuel h
    (fun r hr => ⟨(hl2 r hr).2, by have := (hl2 r hr).1; omega⟩) hfuel
  exact ⟨this.1, by simpa [Ranges.moveDown] using this.2.2⟩

-- ===== whole ranges

theorem Build.maxSize_eq (build : Build) :
    build.maxSize = build.maxSize / 2 + build.maxSize / 2
      ∧ 2 ≤ build.maxSize / 2 := by
  cases build <;> decide

theorem ok_singleton (r : ℕ × ℕ) :
    Chunk.Ok build ⟨[r], r.1, r.2, r.2 - r.1⟩ := by
  have hsize := build.maxSize_eq
  exact ⟨by simp, by simp; omega, rfl, rfl, by simp [total]⟩

theorem Cached.pushBack (hv : Cached v) (r : ℕ × ℕ) :
    Cached (v.pushBack r) ∧ (v.pushBack r).ranges = v.ranges ++ [r] := by
  by_cases hroom : ¬ v.empty
      ∧ (v.chunks.getLastD {}).data.length < build.maxSize
  · obtain ⟨hne, hlen⟩ := hroom
    rcases List.eq_nil_or_concat' v.chunks with hcs | ⟨cs, c, hcs⟩
    · simp [empty, hcs] at hne
    · have hok := hv c (by simp [hcs])
      have hlast : v.chunks.getLastD {} = c := by
        rw [hcs, getLastD_at]
        rfl
      have hpush : (v.pushBack r).chunks = cs ++ [{ c with
            data := c.data ++ [r], count := c.count + (r.2 - r.1)
            stop := r.2 }] := by
        rw [hlast] at hlen
        simp only [ChunkedRangeVector.pushBack, hlast, hlen, hne]
        simp [hcs]
      refine ⟨?_, by simp [ranges_eq_flat, hpush, hcs]⟩
      intro c' hc'
      rw [hpush, List.mem_append, List.mem_singleton] at hc'
      rcases hc' with hc' | rfl
      · exact hv c' (by simp [hcs, hc'])
      · obtain ⟨t, d, hd⟩ := List.exists_cons_of_ne_nil hok.nonempty
        refine ⟨by simp, ?_, ?_, ?_, ?_⟩
        · rw [hlast] at hlen
          simpa [Nat.succ_le_iff] using hlen
        · simp [hok.start, hd]
        · simp only [getLastD_at]
          rfl
        · simp [hok.count, total_append, total]
  · have hpush : (v.pushBack r).chunks
        = v.chunks ++ [⟨[r], r.1, r.2, r.2 - r.1⟩] := by
      simp only [ChunkedRangeVector.pushBack, if_neg hroom]
    refine ⟨?_, by simp [ranges_eq_flat, hpush]⟩
    intro c hc
    rw [hpush, List.mem_append, List.mem_singleton] at hc
    rcases hc with hc | rfl
    · exact hv c hc
    · exact ok_singleton r

/-- The first half of a full chunk. -/
theorem Chunk.Ok.kept (hc : c.Ok build) (hd : c.data = a ++ b)
    (ha : a ≠ []) :
    Chunk.Ok build { c with
      data := a, stop := (a.getLastD (0, 0)).2
      count := c.count - total b } := by
  have hcount := hc.count
  have hsize := hc.size
  have hstart := hc.start
  rw [hd] at hcount hsize hstart
  rw [total_append] at hcount
  obtain ⟨t, a, rfl⟩ := List.exists_cons_of_ne_nil ha
  refine ⟨ha, ?_, hstart, rfl, ?_⟩
  · simp only [List.length_append] at hsize
    simp only
    omega
  · simp only
    omega

/-- Its second half. -/
theorem Chunk.Ok.moved (hc : c.Ok build) (hd : c.data = a ++ b)
    (hb : b ≠ []) :
    Chunk.Ok build
      ⟨b, (b.headD (0, 0)).1, (b.getLastD (0, 0)).2, total b⟩ := by
  have hsize := hc.size
  rw [hd, List.length_append] at hsize
  exact ⟨hb, by simp only; omega, rfl, rfl, rfl⟩

/-- The iterator stands where it stood, in a chunk with room. -/
theorem Cursor.ensureSpace (h : Cursor v it l1 (r :: l2)) :
    Cursor (v.ensureSpace it).1 (v.ensureSpace it).2 l1 (r :: l2)
      ∧ ((v.ensureSpace it).1.chunk (v.ensureSpace it).2).data.length + 1
        ≤ build.maxSize := by
  have hsize := build.maxSize_eq
  by_cases hroom : (v.chunk it).data.length + 1 ≤ build.maxSize
  · have hsame : v.ensureSpace it = (v, it) := if_pos hroom
    rw [hsame]
    exact ⟨h, hroom⟩
  obtain ⟨cs1, c, cs2, d1, d2, hv, hc, hit, h1, h2, hok, hchunk⟩ := h.mid
  have hfull : c.data.length = build.maxSize := by
    have := hok.size
    rw [hchunk] at hroom
    omega
  generalize hhalf : build.maxSize / 2 = half at hsize
  obtain ⟨a, b, hab, ha, hb⟩ : ∃ a b, c.data = a ++ b
      ∧ a = c.data.take half ∧ b = c.data.drop half :=
    ⟨_, _, (List.take_append_drop half c.data).symm, rfl, rfl⟩
  have halen : a.length = half := by
    rw [ha, List.length_take]
    omega
  have hblen : b.length = half := by
    rw [hb, List.length_drop]
    omega
  have hkept := hok.kept hab (List.ne_nil_of_length_pos (by omega))
  have hmoved := hok.moved hab (List.ne_nil_of_length_pos (by omega))
  generalize hck : ({ c with
    data := a, stop := (a.getLastD (0, 0)).2
    count := c.count - total b } : Chunk) = ck at hkept
  generalize hcm : (⟨b, (b.headD (0, 0)).1, (b.getLastD (0, 0)).2,
    total b⟩ : Chunk) = cm at hmoved
  obtain ⟨w, hspace, hw⟩ : ∃ w : ChunkedRangeVector build,
      v.ensureSpace it = (w, if half ≤ it.inner
        then ⟨it.outer + 1, it.inner - half⟩ else it)
      ∧ w.chunks = cs1 ++ ck :: cm :: cs2 := by
    refine ⟨⟨cs1 ++ ck :: cm :: cs2⟩, ?_, rfl⟩
    have htake : v.chunks.take it.outer = cs1 := by
      simp [hv, hit]
    have hdrop : v.chunks.drop (it.outer + 1) = cs2 := by
      simp [hv, hit]
    have hkeep : c.data.length - half = half := by omega
    have hover : ¬ c.data.length + 1 ≤ build.maxSize := by omega
    simp only [ChunkedRangeVector.ensureSpace, hchunk, if_neg hover,
      hhalf, htake, hdrop, hkeep, ← ha, ← hb, hck, hcm]
    split <;> simp
  have hcw : Cached w :=
    h.cached.replace hv [ck, cm] hw (by simpa using ⟨hkept, hmoved⟩)
  have hckd : ck.data = a := by rw [← hck]
  have hcmd : cm.data = b := by rw [← hcm]
  rw [hspace]
  by_cases hside : half ≤ d1.length
  · rw [hit, if_pos hside]
    have hsplit : d1.take half = a ∧ d1.drop half ++ r :: d2 = b := by
      constructor
      · rw [ha, hc, List.take_append_of_le_length hside]
      · rw [hb, hc, List.drop_append_of_le_length hside]
    refine ⟨⟨hcw, .mid (cs1 ++ [ck]) cm cs2 (d1.drop half) r d2
      (by simp [hw]) (by rw [hcmd, hsplit.2]) (by simp) ?_ (by rw [h2])⟩, ?_⟩
    · rw [h1, flat_append, flat_cons, hckd, ← hsplit.1]
      simp
    · have hat : w.chunks = (cs1 ++ [ck]) ++ cm :: cs2 := by simp [hw]
      have hlen : cs1.length + 1 = (cs1 ++ [ck]).length := by simp
      rw [chunk, hat, hlen, getD_at, hcmd]
      omega
  · rw [hit, if_neg hside]
    obtain ⟨e, he⟩ : ∃ e, a = d1 ++ r :: e ∧ d2 = e ++ b := by
      refine ⟨d2.take (half - d1.length - 1), ?_, ?_⟩
      · rw [ha, hc, List.take_append, List.take_of_length_le (by omega)]
        obtain ⟨k, hk⟩ : ∃ k, half - d1.length = k + 1 :=
          ⟨half - d1.length - 1, by omega⟩
        simp [hk]
      · rw [hb, hc, List.drop_append, List.drop_of_length_le (by omega)]
        obtain ⟨k, hk⟩ : ∃ k, half - d1.length = k + 1 :=
          ⟨half - d1.length - 1, by omega⟩
        simp [hk]
    refine ⟨⟨hcw, .mid cs1 ck (cm :: cs2) d1 r e hw
      (by rw [hckd, he.1]) rfl h1 ?_⟩, ?_⟩
    · rw [h2, he.2, flat_cons, hcmd]
      simp
    · rw [chunk, hw, getD_at, hckd]
      omega

theorem Cursor.insert (h : Cursor v it l1 l2) {value : ℕ × ℕ}
    (h1 : ∀ r ∈ l1, r.1 ≤ value.1)
    (h2 : ∀ r ∈ l2, value.1 ≤ r.1 ∧ value.2 ≤ r.2) :
    Cursor (v.insert it value).1 (v.insert it value).2 l1
      (value :: l2) := by
  cases l2 with
  | nil =>
    have hend := h.eq_end_iff.2 rfl
    have hranges : v.ranges = l1 := by simpa using h.ranges
    obtain ⟨hc, hr⟩ := h.cached.pushBack value
    rw [hranges] at hr
    have hlast := cursor_end hc
    rw [hr] at hlast
    rw [ChunkedRangeVector.insert, if_pos (by rw [hend]; rfl)]
    exact hlast.prev
  | cons r l2 =>
    obtain ⟨hspace, hroom⟩ := h.ensureSpace
    have hne : ¬ it.outer = v.chunks.length := by
      obtain ⟨cs1, c, cs2, d1, d2, hv, -, hit, -⟩ := h.mid
      simp [hit, hv]
    rw [ChunkedRangeVector.insert, if_neg hne]
    generalize v.ensureSpace it = spaced at hspace hroom
    obtain ⟨w, it⟩ := spaced
    simp only at hspace hroom ⊢
    obtain ⟨cs1, c, cs2, d1, d2, hw, hc, hit, e1, rfl, hok, hchunk⟩ :=
      hspace.mid
    rw [hchunk] at hroom
    have hdata : c.data.insertIdx it.inner value
        = d1 ++ value :: r :: d2 := by
      rw [hc, hit, insertIdx_at]
    have hstart := hok.start
    have hstop := hok.stop
    rw [hc, headD_at] at hstart
    rw [hc, getLastD_at] at hstop
    generalize hfc : (⟨c.data.insertIdx it.inner value,
      min c.start value.1, max c.stop value.2,
      c.count + (value.2 - value.1)⟩ : Chunk) = fc
    have hfcd : fc.data = d1 ++ value :: r :: d2 := by
      rw [← hfc, hdata]
    have hfok : fc.Ok build := by
      refine ⟨by simp [hfcd], ?_, ?_, ?_, ?_⟩
      · rw [hfcd]
        rw [hc] at hroom
        simp only [List.length_append, List.length_cons] at hroom ⊢
        omega
      · rw [hfcd, headD_at, ← hfc]
        cases d1 with
        | nil =>
          have := (h2 r (by simp)).1
          simp only [List.headD_nil] at hstart ⊢
          omega
        | cons x d =>
          have := h1 x (by simp [e1])
          simp only [List.headD_cons] at hstart ⊢
          omega
      · rw [hfcd, getLastD_at, List.getLastD_cons, ← hfc, ← hstop]
        refine Nat.max_eq_left ?_
        rw [hstop]
        refine (h2 _ ?_).2
        have := @List.getLastD_mem_cons _ d2 r
        rcases List.mem_cons.1 this with hlast | hlast
        · rw [hlast]
          exact List.mem_cons_self
        · exact List.mem_cons_of_mem _ (List.mem_append_left _ hlast)
      · rw [hfcd, ← hfc]
        have := hok.count
        rw [hc, total_append, total] at this
        simp only [total_append, total]
        omega
    have hchunks : (w.modifyChunk it fun c =>
        { data := c.data.insertIdx it.inner value
          count := c.count + (value.2 - value.1)
          start := min c.start value.1
          stop := max c.stop value.2 }).chunks
        = cs1 ++ fc :: cs2 := by
      rw [modifyChunk, hw, hit, modify_at, ← hfc, hit]
    exact ⟨hspace.cached.replace hw [fc] hchunks (by simpa using hfok),
      .mid cs1 fc cs2 d1 value (r :: d2) hchunks hfcd hit e1 (by simp)⟩

theorem Cursor.erase (h : Cursor v it l1 (r :: l2)) :
    Cursor (v.erase it).1 (v.erase it).2 l1 l2 := by
  obtain ⟨cs1, c, cs2, d1, d2, hv, hc, hit, h1, rfl, hok, hchunk⟩ := h.mid
  have hdata : c.data.eraseIdx it.inner = d1 ++ d2 := by
    rw [hc, hit, eraseIdx_at]
  rw [erase]
  simp only [hchunk, hdata]
  by_cases hempty : (d1 ++ d2).length = 0
  · -- the chunk goes with its last range
    have hnil := List.eq_nil_of_length_eq_zero hempty
    obtain ⟨rfl, rfl⟩ := List.append_eq_nil_iff.1 hnil
    rw [if_pos hempty]
    have hchunks : v.chunks.eraseIdx it.outer = cs1 ++ cs2 := by
      rw [hv, hit, eraseIdx_at]
    have hw : Cached (⟨v.chunks.eraseIdx it.outer⟩
        : ChunkedRangeVector build) :=
      h.cached.replace hv [] hchunks (by simp)
    have := cursor_chunk hw hchunks
    rw [h1]
    simpa [hit] using this
  · rw [if_neg hempty, h.get]
    generalize hfc : (⟨d1 ++ d2, ((d1 ++ d2).headD (0, 0)).1,
      ((d1 ++ d2).getLastD (0, 0)).2, c.count - (r.2 - r.1)⟩ : Chunk)
      = fc
    have hfok : fc.Ok build := by
      have hsize := hok.size
      have hcount := hok.count
      rw [hc] at hsize hcount
      rw [total_append, total] at hcount
      rw [← hfc]
      refine ⟨List.ne_nil_of_length_pos (by simp only; omega), ?_, rfl,
        rfl, ?_⟩
      · simp only [List.length_append, List.length_cons] at hsize ⊢
        omega
      · simp only [total_append]
        omega
    generalize hw : (v.modifyChunk it fun c =>
      { data := d1 ++ d2
        start := ((d1 ++ d2).headD (0, 0)).1
        stop := ((d1 ++ d2).getLastD (0, 0)).2
        count := c.count - (r.2 - r.1) }) = w
    have hchunks : w.chunks = cs1 ++ fc :: cs2 := by
      rw [← hw, modifyChunk, hv, hit, modify_at, ← hfc]
    have hcw : Cached w :=
      h.cached.replace hv [fc] hchunks (by simpa using hfok)
    cases d2 with
    | cons t d2 =>
      rw [hit, if_pos (by simp)]
      exact ⟨hcw, .mid cs1 fc cs2 d1 t d2 hchunks (by rw [← hfc]) rfl
        h1 (by simp)⟩
    | nil =>
      rw [hit, if_neg (by simp), h1]
      have := @cursor_chunk _ _ hcw (cs1 ++ [fc]) cs2 (by simp [hchunks])
      simpa [nextChunk, ← hfc] using this

end BarqSync.ObjectStore
