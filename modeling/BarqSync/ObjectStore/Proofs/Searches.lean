/-
Searches over chunks, and loops that pass chunks and then ranges, in
terms of cursors.
-/
import BarqSync.ObjectStore.Proofs.Chunks

namespace BarqSync.ObjectStore

open Ranges ChunkedRangeVector

variable {build : Build} {v : ChunkedRangeVector build} {it : Iter}
  {l1 l2 a b : List (ℕ × ℕ)} {r : ℕ × ℕ} {c : Chunk}

-- ===== searches

/-- The bound of a chunk bounds its ranges. -/
theorem Chunk.Ok.le_stop (hc : c.Ok build) (hs : Ordered c.data) :
    ∀ r ∈ c.data, r.2 ≤ c.stop := by
  rcases List.eq_nil_or_concat' c.data with hd | ⟨d, p, hd⟩
  · exact absurd hd hc.nonempty
  · have hstop : c.stop = p.2 := by
      rw [hc.stop, hd, getLastD_at]
      rfl
    rw [hd] at hs ⊢
    intro r hr
    rw [hstop]
    rcases List.mem_append.1 hr with hr | hr
    · have hle := (ordered_append.1 hs).2.2 r hr p
        (List.mem_singleton_self p)
      have hne := hs.nonempty p (by simp)
      omega
    · rw [List.mem_singleton.1 hr]

/-- The search in the chunk that ends behind the index. -/
theorem cursor_search {index : ℕ} (hv : Cached v)
    {cs1 cs2 : List Chunk} {c : Chunk} {d e : List (ℕ × ℕ)}
    (hcs : v.chunks = cs1 ++ c :: cs2) (hd : c.data = d ++ e)
    (hs : Ordered v.ranges) (hstop : index < c.stop)
    (hbefore : ∀ r ∈ flat cs1 ++ d, r.2 ≤ index) :
    ∃ m1 m2, e ++ flat cs2 = m1 ++ m2
      ∧ Cursor v (if index < c.start then ⟨cs1.length, 0⟩
          else ⟨cs1.length, d.length
            + e.findIdx fun r => decide (¬ r.2 ≤ index)⟩)
        (flat cs1 ++ d ++ m1) m2
      ∧ (∀ r ∈ flat cs1 ++ d ++ m1, r.2 ≤ index)
      ∧ ∀ r ∈ m2, index < r.2 := by
  have hok := hv c (by simp [hcs])
  have hflat : v.ranges = flat cs1 ++ (d ++ (e ++ flat cs2)) := by
    simp [ranges_eq_flat, hcs, hd]
  have hsc : Ordered (d ++ e) := by
    rw [hflat, ← List.append_assoc d] at hs
    exact (ordered_append.1 (ordered_append.1 hs).2.1).1
  obtain ⟨e1, e2, rfl, hlen, he1, he2⟩ :=
    findIdx_split e fun r => decide (¬ r.2 ≤ index)
  simp only [not_le, decide_eq_false_iff_not, not_lt,
    decide_eq_true_eq] at he1 he2
  have hpassed : ∀ r ∈ d ++ e1, r.2 ≤ index :=
    List.forall_mem_append.2
      ⟨fun r hr => hbefore r (List.mem_append_right _ hr), he1⟩
  -- the last range of the chunk ends behind the index
  obtain ⟨r, e3, rfl⟩ : ∃ r e3, e2 = r :: e3 := by
    cases e2 with
    | cons r e3 => exact ⟨r, e3, rfl⟩
    | nil =>
      rcases List.eq_nil_or_concat' (d ++ e1) with hnil | ⟨d', p, hp⟩
      · rw [List.append_nil, hnil] at hd
        exact absurd hd hok.nonempty
      · rw [List.append_nil, hp] at hd
        have hstop' := hok.stop
        rw [hd, getLastD_at] at hstop'
        have := hpassed p (by simp [hp])
        simp only [List.getLastD_nil] at hstop'
        omega
  have hr : index < r.2 := he2 r rfl
  have hplace : (if index < c.start then (⟨cs1.length, 0⟩ : Iter)
      else ⟨cs1.length, d.length + (e1 ++ r :: e3).findIdx
        fun r => decide (¬ r.2 ≤ index)⟩)
      = ⟨cs1.length, (d ++ e1).length⟩ := by
    rw [← hlen, ← List.length_append]
    by_cases hstart : index < c.start
    · -- nothing of the chunk lies before the index
      rw [if_pos hstart]
      cases hde : d ++ e1 with
      | nil => rfl
      | cons t k =>
        have ht : c.start = t.1 := by
          rw [hok.start, hd, ← List.append_assoc, hde]
          rfl
        have hmem : t ∈ d ++ e1 := by simp [hde]
        have hle := hpassed t hmem
        have hne := hsc.nonempty t (by
          rw [← List.append_assoc]
          exact List.mem_append_left _ hmem)
        omega
    · rw [if_neg hstart]
  refine ⟨e1, r :: (e3 ++ flat cs2), by simp, ?_, ?_, ?_⟩
  · rw [hplace]
    exact ⟨hv, .mid cs1 c cs2 (d ++ e1) r e3 hcs (by simp [hd]) rfl
      (by simp) rfl⟩
  · exact List.forall_mem_append.2 ⟨hbefore, he1⟩
  · have htail : Ordered ([r] ++ (e3 ++ flat cs2)) := by
      rw [hflat] at hs
      have := (ordered_append.1 hs).2.1
      have := (ordered_append.1 this).2.1
      rw [List.append_assoc] at this
      exact (ordered_append.1 this).2.1
    rw [ordered_append] at htail
    refine List.forall_mem_cons.2 ⟨hr, fun t ht => ?_⟩
    have := htail.2.2 r (List.mem_singleton_self r) t ht
    have := htail.2.1.nonempty t ht
    omega

/-- The first range not wholly before the index is found, from any
iterator that stands before it. -/
theorem Cursor.findFrom {index : ℕ} (h : Cursor v it l1 l2)
    (hs : Ordered (l1 ++ l2)) (hl1 : ∀ r ∈ l1, r.2 ≤ index) :
    ∃ m1 m2, l2 = m1 ++ m2
      ∧ Cursor v (IndexSet.findFrom v index it) (l1 ++ m1) m2
      ∧ (∀ r ∈ l1 ++ m1, r.2 ≤ index) ∧ ∀ r ∈ m2, index < r.2 := by
  have hcached := h.cached
  have hsv : Ordered v.ranges := h.ranges ▸ hs
  -- the chunks from the iterator on, and those of them passed
  obtain ⟨cs1, cs, d, hcs, hit, h1, hd⟩ : ∃ cs1 cs d,
      v.chunks = cs1 ++ cs ∧ it = ⟨cs1.length, d.length⟩
      ∧ l1 = flat cs1 ++ d ∧ (cs = [] ∧ l2 = []
        ∨ ∃ c cs2 e, cs = c :: cs2 ∧ c.data = d ++ e
          ∧ l2 = e ++ flat cs2) := by
    cases h.place with
    | last hit h1 h2 =>
      exact ⟨v.chunks, [], [], by simp, hit, by simp [h1, ranges_eq_flat],
        .inl ⟨rfl, h2⟩⟩
    | mid cs1 c cs2 d1 t d2 hv hc hit h1 h2 =>
      exact ⟨cs1, c :: cs2, d1, hv, hit, h1,
        .inr ⟨c, cs2, t :: d2, rfl, hc, by simp [h2]⟩⟩
  obtain ⟨a, b, rfl, hlen, ha, hb⟩ :=
    findIdx_split cs fun c => decide (index < c.stop)
  simp only [decide_eq_false_iff_not, not_lt, decide_eq_true_eq] at ha hb
  have hpassed : ∀ r ∈ flat a, r.2 ≤ index := by
    intro r hr
    obtain ⟨c, hc, hrc⟩ := List.mem_flatMap.1 hr
    have hsc : Ordered c.data := by
      obtain ⟨a1, a2, rfl⟩ := List.append_of_mem hc
      rw [ranges_eq_flat, hcs] at hsv
      simp only [flat_append, flat_cons, List.append_assoc] at hsv
      have := (ordered_append.1 hsv).2.1
      have := (ordered_append.1 this).2.1
      exact (ordered_append.1 this).1
    exact ((hcached c (by simp [hcs, hc])).le_stop hsc r hrc).trans
      (ha c hc)
  have houter : it.outer + (v.chunks.drop it.outer).findIdx
      (fun c => decide (index < c.stop)) = (cs1 ++ a).length := by
    rw [hit, hcs]
    simp [← hlen]
  cases b with
  | nil =>
    -- every range is passed
    have hend : IndexSet.findFrom v index it = v.endIt := by
      rw [IndexSet.findFrom]
      exact if_pos (by rw [houter, hcs, List.append_nil])
    refine ⟨l2, [], by simp, ?_, ?_, by simp⟩
    · rw [hend, ← h.ranges]
      exact cursor_end hcached
    · refine List.forall_mem_append.2 ⟨hl1, fun r hr => ?_⟩
      refine hpassed r ?_
      rcases hd with ⟨-, rfl⟩ | ⟨c, cs2, e, hac, hc, rfl⟩
      · cases hr
      · rw [List.append_nil] at hac
        rw [hac, flat_cons, hc, List.append_assoc]
        exact List.mem_append_right _ hr
  | cons c b =>
    have hstop : index < c.stop := hb c rfl
    have hget : v.chunks.getD (cs1 ++ a).length {} = c := by
      rw [hcs, ← List.append_assoc, getD_at]
    have hne : ¬ (cs1 ++ a).length = v.chunks.length := by
      simp [hcs]
    have hfind : IndexSet.findFrom v index it
        = if index < c.start then ⟨(cs1 ++ a).length, 0⟩
          else ⟨(cs1 ++ a).length,
            (if (cs1 ++ a).length = it.outer then it.inner else 0)
            + (c.data.drop (if (cs1 ++ a).length = it.outer
                then it.inner else 0)).findIdx
              fun r => decide (¬ r.2 ≤ index)⟩ := by
      rw [IndexSet.findFrom]
      simp only [houter, hget, if_neg hne]
    cases a with
    | nil =>
      rcases hd with ⟨h, -⟩ | ⟨c', cs2, e, hac, hc, rfl⟩
      · cases h
      · obtain ⟨rfl, rfl⟩ := List.cons.inj hac
        rw [hfind, hit, List.append_nil, if_pos rfl, hc, List.drop_left]
        obtain ⟨m1, m2, hm, hcur, hb1, hb2⟩ := cursor_search hcached
          hcs hc hsv hstop (h1 ▸ hl1)
        exact ⟨m1, m2, hm, h1 ▸ hcur, h1 ▸ hb1, hb2⟩
    | cons c0 a =>
      rcases hd with ⟨h, -⟩ | ⟨c', cs2, e, hac, hc, rfl⟩
      · cases h
      · obtain ⟨rfl, rfl⟩ := List.cons.inj hac
        have hno : ¬ (cs1 ++ c0 :: a).length = cs1.length := by simp
        simp only [hit, if_neg hno, List.drop_zero] at hfind
        rw [hit, hfind]
        obtain ⟨m1, m2, hm, hcur, hb1, hb2⟩ := @cursor_search _ _ index
          hcached (cs1 ++ c0 :: a) b c [] c.data (by simp [hcs]) rfl hsv
          hstop (by
            intro r hr
            rw [List.append_nil, flat_append] at hr
            rcases List.mem_append.1 hr with hr | hr
            · exact hl1 r (h1 ▸ List.mem_append_left _ hr)
            · exact hpassed r hr)
        have hflat : flat (cs1 ++ c0 :: a) ++ [] ++ m1
            = l1 ++ (e ++ flat a ++ m1) := by
          simp [h1, hc]
        refine ⟨e ++ flat a ++ m1, m2, ?_, ?_, ?_, hb2⟩
        · show e ++ flat (a ++ c :: b) = _
          simp only [flat_append, flat_cons, List.append_assoc, ← hm]
        · rw [← hflat]
          exact hcur
        · rw [← hflat]
          exact hb1

-- ===== loops

section Loops

variable {σ : Type} {I : List (ℕ × ℕ) → σ → Prop} {s : σ} {fuel : ℕ}

/-- A loop over ranges keeps what each of its steps keeps, and stops at
the end or at a range it does not take. -/
theorem Cursor.scanRanges {more : ℕ × ℕ → σ → Bool}
    {f : ℕ × ℕ → σ → σ} (h : Cursor v it l1 l2) (hI : I l1 s)
    (hstep : ∀ k r k' s, v.ranges = k ++ r :: k' → I k s
      → more r s = true → I (k ++ [r]) (f r s))
    (hfuel : l2.length ≤ fuel) :
    ∃ k1 k2, Cursor v (IndexSet.scanRanges v more f fuel it s).1 k1 k2
      ∧ I k1 (IndexSet.scanRanges v more f fuel it s).2
      ∧ ∀ r ∈ k2.head?,
        more r (IndexSet.scanRanges v more f fuel it s).2 = false := by
  induction fuel generalizing it l1 l2 s with
  | zero =>
    have hnil : l2 = [] := List.eq_nil_of_length_eq_zero (by omega)
    exact ⟨l1, l2, h, hI, by simp [hnil]⟩
  | succ fuel ih =>
    rw [IndexSet.scanRanges]
    cases l2 with
    | nil =>
      have hend : ¬ it ≠ v.endIt := by simp [h.eq_end_iff]
      rw [if_neg (by simp [hend])]
      exact ⟨l1, [], h, hI, by simp⟩
    | cons r l2 =>
      have hne : it ≠ v.endIt := by simp [h.eq_end_iff]
      rw [h.get]
      by_cases hmore : more r s = true
      · rw [if_pos ⟨hne, hmore⟩]
        exact ih h.next (hstep l1 r l2 s h.ranges hI hmore)
          (by simpa using hfuel)
      · rw [if_neg (by simp [hmore])]
        exact ⟨l1, r :: l2, h, hI, by simpa using hmore⟩

/-- A loop over chunks keeps what each of its steps keeps. -/
theorem Cached.scanChunks {more : Chunk → σ → Bool} {f : Chunk → σ → σ}
    {cs1 cs2 : List Chunk} (hv : Cached v) (hcs : v.chunks = cs1 ++ cs2)
    (hI : I (flat cs1) s)
    (hstep : ∀ k c k' s, v.chunks = k ++ c :: k' → I (flat k) s
      → more c s = true → I (flat k ++ c.data) (f c s)) :
    ∃ l1 l2, Cursor v
        (IndexSet.scanChunks v more f fuel ⟨cs1.length, 0⟩ s).1 l1 l2
      ∧ I l1 (IndexSet.scanChunks v more f fuel ⟨cs1.length, 0⟩ s).2 := by
  induction fuel generalizing cs1 cs2 s with
  | zero => exact ⟨_, _, cursor_chunk hv hcs, hI⟩
  | succ fuel ih =>
    rw [IndexSet.scanChunks]
    by_cases hmore : (⟨cs1.length, 0⟩ : Iter) ≠ v.endIt
        ∧ more (v.chunk ⟨cs1.length, 0⟩) s = true
    · rw [if_pos hmore]
      cases cs2 with
      | nil => simp [endIt, hcs] at hmore
      | cons c cs2 =>
        have hchunk : v.chunk ⟨cs1.length, 0⟩ = c := by
          rw [chunk, hcs, getD_at]
        rw [hchunk] at hmore ⊢
        have := @ih (f c s) (cs1 ++ [c]) cs2 (by simp [hcs])
          (by simpa using hstep cs1 c cs2 s hcs hI hmore.2)
        simpa [nextChunk] using this
    · rw [if_neg hmore]
      exact ⟨_, _, cursor_chunk hv hcs, hI⟩

end Loops

end BarqSync.ObjectStore
