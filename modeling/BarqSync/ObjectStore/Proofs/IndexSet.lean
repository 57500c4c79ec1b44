/-
The representation of index sets, and what searches, additions and
counts do.

`WellFormed v` is the representation invariant: over the whole set the
ranges are separated, and every chunk's caches are right. Membership in
a set is membership in one of its ranges. Each mutator has one theorem
that gives both: the invariant of the result and its members.
-/
import BarqSync.ObjectStore.Proofs.Searches

namespace BarqSync.ObjectStore

open Ranges ChunkedRangeVector Cursor IndexSet

variable {build : Build} {v : IndexSet build} {it : Iter}
  {l1 l2 : List (ℕ × ℕ)} {index i j stop : ℕ} {r : ℕ × ℕ}

/-- The representation invariant. -/
structure WellFormed (v : IndexSet build) : Prop where
  separated : Separated v.ranges
  cached : Cached v

/-- An index is in the set if a range holds it. -/
instance : Membership ℕ (ChunkedRangeVector build) :=
  ⟨fun v i => Covers v.ranges i⟩

theorem mem_def : i ∈ v ↔ Covers v.ranges i := .rfl

instance (v : IndexSet build) : DecidablePred (· ∈ v) :=
  fun i => inferInstanceAs (Decidable (Covers v.ranges i))

theorem Cursor.wellFormed (h : Cursor v it l1 l2)
    (hs : Separated (l1 ++ l2)) : WellFormed v :=
  ⟨h.ranges ▸ hs, h.cached⟩

theorem Cursor.mem (h : Cursor v it l1 l2) :
    i ∈ v ↔ Covers (l1 ++ l2) i := by
  rw [mem_def, h.ranges]

theorem wellFormed_empty : WellFormed (⟨[]⟩ : IndexSet build) :=
  ⟨separated_nil, fun _ hc => nomatch hc⟩

theorem not_mem_empty : i ∉ (⟨[]⟩ : IndexSet build) := not_covers_nil

-- ===== finding

/-- The cut that `find` makes. -/
structure Found (v : IndexSet build) (it : Iter) (index : ℕ)
    (l1 l2 : List (ℕ × ℕ)) : Prop where
  cursor : Cursor v it l1 l2
  separated : Separated (l1 ++ l2)
  before : ∀ r ∈ l1, r.2 ≤ index
  behind : ∀ r ∈ l2, index < r.2

theorem WellFormed.findFrom (hv : WellFormed v)
    (h : Cursor v it l1 l2) (hl1 : ∀ r ∈ l1, r.2 ≤ index) :
    ∃ m1 m2, l2 = m1 ++ m2
      ∧ Found v (v.findFrom index it) index (l1 ++ m1) m2 := by
  have hs : Separated (l1 ++ l2) := h.ranges ▸ hv.separated
  obtain ⟨m1, m2, rfl, hcur, hbefore, hbehind⟩ :=
    h.findFrom hs.ordered hl1
  exact ⟨m1, m2, rfl, hcur, by simpa using hs, hbefore, hbehind⟩

theorem WellFormed.find (hv : WellFormed v) (index : ℕ) :
    ∃ l1 l2, Found v (v.find index) index l1 l2 := by
  obtain ⟨m1, m2, -, h⟩ := hv.findFrom (cursor_begin hv.cached)
    (fun r hr => nomatch hr)
  exact ⟨m1, m2, h⟩

/-- Membership is decided at the range found. -/
theorem Found.mem_iff (h : Found v it index l1 l2) :
    index ∈ v ↔ ∃ r ∈ l2.head?, r.1 ≤ index := by
  rw [h.cursor.mem, covers_append]
  have hl1 : ¬ Covers l1 index :=
    fun hc => (hc.lt h.before).false
  cases l2 with
  | nil => simp [hl1]
  | cons r l2 =>
    have hr := h.behind r (by simp)
    have hs := (separated_append.1 h.separated).2.1
    rw [separated_cons] at hs
    have htail : Covers l2 index → index < r.2 → False := by
      intro hc _
      obtain ⟨t, ht, hle, -⟩ := hc
      have := hs.2.1 t ht
      omega
    simp only [covers_cons, List.head?_cons, Option.mem_def,
      Option.some.injEq, exists_eq_left', hl1, false_or]
    constructor
    · intro hc
      rcases hc with hc | hc
      · exact hc.1
      · exact (htail hc hr).elim
    · intro hle
      exact .inl ⟨hle, hr⟩

theorem WellFormed.contains_iff (hv : WellFormed v) :
    v.contains index = true ↔ index ∈ v := by
  obtain ⟨l1, l2, h⟩ := hv.find index
  rw [h.mem_iff, contains]
  cases l2 with
  | nil => simp [h.cursor.eq_end_iff.2 rfl]
  | cons r l2 =>
    have hne : ¬ v.find index = v.endIt := by
      simp [h.cursor.eq_end_iff]
    simp [hne, h.cursor.get]

-- ===== additions

/-- The index follows the range before the cut. -/
theorem Found.doAdd_after {m : List (ℕ × ℕ)} {p : ℕ × ℕ}
    (h : Found v it index (m ++ [p]) l2) (hp : p.2 = index)
    (hno : ¬ (it ≠ v.endIt ∧ (v.get it).1 ≤ index
      ∧ index < (v.get it).2)) :
    ∃ k r k', Joins (m ++ [p]) l2 index k r k'
      ∧ Cursor (v.doAdd it index).1 (v.doAdd it index).2 k (r :: k') := by
  have hpne := h.separated.nonempty p (by simp)
  have hbegin : it ≠ beginIt := by simp [h.cursor.eq_begin_iff]
  have hprev := h.cursor.prev
  have hgrow := @adjust _ _ _ _ _ _ hprev 0 1 (by omega)
    (by omega) (by omega)
  simp only [offsetBy_zero, offsetBy_one] at hgrow
  have hafter := hgrow.behind h.cursor
  have hyes : it ≠ beginIt ∧ (v.get (v.prev it)).2 = index :=
    ⟨hbegin, by rw [hprev.get]; exact hp⟩
  rw [doAdd]
  simp only [if_neg hno, if_pos hyes, (hgrow.here hprev).get]
  cases l2 with
  | nil =>
    have hend : ¬ it ≠ v.endIt := by simp [h.cursor.eq_end_iff]
    rw [if_neg (by simp [hend])]
    subst hp
    exact ⟨m, _, [], .after rfl rfl (by simp), hgrow.here hprev⟩
  | cons r l2 =>
    have hend : it ≠ v.endIt := by simp [h.cursor.eq_end_iff]
    have hr := h.behind r (by simp)
    have hs2 := (separated_append.1 h.separated).2.1
    rw [hafter.get]
    by_cases hjoin : p.2 + 1 = r.1
    · -- the index closes the gap to the next range
      rw [if_pos ⟨hend, hjoin⟩]
      have hwide := @adjust _ _ _ _ _ _ (hgrow.here hprev) 0
        (r.2 - r.1) (by simp only; omega) (by simp only; omega)
        (by simp only; omega)
      have hr2 : offsetBy (p.2 + 1) ((r.2 : ℤ) - r.1) = r.2 := by
        unfold offsetBy
        omega
      simp only [offsetBy_zero, hr2] at hwide
      exact ⟨m, (p.1, r.2), l2, .bridge rfl rfl hp (by omega),
        (hwide.behind hafter).erase.prev⟩
    · rw [if_neg (by simp [hjoin])]
      have hgap : index + 1 < r.1 := by
        rw [h.cursor.get] at hno
        simp only [hend, ne_eq, not_false_iff, true_and, not_and,
          not_lt] at hno
        omega
      subst hp
      exact ⟨m, _, r :: l2, .after rfl rfl (hs2.forall_behind hgap),
        hgrow.here hprev⟩

section

variable (h : Found v it index l1 l2)

include h

/-- The index does not touch the range before the cut. -/
theorem Found.doAdd_apart (hl1 : ∀ r ∈ l1, r.2 < index)
    (hno : ¬ (it ≠ v.endIt ∧ (v.get it).1 ≤ index
      ∧ index < (v.get it).2)) :
    ∃ m r m', Joins l1 l2 index m r m'
      ∧ Cursor (v.doAdd it index).1 (v.doAdd it index).2 m (r :: m') := by
  have hnot : ¬ (it ≠ beginIt ∧ (v.get (v.prev it)).2 = index) := by
    intro ⟨hbegin, hp⟩
    rcases List.eq_nil_or_concat' l1 with hnil | ⟨m, p, hm⟩
    · exact hbegin (h.cursor.eq_begin_iff.2 hnil)
    · have hprev := (hm ▸ h.cursor).prev
      have := hl1 p (by simp [hm])
      rw [hprev.get] at hp
      omega
  have hs1 := (separated_append.1 h.separated).1
  have hs2 := (separated_append.1 h.separated).2.1
  rw [doAdd]
  simp only [if_neg hno, if_neg hnot]
  cases l2 with
  | nil =>
    have hend : ¬ it ≠ v.endIt := by simp [h.cursor.eq_end_iff]
    rw [if_neg (by simp [hend])]
    exact ⟨l1, _, [], .alone hl1 (by simp), h.cursor.insert (fun r hr => by
        have := hs1.nonempty r hr
        have := hl1 r hr
        show r.1 ≤ index
        omega) (by simp)⟩
  | cons r l2 =>
    have hend : it ≠ v.endIt := by simp [h.cursor.eq_end_iff]
    have hr := h.behind r (by simp)
    rw [h.cursor.get] at hno ⊢
    have hgt : index < r.1 := by
      simp only [hend, ne_eq, not_false_iff, true_and, not_and,
        not_lt] at hno
      omega
    by_cases hbefore : r.1 = index + 1
    · rw [if_pos ⟨hend, hbefore⟩]
      have hgrow := @adjust _ _ _ _ _ _ h.cursor (-1) 0
        (by omega) (by omega) (by omega)
      have hr1 : offsetBy r.1 (-1) = index := by
        rw [offsetBy_neg_one]
        omega
      rw [hr1, offsetBy_zero] at hgrow
      exact ⟨l1, (index, r.2), l2, .before rfl hbefore hl1,
        hgrow.here h.cursor⟩
    · rw [if_neg (by simp [hbefore])]
      have hbehind := hs2.forall_behind (show index + 1 < r.1 by omega)
      refine ⟨l1, _, r :: l2, .alone hl1 hbehind, h.cursor.insert ?_ ?_⟩
      · intro t ht
        have := hs1.nonempty t ht
        have := hl1 t ht
        show t.1 ≤ index
        omega
      · intro t ht
        have := hbehind t ht
        have := hs2.nonempty t ht
        show index ≤ t.1 ∧ index + 1 ≤ t.2
        omega

/-- `doAdd` at the cut of `find` puts the index between the parts. -/
theorem Found.doAdd : ∃ m r m', Joins l1 l2 index m r m'
      ∧ Cursor (v.doAdd it index).1 (v.doAdd it index).2 m (r :: m') := by
  by_cases hin : it ≠ v.endIt ∧ (v.get it).1 ≤ index
      ∧ index < (v.get it).2
  · have hsame : v.doAdd it index = (v, it) := if_pos hin
    obtain ⟨hend, hle, -⟩ := hin
    cases l2 with
    | nil => exact absurd (h.cursor.eq_end_iff.2 rfl) hend
    | cons r l2 =>
      rw [h.cursor.get] at hle
      rw [hsame]
      exact ⟨l1, r, l2, .present rfl hle, h.cursor⟩
  · rcases List.eq_nil_or_concat' l1 with rfl | ⟨m, p, rfl⟩
    · exact h.doAdd_apart (by simp) hin
    · by_cases hp : p.2 = index
      · exact h.doAdd_after hp hin
      · have hlt : p.2 < index := by
          have := h.before p (by simp)
          omega
        exact h.doAdd_apart
          ((separated_append.1 h.separated).1.forall_before hlt) hin

/-- What `doAdd` leaves: the set with the index, at its range. -/
theorem Found.added :
    ∃ m r m', Cursor (v.doAdd it index).1 (v.doAdd it index).2 m (r :: m')
      ∧ Separated (m ++ r :: m') ∧ (r.1 ≤ index ∧ index < r.2)
      ∧ ∀ j, j ∈ (v.doAdd it index).1 ↔ j ∈ v ∨ j = index := by
  obtain ⟨m, r, m', hjoin, hcur⟩ := h.doAdd
  refine ⟨m, r, m', hcur, hjoin.separated h.separated h.behind,
    hjoin.holds h.separated h.behind, ?_⟩
  intro j
  rw [hcur.mem, h.cursor.mem, hjoin.covers h.separated h.behind]

end

theorem WellFormed.add (hv : WellFormed v) (index : ℕ) :
    WellFormed (v.add index)
      ∧ ∀ j, j ∈ v.add index ↔ j ∈ v ∨ j = index := by
  obtain ⟨l1, l2, h⟩ := hv.find index
  obtain ⟨m, r, m', hcur, hs, -, hmem⟩ := h.added
  exact ⟨hcur.wellFormed hs, hmem⟩

/-- The loop of `add(IndexSet)` over increasing indexes: the iterator
stands at a range that does not begin behind the next index. -/
theorem WellFormed.addFrom {is : List ℕ} (hv : WellFormed v)
    (h : Cursor v it l1 l2) (hl1 : ∀ r ∈ l1, ∀ i ∈ is, r.2 ≤ i)
    (his : is.Pairwise (· < ·)) :
    WellFormed (v.addFrom it is)
      ∧ ∀ j, j ∈ v.addFrom it is ↔ j ∈ v ∨ j ∈ is := by
  induction is generalizing v it l1 l2 with
  | nil => simpa [addFrom] using hv
  | cons i is ih =>
    rw [List.pairwise_cons] at his
    obtain ⟨m1, m2, -, hfound⟩ := hv.findFrom h
      (fun r hr => hl1 r hr i (by simp))
    obtain ⟨m, r, m', hcur, hs, hr, hmem⟩ := hfound.added
    obtain ⟨hwf, hmem'⟩ := ih (hcur.wellFormed hs) hcur (by
      intro t ht k hk
      have := (separated_append.1 hs).2.2 t ht r (by simp)
      have := his.1 k hk
      omega) his.2
    refine ⟨hwf, fun j => ?_⟩
    show j ∈ addFrom (v.doAdd (v.findFrom i it) i).1
      (v.doAdd (v.findFrom i it) i).2 is ↔ _
    rw [hmem', hmem, List.mem_cons, or_assoc]

section

variable (hv : WellFormed v)

include hv

/-- The indexes of a set are its members, in increasing order. -/
theorem WellFormed.asIndexes :
    v.asIndexes.Pairwise (· < ·) ∧ ∀ i, i ∈ v.asIndexes ↔ i ∈ v :=
  ⟨hv.separated.indexes, fun _ => mem_indexes⟩

theorem WellFormed.addSet {other : IndexSet build}
    (ho : WellFormed other) :
    WellFormed (v.addSet other)
      ∧ ∀ j, j ∈ v.addSet other ↔ j ∈ v ∨ j ∈ other := by
  obtain ⟨hwf, hmem⟩ := hv.addFrom (cursor_begin hv.cached)
    (fun r hr => nomatch hr) ho.asIndexes.1
  exact ⟨hwf, fun j => by
    rw [IndexSet.addSet, hmem, ho.asIndexes.2]⟩

-- ===== counting

/-- The ranges of a chunk of a separated set end by its end, and its
count is theirs. -/
theorem WellFormed.chunk_spec {k k' : List Chunk}
    {c : Chunk} (hcs : v.chunks = k ++ c :: k') :
    (∀ r ∈ c.data, r.2 ≤ c.stop) ∧ c.count = total c.data := by
  have hok := hv.cached c (by simp [hcs])
  have hs : Separated c.data := by
    have := hv.separated
    rw [ranges_eq_flat, hcs, flat_append, flat_cons] at this
    exact (separated_append.1 (separated_append.1 this).2.1).1
  exact ⟨hok.le_stop hs.ordered, hok.count⟩

/-- The loops that pass chunks and then ranges, from a chunk on. -/
theorem WellFormed.scanFrom {σ : Type} {I : List (ℕ × ℕ) → σ → Prop}
    {moreChunk : Chunk → σ → Bool} {passChunk : Chunk → σ → σ}
    {moreRange : ℕ × ℕ → σ → Bool} {passRange : ℕ × ℕ → σ → σ} {s : σ}
    {cs1 cs2 : List Chunk} (hcs : v.chunks = cs1 ++ cs2) (hI : I (flat cs1) s)
    (hchunk : ∀ l c s, (∀ r ∈ c.data, r.2 ≤ c.stop)
      → c.count = total c.data → I l s → moreChunk c s = true
      → I (l ++ c.data) (passChunk c s))
    (hrange : ∀ l r s, r.1 < r.2 → I l s → moreRange r s = true
      → I (l ++ [r]) (passRange r s)) :
    ∃ chunks ranges, chunks = v.scanChunks moreChunk passChunk
        v.chunks.length ⟨cs1.length, 0⟩ s
      ∧ ranges = v.scanRanges moreRange passRange v.ranges.length
        chunks.1 chunks.2
      ∧ ∃ l1 l2, Cursor v ranges.1 l1 l2 ∧ Separated (l1 ++ l2)
        ∧ I l1 ranges.2 ∧ ∀ r ∈ l2.head?, moreRange r ranges.2 = false := by
  refine ⟨_, _, rfl, rfl, ?_⟩
  obtain ⟨l1, l2, hcur, hI⟩ := @Cached.scanChunks _ v σ I s
    v.chunks.length moreChunk passChunk cs1 cs2 hv.cached hcs hI (by
      intro k c k' s hcs hI hmore
      obtain ⟨hle, hcount⟩ := hv.chunk_spec hcs
      exact hchunk _ c s hle hcount hI hmore)
  obtain ⟨k1, k2, hcur, hI, hstop⟩ := @scanRanges _ _ _ _ _ σ I _
    v.ranges.length moreRange passRange hcur hI (by
      intro k r k' s hr hI hmore
      exact hrange k r s (hv.separated.nonempty r (by simp [hr])) hI
        hmore) (by simp [hcur.ranges])
  exact ⟨k1, k2, hcur, hcur.ranges ▸ hv.separated, hI, hstop⟩

/-- From the first range of a chunk on, `count` counts the members up to
`stop` that are not in the chunks before. -/
theorem WellFormed.countFrom_chunk {cs1 cs2 : List Chunk}
    (hcs : v.chunks = cs1 ++ cs2) (stop : ℕ)
    (hstop : ∀ r ∈ flat cs1, r.2 ≤ stop) (ret : ℕ) :
    v.countFrom stop ⟨cs1.length, 0⟩ ret + total (flat cs1)
      = ret + Nat.count (· ∈ v) stop := by
  obtain ⟨chunks, ranges, hc, hr, l1, l2, hcur, hs, hI, hlast⟩ :=
    @WellFormed.scanFrom _ v hv ℕ
      (fun l n => n + total (flat cs1) = ret + total l
        ∧ ∀ r ∈ l, r.2 ≤ stop)
      (fun c _ => c.stop ≤ stop) (fun c ret => ret + c.count)
      (fun r _ => r.2 ≤ stop) (fun r ret => ret + (r.2 - r.1)) ret
      cs1 cs2 hcs ⟨rfl, hstop⟩
      (by
        intro l c n hle hcount hI hmore
        have hmore : c.stop ≤ stop := by simpa using hmore
        have := hI.1
        exact ⟨by rw [total_append, hcount]; omega, List.forall_mem_append.2
          ⟨hI.2, fun r hr => (hle r hr).trans hmore⟩⟩)
      (by
        intro l r n _ hI hmore
        have := hI.1
        exact ⟨by rw [total_append]; simp only [total]; omega,
          List.forall_mem_append.2 ⟨hI.2, by simpa using hmore⟩⟩)
  have hcount : Nat.count (· ∈ v) stop
      = Nat.count (Covers (l1 ++ l2)) stop :=
    count_congr fun j _ => hcur.mem
  have hpassed := hI.1
  rw [hcount, countFrom, countChunks, countLast, ← hc, ← hr]
  cases l2 with
  | nil =>
    have hend : ranges.1 = v.endIt := hcur.eq_end_iff.2 rfl
    rw [if_neg (by simp [hend]), List.append_nil,
      (separated_append.1 hs).1.count_eq_total hI.2]
    exact hpassed
  | cons r l2 =>
    have hend : ranges.1 ≠ v.endIt := by simp [hcur.eq_end_iff]
    have hlt : stop < r.2 := by simpa using hlast r rfl
    rw [hs.count_inside hI.2 hlt.le, hcur.get]
    split
    · omega
    · rename_i hno
      have hle : stop ≤ r.1 := by
        simpa [hend] using hno
      omega

theorem WellFormed.countFrom (stop : ℕ) :
    v.countFrom stop beginIt 0 = Nat.count (· ∈ v) stop := by
  have hcount := hv.countFrom_chunk
    (show v.chunks = [] ++ v.chunks from rfl) stop
    (fun r hr => nomatch hr) 0
  rw [Nat.zero_add] at hcount
  exact hcount

/-- `count(0, stop)` counts the members below `stop`. -/
theorem WellFormed.count (stop : ℕ) :
    v.count 0 stop = Nat.count (· ∈ v) stop := by
  obtain ⟨l1, l2, hfound⟩ := hv.find 0
  obtain rfl : l1 = [] := by
    cases l1 with
    | nil => rfl
    | cons r l1 =>
      have := hfound.separated.nonempty r (by simp)
      have := hfound.before r (by simp)
      omega
  have hbegin := hfound.cursor.eq_begin_iff.2 rfl
  have hcur := hfound.cursor
  have hcount : Nat.count (· ∈ v) stop = Nat.count (Covers l2) stop :=
    count_congr fun j _ => hcur.mem
  rw [IndexSet.count]
  cases l2 with
  | nil =>
    rw [if_pos (.inl (hcur.eq_end_iff.2 rfl)), hcount]
    exact ((separated_nil).count_eq_total (by simp)).symm
  | cons r l2 =>
    have hend : v.find 0 ≠ v.endIt := by simp [hcur.eq_end_iff]
    have hs : Separated ([] ++ r :: l2) := hfound.separated
    simp only [hend, hcur.get, false_or]
    split
    · rename_i hle
      rw [hcount]
      have := hs.count_inside (by simp) (hle.trans (hs.nonempty r
        (by simp)).le)
      simp only [List.nil_append, total] at this
      omega
    · split
      · rename_i hlt hle
        rw [hcount]
        have := hs.count_inside (by simp) hle
        simp only [List.nil_append, total] at this
        unfold IndexSet.sizeSub
        rw [if_pos (by omega)]
        omega
      · rw [if_neg (by simp [hbegin, beginIt]), hbegin]
        exact hv.countFrom stop

theorem WellFormed.addShifted (index : ℕ) :
    WellFormed (v.addShifted index).1
      ∧ (v.addShifted index).2 ∉ v
      ∧ (v.addShifted index).2
        = index + Nat.count (· ∈ v) (v.addShifted index).2
      ∧ ∀ j, j ∈ (v.addShifted index).1
        ↔ j ∈ v ∨ j = (v.addShifted index).2 := by
  obtain ⟨chunks, ranges, hc, hr, l1, l2, hcur, hs, hI, hstop⟩ :=
    @WellFormed.scanFrom _ v hv ℕ
      (fun l n => n = index + total l ∧ ∀ r ∈ l, r.2 ≤ n)
      (fun c index => c.stop ≤ index) (fun c index => index + c.count)
      (fun r index => r.1 ≤ index)
      (fun r index => index + (r.2 - r.1)) index [] v.chunks rfl
      (by simp [total])
      (by
        intro l c n hle hcount hI hmore
        have hmore : c.stop ≤ n := by simpa using hmore
        refine ⟨by rw [total_append, hI.1, hcount]; omega, fun r hr => ?_⟩
        rcases List.mem_append.1 hr with hr | hr
        · exact (hI.2 r hr).trans (Nat.le_add_right _ _)
        · exact (hle r hr).trans (hmore.trans (Nat.le_add_right _ _)))
      (by
        intro l r n hr hI hmore
        have hmore : r.1 ≤ n := by simpa using hmore
        exact ⟨by rw [total_append, hI.1]; simp [total]; omega,
          List.forall_mem_append.2
            ⟨fun t ht => (hI.2 t ht).trans (Nat.le_add_right _ _),
              by simp only [List.forall_mem_singleton]; omega⟩⟩)
  change chunks = v.scanChunks _ _ _ beginIt _ at hc
  have hadd : v.addShifted index = ((v.doAdd ranges.1 ranges.2).1,
      ranges.2) := by
    rw [IndexSet.addShifted, IndexSet.passChunks, IndexSet.passRanges,
      ← hc, ← hr]
  have hbehind : ∀ r ∈ l2, ranges.2 < r.1 := by
    cases l2 with
    | nil => simp
    | cons r l2 =>
      have : ranges.2 < r.1 := by simpa using hstop r rfl
      exact (separated_append.1 hs).2.1.forall_behind this
  have hfound : Found v ranges.1 ranges.2 l1 l2 :=
    ⟨hcur, hs, hI.2, fun r hr => (hbehind r hr).trans
      (hs.nonempty r (by simp [hr]))⟩
  obtain ⟨m, r, m', hcur', hs', -, hmem⟩ := hfound.added
  rw [hadd]
  refine ⟨hcur'.wellFormed hs', ?_, ?_, hmem⟩
  · rw [hcur.mem, covers_append]
    intro h
    rcases h with h | h
    · exact (h.lt hI.2).false
    · have := h.ge fun r hr => (hbehind r hr)
      exact Nat.not_succ_le_self _ this
  · have hcount : Nat.count (· ∈ v) ranges.2
        = Nat.count (Covers (l1 ++ l2)) ranges.2 :=
      count_congr fun j _ => hcur.mem
    simp only
    rw [hcount, hs.count_cut hI.2 fun r hr => (hbehind r hr).le]
    exact hI.1

end

end BarqSync.ObjectStore
