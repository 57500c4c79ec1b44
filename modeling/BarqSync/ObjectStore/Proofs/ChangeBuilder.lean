/-
Recorded change sets describe what happened to a collection: moves keep
them valid, and so do all sequences of operations.
-/
import BarqSync.ObjectStore.Proofs.Changes
import BarqSync.Sys.Runs

namespace BarqSync.ObjectStore

open Ranges ChunkedRangeVector Positions WellFormed CollectionChangeBuilder

variable {build : Build} {v w : IndexSet build} {α : Type*}

-- ===== moves

section Steps

variable {c : CollectionChangeBuilder build} {old new : List α}
  {source target : ℕ} {row : α} {k : ℕ}

/-- Where `move(source, target)` takes the row at a position. -/
def slide (source target k : ℕ) : ℕ :=
  if k = source then target
  else if target ≤ k ∧ k < source then k + 1
  else if k ≤ target ∧ source < k then k - 1
  else k

@[simp] theorem slide_source : slide source target source = target :=
  if_pos rfl

theorem slide_slide (k : ℕ) :
    slide source target (slide target source k) = k := by
  unfold slide
  split_ifs <;> omega

theorem slide_inj {k' : ℕ}
    (h : slide source target k = slide source target k') : k = k' := by
  rw [← @slide_slide target source k, h, slide_slide]

theorem slide_lt {n : ℕ} (hs : source < n) (ht : target < n) (hk : k < n) :
    slide source target k < n := by
  unfold slide
  split_ifs <;> omega

/-- The rows of a collection after a move. -/
theorem getElem?_moved (hs : new[source]? = some row)
    (ht : target < new.length) (k : ℕ) :
    ((new.eraseIdx source).insertIdx target row)[slide source target k]?
      = new[k]? := by
  have hlt : source < new.length := List.getElem?_eq_some_iff.1 hs |>.1
  have hlen : (new.eraseIdx source).length = new.length - 1 :=
    List.length_eraseIdx_of_lt hlt
  rw [List.getElem?_insertIdx, List.getElem?_eraseIdx,
    List.getElem?_eraseIdx, hlen]
  unfold slide
  by_cases hk : k = source
  · rw [if_pos hk, if_neg (lt_irrefl _), if_pos rfl, if_pos (by omega),
      hk, hs]
  · rw [if_neg hk]
    by_cases h1 : target ≤ k ∧ k < source
    · rw [if_pos h1, if_neg (by omega), if_neg (by omega),
        if_pos (by omega), Nat.add_sub_cancel]
    · rw [if_neg h1]
      by_cases h2 : k ≤ target ∧ source < k
      · rw [if_pos h2, if_pos (by omega), if_neg (by omega),
          Nat.sub_add_cancel (by omega)]
      · rw [if_neg h2]
        by_cases h3 : k < target
        · rw [if_pos h3, if_pos (by omega)]
        · rw [if_neg h3, if_neg (by omega), if_neg (by omega),
            Nat.sub_add_cancel (by omega)]

/-- A set with `source` taken out and room made at `target` has the other
positions where the move takes them. -/
theorem slide_mem {e : IndexSet build}
    (he : ∀ j, j ∈ e ↔ if j < source then j ∈ v else j + 1 ∈ v)
    (hw : ∀ j, j ≠ target
      → (j ∈ w ↔ if j < target then j ∈ e else j - 1 ∈ e))
    (hk : k ≠ source) : slide source target k ∈ w ↔ k ∈ v := by
  have hne : slide source target k ≠ target := by
    intro h
    exact hk (slide_inj (h.trans slide_source.symm))
  rw [hw _ hne, he, he]
  unfold slide
  rw [if_neg hk]
  by_cases h1 : target ≤ k ∧ k < source
  · rw [if_pos h1, if_neg (by omega), Nat.add_sub_cancel,
      if_pos (by omega)]
  · rw [if_neg h1]
    by_cases h2 : k ≤ target ∧ source < k
    · rw [if_pos h2, if_pos (by omega), if_neg (by omega),
        Nat.sub_add_cancel (by omega)]
    · rw [if_neg h2]
      by_cases h3 : k < target
      · rw [if_pos h3, if_pos (by omega)]
      · rw [if_neg h3, if_neg (by omega), Nat.sub_add_cancel (by omega)]

theorem WellFormed.insertAt_moved {v e : IndexSet build}
    (hwf : WellFormed e)
    (he : ∀ j, j ∈ e ↔ if j < source then j ∈ v else j + 1 ∈ v) :
    ∃ w, e.insertAt target = some w ∧ WellFormed w ∧ target ∈ w
      ∧ (∀ k, k ≠ source → (slide source target k ∈ w ↔ k ∈ v))
      ∧ ∀ l : List α, target ≤ l.length → ∀ row,
        dropAt (mem w) (l.insertIdx target row) = dropAt (mem e) l := by
  obtain ⟨w, hw, hwwf, hmem⟩ :=
    @insertAt _ e target 1 hwf Nat.one_pos
  refine ⟨w, hw, hwwf, (hmem target).2 (by simp), ?_, ?_⟩
  · intro k hk
    refine slide_mem he (fun j hj => ?_) hk
    rw [hmem]
    have : ¬ j < target → ¬ j < target + 1 := by omega
    split <;> simp_all
  · intro l hl row
    obtain ⟨l1, l2, rfl, rfl⟩ : ∃ l1 l2, l = l1 ++ l2
        ∧ l1.length = target :=
      ⟨l.take target, l.drop target, by simp, by simp; omega⟩
    rw [insertIdx_at]
    refine @dropAt_insert _ _ _ _ _ [row] _ _ rfl rfl fun j => ?_
    rw [Bool.eq_iff_iff, mem_eq_true, hmem]
    split <;> simp

theorem WellFormed.moveColumn {v : IndexSet build} (hv : WellFormed v) :
    ∃ w, moveColumn source target v = some w ∧ WellFormed w
      ∧ ∀ k, slide source target k ∈ w ↔ k ∈ v := by
  obtain ⟨he, hemem⟩ := hv.eraseAt source
  unfold CollectionChangeBuilder.moveColumn
  by_cases hin : source ∈ v
  · rw [if_pos (hv.contains_iff.2 hin)]
    obtain ⟨w, hw, hwf, htarget, hmem, -⟩ :=
      @insertAt_moved _ ℕ source target _ _ he hemem
    refine ⟨w, hw, hwf, fun k => ?_⟩
    by_cases hk : k = source
    · rw [hk, slide_source]
      exact iff_of_true htarget hin
    · exact hmem k hk
  · rw [if_neg (by rwa [hv.contains_iff])]
    obtain ⟨w, hw, hwf, hmem⟩ :=
      @shiftForInsertAt _ _ target 1 he Nat.one_pos
    refine ⟨w, hw, hwf, fun k => ?_⟩
    by_cases hk : k = source
    · rw [hk, slide_source, hmem]
      simp [hin]
    · refine slide_mem hemem (fun j hj => ?_) hk
      rw [hmem]
      have : ¬ j < target → target + 1 ≤ j := by omega
      split <;> simp_all

/-- At most one move ends at a position. -/
theorem CollectionChangeBuilder.Valid.countP_target_le
    (h : c.Valid old new) (t : ℕ) :
    c.moves.countP (fun m => decide (m.target = t)) ≤ 1 := by
  have hcount := List.nodup_iff_count_le_one.1 h.targets t
  rw [List.count_eq_countP, List.countP_map] at hcount
  refine le_trans (le_of_eq ?_) hcount
  refine List.countP_congr fun m _ => ?_
  simp

/-- The moves after `move`. -/
def slideMoves (source target : ℕ) (moves : List Move) : List Move :=
  moves.map fun m => { m with target := slide source target m.target }

theorem map_shiftMove (source target : ℕ) (moves : List Move) :
    (moves.map fun move => if move.target ≠ source then
        shiftMove source target move else { move with target := target })
      = slideMoves source target moves := by
  refine List.map_congr_left fun m _ => ?_
  unfold shiftMove slide
  by_cases h : m.target = source
  · simp [h]
  · simp only [ne_eq, h, not_false_eq_true, if_true, if_false]
    split_ifs <;> rfl

namespace CollectionChangeBuilder.Valid

variable (h : c.Valid old new) (hs : new[source]? = some row)
  (ht : target < new.length)

include h hs ht

/-- Whichever set the row was taken out of, the target is put in. -/
theorem putIn {e e' : IndexSet build} (he' : WellFormed e')
    (hmem : ∀ j, j ∈ e' ↔ if j < source then j ∈ c.insertions
      else j + 1 ∈ c.insertions) (hsame : ∀ j, j ∈ e' ↔ j ∈ e) :
    ∃ w, e'.insertAt target = some w ∧ WellFormed w ∧ target ∈ w
      ∧ (∀ i ∈ w, i < new.length)
      ∧ (∀ k ∈ c.insertions, slide source target k ∈ w)
      ∧ dropAt (mem w) ((new.eraseIdx source).insertIdx target row)
        = dropAt (mem e) (new.eraseIdx source) := by
  have hlt : source < new.length := (List.getElem?_eq_some_iff.1 hs).1
  obtain ⟨w, hw, hwf, htarget, hslide, hdrop⟩ :=
    @insertAt_moved _ α source target _ _ he' hmem
  refine ⟨w, hw, hwf, htarget, ?_, ?_, ?_⟩
  · intro i hi
    by_cases hk : slide target source i = source
    · have := @slide_slide source target i
      rw [hk, slide_source] at this
      omega
    · rw [← @slide_slide source target i] at hi ⊢
      exact slide_lt hlt ht (h.insertions_lt _ ((hslide _ hk).1 hi))
  · intro k hk
    by_cases hks : k = source
    · rwa [hks, slide_source]
    · exact (hslide k hks).2 hk
  · rw [hdrop _ (by rw [List.length_eraseIdx_of_lt hlt]; omega)]
    refine dropAt_congr fun j _ => ?_
    rw [Bool.eq_iff_iff, mem_eq_true, mem_eq_true, hsame]

/-- The change set of a move that needs no move of its own. -/
theorem slid {d w : IndexSet build} (hd : WellFormed d)
    (hdlt : ∀ i ∈ d, i < old.length) (hsub : ∀ i ∈ c.deletions, i ∈ d)
    (hw : WellFormed w) (hwlt : ∀ i ∈ w, i < new.length)
    (hwin : ∀ k ∈ c.insertions, slide source target k ∈ w)
    (hkept : dropAt (mem d) old
      = dropAt (mem w) ((new.eraseIdx source).insertIdx target row)) :
    Valid { c with
        insertions := w, deletions := d
        moves := slideMoves source target c.moves }
      old ((new.eraseIdx source).insertIdx target row) := by
  have hlt : source < new.length := (List.getElem?_eq_some_iff.1 hs).1
  have hlen := List.length_eraseIdx_of_lt hlt
  obtain ⟨hm1, hm2, hm3⟩ := h.mapMoves
    ((new.eraseIdx source).insertIdx target row) d w (slide source target)
    (List.Sublist.refl _) hsub
    (fun m hm => ⟨hwin _ (h.moves m hm).2.1, getElem?_moved hs ht _⟩)
    (fun m _ m' _ heq => slide_inj heq)
  refine ⟨⟨hd, hw, h.sound.modifications, h.sound.columns⟩, hdlt,
    fun i hi => ?_, hkept, hm1, hm2, hm3⟩
  have := hwlt i hi
  rw [List.length_insertIdx_of_le_length (by omega)]
  omega

variable (hne : source ≠ target)

include hne

/-- The change set of a move, before the columns: the insertions have the
target and the other inserted rows where they go, and a row that was not
inserted before is deleted and gets a move. -/
theorem moved : ∃ c' : CollectionChangeBuilder build,
      c.move source target = c'.forEachCol (moveColumn source target)
      ∧ c'.Valid old ((new.eraseIdx source).insertIdx target row)
      ∧ c'.modifications = c.modifications := by
  have hlt : source < new.length := (List.getElem?_eq_some_iff.1 hs).1
  obtain ⟨e, he, hemem, hcases⟩ := h.takeOut hlt
  have hcount := h.countP_target_le source
  unfold move
  simp only [map_shiftMove]
  rw [if_neg (by omega)]
  by_cases hexist : (c.moves.countP fun move => move.target = source) = 1
  · rw [if_pos hexist]
    -- the row of an old move was inserted
    have hin : source ∈ c.insertions := by
      obtain ⟨m, hm, hmt⟩ := List.countP_pos_iff.1
        (hexist.symm ▸ Nat.one_pos)
      exact of_decide_eq_true hmt ▸ (h.moves m hm).2.1
    obtain ⟨he', hemem'⟩ := h.sound.insertions.eraseAt source
    obtain ⟨w, hw, hwf, -, hwlt, hwin, hdrop⟩ := h.putIn hs ht he' hemem'
      fun j => (hemem' j).trans (hemem j).symm
    rcases hcases with ⟨-, -, hkept⟩ | ⟨hno, -⟩
    · exact ⟨_, by rw [hw, Option.map_some, Option.bind_some],
        h.slid hs ht h.sound.deletions h.deletions_lt (fun _ hd => hd) hwf
          hwlt hwin (hkept.trans hdrop.symm), rfl⟩
    · exact absurd hin hno
  · rw [if_neg hexist]
    obtain ⟨w, hw, hwf, htarget, hwlt, hwin, hdrop⟩ :=
      h.putIn hs ht he hemem fun _ => .rfl
    rcases hcases with ⟨-, hout, hkept⟩
        | ⟨hno, k, d, f, hout, hadd, hd, hf, hfl, hdmem, hkept, hrow⟩
    · exact ⟨_, by rw [hout, hw, Option.map_some, Option.elim_none,
          Option.bind_some],
        h.slid hs ht h.sound.deletions h.deletions_lt (fun _ hd => hd) hwf
          hwlt hwin (hkept.trans hdrop.symm), rfl⟩
    · have hv := h.slid hs ht hd (fun i hi => ((hdmem i).1 hi).elim
          (h.deletions_lt i) fun heq => heq ▸ hfl)
        (fun i hi => (hdmem i).2 (.inl hi)) hwf hwlt hwin
        (hkept.trans hdrop.symm)
      refine ⟨{ c with
          insertions := w, deletions := d
          moves := slideMoves source target c.moves ++ [⟨f, target⟩] },
        by rw [hout, hw, Option.map_some, Option.elim_some, hadd,
          Option.bind_some],
        ⟨⟨hd, hwf, h.sound.modifications, h.sound.columns⟩,
          hv.deletions_lt, hv.insertions_lt, hv.kept, ?_, ?_, ?_⟩, rfl⟩
      · refine List.forall_mem_append.2 ⟨hv.moves,
          List.forall_mem_singleton.2 ?_⟩
        refine ⟨(hdmem f).2 (.inr rfl), htarget, ?_⟩
        have := getElem?_moved hs ht source
        rw [slide_source] at this
        rw [this, hrow]
      · rw [List.map_append, List.map_singleton, ← List.concat_eq_append]
        refine hv.sources.concat fun hmem => hf ?_
        obtain ⟨m', hm', heq⟩ := List.mem_map.1 hmem
        obtain ⟨m, hm, rfl⟩ := List.mem_map.1 hm'
        simp only at heq
        exact heq ▸ (h.moves m hm).1
      · rw [List.map_append, List.map_singleton, ← List.concat_eq_append]
        refine hv.targets.concat fun hmem => hno ?_
        obtain ⟨m', hm', heq⟩ := List.mem_map.1 hmem
        obtain ⟨m, hm, rfl⟩ := List.mem_map.1 hm'
        have := slide_inj (heq.trans slide_source.symm)
        exact this ▸ (h.moves m hm).2.1

/-- `move` keeps a change set valid and moves the modifications. -/
theorem move : ∃ c', c.move source target = some c'
      ∧ c'.Valid old ((new.eraseIdx source).insertIdx target row)
      ∧ ∀ k, slide source target k ∈ c'.modifications
        ↔ k ∈ c.modifications := by
  obtain ⟨c', hc', hv, hmods⟩ := h.moved hs ht hne
  obtain ⟨w, cols, hw, hwf, hcols, heach⟩ := hv.sound.forEachCol
    (f := moveColumn source target)
    (fun v hv => by
      obtain ⟨w, hw, hwf, -⟩ := @WellFormed.moveColumn _ source target v hv
      exact ⟨w, hw, hwf⟩)
  obtain ⟨w', hw', -, hmem⟩ := @WellFormed.moveColumn _ source target _
    h.sound.modifications
  rw [hmods] at hw
  obtain rfl : w = w' := Option.some.inj (hw.symm.trans hw')
  exact ⟨{ c' with modifications := w, columns := cols }, hc'.trans heach,
    ⟨⟨hv.sound.deletions, hv.sound.insertions, hwf, hcols⟩,
      hv.deletions_lt, hv.insertions_lt, hv.kept, hv.moves, hv.sources,
      hv.targets⟩, hmem⟩

end CollectionChangeBuilder.Valid

end Steps

-- ===== histories

section Histories

/-- What a recorded history keeps, from the list `old`: the change set is
valid, the rows are distinct and known, and the modifications are the
positions of the rows modified. -/
structure Recorded (old : List α) (e : Edited α)
    (c : CollectionChangeBuilder build) : Prop where
  valid : c.Valid old e.rows
  nodup : e.rows.Nodup
  used : ∀ row ∈ e.rows, row ∈ e.used
  modified : ∀ row ∈ e.modified, row ∈ e.used
  modifications : ∀ i row, e.rows[i]? = some row
    → (i ∈ c.modifications ↔ row ∈ e.modified)

theorem recorded_start (hold : old.Nodup) : Recorded old (Edited.start old)
      ({} : CollectionChangeBuilder build) := by
  have hempty : ∀ i, i ∉ (⟨[]⟩ : IndexSet build) :=
    fun i => not_mem_of_empty rfl
  refine ⟨⟨⟨wellFormed_empty, wellFormed_empty, wellFormed_empty, by simp⟩,
    fun i hi => absurd hi (hempty i), fun i hi => absurd hi (hempty i), rfl,
    by simp, List.nodup_nil, List.nodup_nil⟩, hold, fun _ h => h,
    by simp [Edited.start], fun i row _ => ?_⟩
  exact iff_of_false (hempty i) (List.not_mem_nil)

variable [DecidableEq α] {old : List α} {e e' : Edited α}
  {c : CollectionChangeBuilder build}

/-- A valid operation is recorded, and the invariant is kept. -/
theorem Recorded.step (h : Recorded old e c) {op : CollectionOp α}
    (hstep : e.step op = some e') :
    ∃ c', c.record e op = some c' ∧ Recorded old e' c' := by
  cases op with
  | insert index rows =>
    simp only [Edited.step] at hstep
    split at hstep
    · rename_i hok
      obtain ⟨hi, hrows, hnodup, hfresh⟩ := hok
      obtain rfl := Option.some.inj hstep
      obtain ⟨c', hc', hvalid, hmods⟩ := h.valid.insert hi hrows
      refine ⟨c', hc', hvalid, ?_, ?_, ?_, ?_⟩
      · -- the new rows are among no old ones
        have hperm : (e.rows.take index ++ (rows ++ e.rows.drop index)).Perm
            (rows ++ e.rows) := by
          refine (List.perm_append_comm_assoc _ _ _).trans ?_
          rw [List.take_append_drop]
        refine hperm.nodup_iff.2 (hnodup.append h.nodup ?_)
        intro row hnew hrow
        exact hfresh row hnew (h.used row hrow)
      · intro row hrow
        simp only [List.mem_append] at hrow ⊢
        rcases hrow with hrow | hrow | hrow
        · exact .inr (h.used row (List.mem_of_mem_take hrow))
        · exact .inl hrow
        · exact .inr (h.used row (List.mem_of_mem_drop hrow))
      · intro row hrow
        exact List.mem_append_right _ (h.modified row hrow)
      · intro i row hrow
        simp only [getElem?_inserted hi] at hrow
        rw [hmods]
        split at hrow
        · rw [if_pos ‹_›]
          exact h.modifications i row hrow
        · rename_i hge
          rw [if_neg hge]
          split at hrow
          · rename_i hlt
            refine iff_of_false (fun hmem => by omega) fun hmem => ?_
            exact hfresh row (List.mem_of_getElem? hrow)
              (h.modified row hmem)
          · rw [and_iff_right (by omega)]
            exact h.modifications _ row hrow
    · cases hstep
  | erase index =>
    simp only [Edited.step] at hstep
    split at hstep
    · rename_i hi
      obtain rfl := Option.some.inj hstep
      obtain ⟨c', hc', hvalid, hmods⟩ := h.valid.erase hi
      refine ⟨c', hc', hvalid, h.nodup.sublist (List.eraseIdx_sublist _ _),
        ?_, h.modified, ?_⟩
      · intro row hrow
        exact h.used row ((List.eraseIdx_sublist _ _).subset hrow)
      · intro i row hrow
        simp only [List.getElem?_eraseIdx] at hrow
        rw [hmods]
        split at hrow
        · rw [if_pos ‹_›]
          exact h.modifications i row hrow
        · rw [if_neg ‹_›]
          exact h.modifications _ row hrow
    · cases hstep
  | move source target =>
    simp only [Edited.step] at hstep
    split at hstep
    · rename_i hok
      obtain ⟨row, hrow, rfl⟩ := Option.map_eq_some_iff.1 hstep
      obtain ⟨c', hc', hvalid, hmods⟩ := h.valid.move hrow hok.2 hok.1
      have hlt := (List.getElem?_eq_some_iff.1 hrow).1
      have hperm : ((e.rows.eraseIdx source).insertIdx target row).Perm
          e.rows := by
        obtain ⟨hlt, rfl⟩ := List.getElem?_eq_some_iff.1 hrow
        refine (List.perm_insertIdx _ _ ?_).trans
          (List.getElem_cons_eraseIdx_perm hlt)
        rw [List.length_eraseIdx_of_lt hlt]
        omega
      refine ⟨c', hc', hvalid, hperm.nodup_iff.2 h.nodup,
        fun row hmem => h.used row (hperm.subset hmem), h.modified, ?_⟩
      intro i row' hrow'
      rw [← @slide_slide source target i] at hrow' ⊢
      rw [hmods]
      refine h.modifications _ row' ?_
      rwa [getElem?_moved hrow hok.2] at hrow'
    · cases hstep
  | modify index col =>
    obtain ⟨row, hrow, rfl⟩ := Option.map_eq_some_iff.1 hstep
    obtain ⟨hvalid, hmods⟩ := h.valid.modify index col
    refine ⟨_, rfl, hvalid, h.nodup, h.used, ?_, ?_⟩
    · intro row' hmem
      rcases List.mem_cons.1 hmem with rfl | hmem
      · exact h.used _ (List.mem_of_getElem? hrow)
      · exact h.modified row' hmem
    · intro i row' hrow'
      rw [hmods, h.modifications i row' hrow', List.mem_cons, or_comm]
      refine or_congr_left ⟨?_, ?_⟩
      · intro heq
        exact Option.some.inj (hrow'.symm.trans (heq ▸ hrow))
      · intro heq
        have hlt := (List.getElem?_eq_some_iff.1 hrow').1
        exact (List.getElem?_inj hlt h.nodup).1
          (hrow'.trans (heq ▸ hrow.symm))
  | clear =>
    obtain rfl := Option.some.inj hstep
    obtain ⟨hvalid, hmods⟩ := h.valid.clear
    exact ⟨_, rfl, hvalid, List.nodup_nil, by simp, by simp, by simp⟩

/-- A history of valid operations is recorded without a failed assertion,
and keeps the invariant. -/
theorem Recorded.exec (h : Recorded old e c) {ops : List (CollectionOp α)}
    (hexec : Sys.exec Edited.step e ops = some e') :
    ∃ c', Sys.exec recordStep (e, c) ops = some (e', c')
      ∧ Recorded old e' c' := by
  induction ops generalizing e c with
  | nil =>
    obtain rfl := Option.some.inj hexec
    exact ⟨c, rfl, h⟩
  | cons op ops ih =>
    obtain ⟨e1, hstep, hexec⟩ := Option.bind_eq_some_iff.1 hexec
    obtain ⟨c1, hrecord, h1⟩ := h.step hstep
    obtain ⟨c', hexec', h'⟩ := ih h1 hexec
    refine ⟨c', ?_, h'⟩
    rw [Sys.exec, recordStep]
    simp [hstep, hrecord, hexec']

/-- Recorded change sets describe what happened: for every list of
distinct rows and every sequence of valid operations, the change set
replays to the final list, each move takes its row along, and a row that
stays is reported as modified iff it was modified since the last
`clear`. -/
theorem recorded_changes (build : Build) (old : List α) (hold : old.Nodup)
    (ops : List (CollectionOp α)) (e : Edited α)
    (hexec : Sys.exec Edited.step (Edited.start old) ops = some e) :
    ∃ c : CollectionChangeBuilder build,
      Sys.exec recordStep (Edited.start old, {}) ops = some (e, c)
      ∧ c.replay old e.rows = e.rows
      ∧ (∀ m ∈ c.moves, m.source ∈ c.deletions ∧ m.target ∈ c.insertions
        ∧ ∃ row, old[m.source]? = some row ∧ e.rows[m.target]? = some row)
      ∧ ∀ row ∈ old, ∀ i, e.rows[i]? = some row
        → (i ∈ c.modifications ↔ row ∈ e.modified) := by
  obtain ⟨c, hc, h⟩ := (recorded_start hold).exec hexec
  refine ⟨c, hc, h.valid.replay_eq, ?_, ?_⟩
  · intro m hm
    obtain ⟨hsource, htarget, hrow⟩ := h.valid.moves m hm
    have hlt := h.valid.deletions_lt _ hsource
    have hget : old[m.source]? = some old[m.source] :=
      List.getElem?_eq_getElem hlt
    exact ⟨hsource, htarget, _, hget, hrow ▸ hget⟩
  · intro row _ i hrow
    exact h.modifications i row hrow

/-- A history with every kind of operation: a row moves twice, a moved
row is erased, and the modified row moves on. -/
theorem recorded_changes_history :
    ∃ c : CollectionChangeBuilder .release, ∃ e : Edited ℕ,
      Sys.exec recordStep (Edited.start [1, 2, 3, 4], {})
        [.insert 1 [5, 6], .modify 0 (some 7), .move 0 3, .move 3 5,
          .move 2 0, .erase 0, .erase 1] = some (e, c)
      ∧ e.rows = [5, 3, 4, 1] ∧ c.replay [1, 2, 3, 4] e.rows = e.rows := by
  obtain ⟨c, hc, hreplay, -⟩ := recorded_changes .release [1, 2, 3, 4]
    (by decide)
    [.insert 1 [5, 6], .modify 0 (some 7), .move 0 3, .move 3 5,
      .move 2 0, .erase 0, .erase 1] _ rfl
  exact ⟨c, _, hc, by decide, hreplay⟩

end Histories

end BarqSync.ObjectStore
