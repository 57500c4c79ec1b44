/-
Change sets between two states of a collection.

# The collection

`Edited` is the collection that the recorded operations are made on: its
rows, every row it ever had, and the rows modified since it was last
cleared. Inserted rows are new ones. `recordStep` makes an operation on
the collection and feeds it to the builder.

# Valid change sets

`Valid c old new` is what a change set between two lists must satisfy:
what `deletions` leave of the old list is what `insertions` leave of the
new one, and each move takes a deleted row to an inserted place. Each
operation keeps it, whatever was recorded before.
-/
import BarqSync.Index.Positions
import BarqSync.ObjectStore.ChangeBuilder
import BarqSync.ObjectStore.Proofs.Reached

namespace BarqSync.ObjectStore

open Ranges ChunkedRangeVector Positions WellFormed

variable {build : Build} {α : Type*}

-- ===== index sets as sets

/-- Membership as a boolean. -/
def mem (v : IndexSet build) (i : ℕ) : Bool := decide (i ∈ v)

variable {v w : IndexSet build} {new : List α}

@[simp] theorem mem_eq_true {i : ℕ} : mem v i = true ↔ i ∈ v :=
  decide_eq_true_iff

@[simp] theorem mem_eq_false {i : ℕ} : mem v i = false ↔ i ∉ v :=
  decide_eq_false_iff_not

theorem rank_mem (v : IndexSet build) (i : ℕ) :
    rank (mem v) i = unshifted v i := by
  have h1 := @rank_add_count (mem v) i
  have h2 := unshifted_add_count v i
  have h3 : Nat.count (fun j => mem v j = true) i = Nat.count (· ∈ v) i :=
    count_congr fun j _ => mem_eq_true
  omega

-- ===== change sets

namespace CollectionChangeBuilder

/-- The new rows at the given positions, inserted in order. -/
def insertRows (new : List α) : List ℕ → List α → List α
  | [], l => l
  | i :: is, l =>
    insertRows new is (new[i]?.elim l fun row => l.insertIdx i row)

/-- The old list without the rows at `deletions` and then with the new
rows at `insertions`. -/
def replay (c : CollectionChangeBuilder build) (old new : List α) :
    List α :=
  insertRows new c.insertions.asIndexes (dropAt c.deletions.contains old)

/-- The sets of a change set are well formed. -/
structure Sound (c : CollectionChangeBuilder build) : Prop where
  deletions : WellFormed c.deletions
  insertions : WellFormed c.insertions
  modifications : WellFormed c.modifications
  columns : ∀ col ∈ c.columns, WellFormed col.2

/-- The change set leads from the old list to the new one. -/
structure Valid (c : CollectionChangeBuilder build) (old new : List α) :
    Prop where
  sound : c.Sound
  deletions_lt : ∀ i ∈ c.deletions, i < old.length
  insertions_lt : ∀ i ∈ c.insertions, i < new.length
  kept : dropAt (mem c.deletions) old = dropAt (mem c.insertions) new
  moves : ∀ m ∈ c.moves, m.source ∈ c.deletions ∧ m.target ∈ c.insertions
    ∧ old[m.source]? = new[m.target]?
  sources : (c.moves.map Move.source).Nodup
  targets : (c.moves.map Move.target).Nodup

end CollectionChangeBuilder

open CollectionChangeBuilder

/-- The rows that stay, with the rest put back in order, are the list. -/
theorem insertRows_dropAt {is : List ℕ} (his : is.Pairwise (· < ·))
    (hlt : ∀ i ∈ is, i < new.length) :
    insertRows new is (dropAt (fun i => decide (i ∈ is)) new) = new := by
  induction is with
  | nil =>
    exact dropFrom_eq_self fun j _ => by simp
  | cons i is ih =>
    rw [List.pairwise_cons] at his
    have hi := hlt i (by simp)
    obtain ⟨l1, row, l2, hnew, hlen⟩ : ∃ l1 row l2,
        new = l1 ++ row :: l2 ∧ l1.length = i :=
      ⟨new.take i, new[i], new.drop (i + 1), by simp, by simp; omega⟩
    have hget : new[i]? = some row := by
      simp [hnew, ← hlen]
    -- before the first position nothing is missing
    have hbefore : ∀ js : List ℕ, (∀ j ∈ js, i ≤ j)
        → dropAt (fun k => decide (k ∈ js)) l1 = l1 := by
      intro js hjs
      refine dropFrom_eq_self fun k hk => ?_
      rw [decide_eq_false_iff_not]
      intro hmem
      have := hjs _ hmem
      omega
    have hbehind : dropFrom (fun k => decide (k ∈ i :: is)) (i + 1) l2
        = dropFrom (fun k => decide (k ∈ is)) (i + 1) l2 := by
      refine dropFrom_congr fun k _ => ?_
      have hne : ¬ i + 1 + k = i := by omega
      simp [hne]
    have hno : decide (i ∈ is) = false := by
      rw [decide_eq_false_iff_not]
      intro hmem
      exact (his.1 i hmem).false
    have hstep : (dropAt (fun k => decide (k ∈ i :: is)) new).insertIdx i
        row = dropAt (fun k => decide (k ∈ is)) new := by
      rw [hnew, dropAt_split hlen, dropAt_split hlen,
        hbefore (i :: is) (by simpa using fun j hj => (his.1 j hj).le),
        hbefore is fun j hj => (his.1 j hj).le, hbehind, hno]
      simp [← hlen, insertIdx_at]
    rw [insertRows, hget]
    show insertRows new is ((dropAt _ new).insertIdx i row) = new
    rw [hstep]
    exact ih his.2 fun j hj => hlt j (by simp [hj])

/-- A valid change set turns the old list into the new one. -/
theorem CollectionChangeBuilder.Valid.replay_eq
    {c : CollectionChangeBuilder build} {old : List α}
    (h : c.Valid old new) : c.replay old new = new := by
  obtain ⟨hinc, hmem⟩ := h.sound.insertions.asIndexes
  have hdel : dropAt c.deletions.contains old
      = dropAt (mem c.deletions) old := by
    refine dropAt_congr fun j _ => ?_
    rw [Bool.eq_iff_iff, h.sound.deletions.contains_iff, mem_eq_true]
  have hins : dropAt (mem c.insertions) new
      = dropAt (fun i => decide (i ∈ c.insertions.asIndexes)) new := by
    refine dropAt_congr fun j _ => ?_
    rw [Bool.eq_iff_iff, mem_eq_true, decide_eq_true_iff, hmem]
  rw [replay, hdel, h.kept, hins]
  exact insertRows_dropAt hinc fun i hi => h.insertions_lt i ((hmem i).1 hi)

-- ===== the collection

/-- A collection under edit: its rows, every row it ever had, and the
rows modified since it was last cleared. -/
structure Edited (α : Type*) where
  rows : List α
  used : List α
  modified : List α := []

/-- The operations on a collection. -/
inductive CollectionOp (α : Type*)
  | insert (index : ℕ) (rows : List α)
  | erase (index : ℕ)
  | move (source target : ℕ)
  | modify (index : ℕ) (col : Option ℤ)
  | clear

/-- The collection before any operation. -/
def Edited.start (rows : List α) : Edited α := { rows := rows, used := rows }

/-- An operation, if it is valid on the collection. -/
def Edited.step [DecidableEq α] (e : Edited α) :
    CollectionOp α → Option (Edited α)
  | .insert index rows =>
    if index ≤ e.rows.length ∧ rows ≠ [] ∧ rows.Nodup
        ∧ ∀ row ∈ rows, row ∉ e.used then
      some { e with
        rows := e.rows.take index ++ (rows ++ e.rows.drop index)
        used := rows ++ e.used }
    else none
  | .erase index =>
    if index < e.rows.length then
      some { e with rows := e.rows.eraseIdx index }
    else none
  | .move source target =>
    if source ≠ target ∧ target < e.rows.length then
      e.rows[source]?.map fun row =>
        { e with rows := (e.rows.eraseIdx source).insertIdx target row }
    else none
  | .modify index _ => e.rows[index]?.map fun row =>
    { e with modified := row :: e.modified }
  | .clear => some { e with rows := [], modified := [] }

/-- The same operation fed to the builder. -/
def CollectionChangeBuilder.record (c : CollectionChangeBuilder build)
    (e : Edited α) : CollectionOp α → Option (CollectionChangeBuilder build)
  | .insert index rows => c.insert index rows.length
  | .erase index => c.erase index
  | .move source target => c.move source target
  | .modify index col => some (c.modify index col)
  | .clear => some (c.clear e.rows.length)

/-- An operation on the collection, recorded. -/
def recordStep [DecidableEq α]
    (s : Edited α × CollectionChangeBuilder build) (op : CollectionOp α) :
    Option (Edited α × CollectionChangeBuilder build) :=
  (s.1.step op).bind fun e => (s.2.record s.1 op).map fun c => (e, c)

-- ===== the columns

section Columns

variable {c : CollectionChangeBuilder build}
  {f : IndexSet build → Option (IndexSet build)}

theorem mapColumns_wellFormed
    (hf : ∀ v, WellFormed v → ∃ w, f v = some w ∧ WellFormed w)
    (cols : List (ℤ × IndexSet build)) (h : ∀ col ∈ cols, WellFormed col.2) :
    ∃ cols', mapColumns f cols = some cols'
      ∧ ∀ col ∈ cols', WellFormed col.2 := by
  induction cols with
  | nil => exact ⟨[], rfl, fun _ h => nomatch h⟩
  | cons col cols ih =>
    obtain ⟨w, hw, hwf⟩ := hf col.2 (h col (by simp))
    obtain ⟨cols', hcols', hwf'⟩ := ih fun col hcol => h col (by simp [hcol])
    refine ⟨(col.1, w) :: cols', by simp [mapColumns, hw, hcols'], ?_⟩
    intro col' hcol'
    rcases List.mem_cons.1 hcol' with rfl | hcol'
    · exact hwf
    · exact hwf' col' hcol'

/-- A change of every column leaves the rest of the change set. -/
theorem CollectionChangeBuilder.Sound.forEachCol (h : c.Sound)
    (hf : ∀ v, WellFormed v → ∃ w, f v = some w ∧ WellFormed w) :
    ∃ w cols, f c.modifications = some w ∧ WellFormed w
      ∧ (∀ col ∈ cols, WellFormed col.2)
      ∧ c.forEachCol f
        = some { c with modifications := w, columns := cols } := by
  obtain ⟨w, hw, hwf⟩ := hf _ h.modifications
  by_cases ht : c.trackColumns = true
  · obtain ⟨cols, hcols, hwf'⟩ := mapColumns_wellFormed hf _ h.columns
    exact ⟨w, cols, hw, hwf, hwf', by
      simp [CollectionChangeBuilder.forEachCol, hw, ht, hcols]⟩
  · exact ⟨w, c.columns, hw, hwf, h.columns, by
      simp [CollectionChangeBuilder.forEachCol, hw, ht]⟩

theorem CollectionChangeBuilder.Sound.column (h : c.Sound) (key : ℤ) :
    WellFormed (c.column key) := by
  unfold CollectionChangeBuilder.column
  cases hfind : c.columns.find? fun col => col.1 = key with
  | none => exact wellFormed_empty
  | some col => exact h.columns col (List.mem_of_find?_eq_some hfind)

end Columns

-- ===== single operations

section Steps

variable {c : CollectionChangeBuilder build} {old new : List α}
  {index target : ℕ} {row : α} {k : ℕ}

/-- The rows around the ones inserted at `index`. -/
theorem getElem?_inserted {rows : List α} (hi : index ≤ new.length)
    (j : ℕ) :
    (new.take index ++ (rows ++ new.drop index))[j]?
      = if j < index then new[j]?
        else if j < index + rows.length then rows[j - index]?
        else new[j - rows.length]? := by
  have htake : (new.take index).length = index := by simp; omega
  by_cases h1 : j < index
  · rw [if_pos h1, List.getElem?_append_left (by omega),
      List.getElem?_take_of_lt h1]
  · rw [if_neg h1, List.getElem?_append_right (by omega), htake]
    by_cases h2 : j < index + rows.length
    · rw [if_pos h2, List.getElem?_append_left (by omega)]
    · rw [if_neg h2, List.getElem?_append_right (by omega),
        List.getElem?_drop]
      congr 1
      omega

theorem eraseMoves_eq (index : ℕ) (moves : List Move) :
    eraseMoves index moves
      = (moves.filter fun m => m.target ≠ index).map fun m =>
        { m with target :=
          if index < m.target then m.target - 1 else m.target } := by
  induction moves with
  | nil => rfl
  | cons m moves ih =>
    rw [eraseMoves, ih]
    by_cases h1 : m.target = index
    · simp [h1]
    · by_cases h2 : index < m.target <;> simp [h1, h2]

/-- A set of indexes below `n` has as many as are counted below `n`. -/
theorem WellFormed.total_eq_count {n : ℕ} (hv : WellFormed v)
    (hlt : ∀ i ∈ v, i < n) :
    total v.ranges = Nat.count (· ∈ v) n := by
  rw [← hv.countP_asIndexes, List.countP_eq_length.2, ← length_indexes]
  · rfl
  · intro i hi
    exact decide_eq_true (hlt i ((hv.asIndexes.2 i).1 hi))

namespace CollectionChangeBuilder.Valid

variable (h : c.Valid old new)

include h

/-- The moves of a change set, with each target sent to its new place. -/
theorem mapMoves (new' : List α) (deletions insertions : IndexSet build)
    (g : ℕ → ℕ) {moves : List Move} (hsub : moves.Sublist c.moves)
    (hdel : ∀ i ∈ c.deletions, i ∈ deletions)
    (hg : ∀ m ∈ moves, g m.target ∈ insertions
      ∧ new'[g m.target]? = new[m.target]?)
    (hinj : ∀ m ∈ moves, ∀ m' ∈ moves,
      g m.target = g m'.target → m.target = m'.target) :
    let moves' := moves.map fun m => { m with target := g m.target }
    (∀ m ∈ moves', m.source ∈ deletions ∧ m.target ∈ insertions
        ∧ old[m.source]? = new'[m.target]?)
      ∧ (moves'.map Move.source).Nodup
      ∧ (moves'.map Move.target).Nodup := by
  intro moves'
  have hsources : moves'.map Move.source = moves.map Move.source := by
    simp [moves', Function.comp_def]
  have htargets : moves'.map Move.target
      = (moves.map Move.target).map g := by
    simp [moves', Function.comp_def]
  refine ⟨?_, ?_, ?_⟩
  · intro m' hm'
    obtain ⟨m, hm, rfl⟩ := List.mem_map.1 hm'
    obtain ⟨hs, -, hrow⟩ := h.moves m (hsub.subset hm)
    exact ⟨hdel _ hs, (hg m hm).1, hrow.trans (hg m hm).2.symm⟩
  · rw [hsources]
    exact h.sources.sublist (hsub.map _)
  · rw [htargets]
    refine List.Nodup.map_on ?_ (h.targets.sublist (hsub.map _))
    intro t ht t' ht' heq
    obtain ⟨m, hm, rfl⟩ := List.mem_map.1 ht
    obtain ⟨m', hm', rfl⟩ := List.mem_map.1 ht'
    exact hinj m hm m' hm' heq

/-- The row at `index` taken out: an inserted row is no longer inserted,
and another one is deleted at its place in the old list. -/
theorem takeOut (hi : index < new.length) :
    ∃ e, WellFormed e
      ∧ (∀ j, j ∈ e ↔ if j < index then j ∈ c.insertions
        else j + 1 ∈ c.insertions)
      ∧ ((index ∈ c.insertions
          ∧ c.insertions.eraseOrUnshift index = (e, none)
          ∧ dropAt (mem c.deletions) old
            = dropAt (mem e) (new.eraseIdx index))
        ∨ (index ∉ c.insertions ∧ ∃ k d f,
          c.insertions.eraseOrUnshift index = (e, some k)
          ∧ c.deletions.addShifted k = (d, f)
          ∧ WellFormed d ∧ f ∉ c.deletions ∧ f < old.length
          ∧ (∀ j, j ∈ d ↔ j ∈ c.deletions ∨ j = f)
          ∧ dropAt (mem d) old = dropAt (mem e) (new.eraseIdx index)
          ∧ old[f]? = new[index]?)) := by
  obtain ⟨hwf, hout, hmem⟩ := h.sound.insertions.eraseOrUnshift index
  obtain ⟨l1, row, l2, hnew, hlen⟩ : ∃ l1 row l2,
      new = l1 ++ row :: l2 ∧ l1.length = index :=
    ⟨new.take index, new[index], new.drop (index + 1), by simp,
      by simp; omega⟩
  have herase : new.eraseIdx index = l1 ++ l2 := by
    rw [hnew, ← hlen, List.eraseIdx_append_of_length_le le_rfl]
    simp
  have hdrop := @dropAt_erase _ (mem c.insertions)
    (mem (c.insertions.eraseOrUnshift index).1) l1 l2 index row hlen
    (fun j => by
      rw [Bool.eq_iff_iff, mem_eq_true, hmem]
      split <;> simp)
  rw [← herase, ← hnew] at hdrop
  refine ⟨_, hwf, hmem, ?_⟩
  by_cases hin : index ∈ c.insertions
  · rw [if_pos (mem_eq_true.2 hin)] at hdrop
    rw [if_pos hin] at hout
    exact .inl ⟨hin, Prod.ext rfl hout, by rw [hdrop, h.kept]⟩
  · have hnot : mem c.insertions index = false := mem_eq_false.2 hin
    rw [if_neg (by simp [hnot])] at hdrop
    rw [if_neg hin] at hout
    obtain ⟨hd, hf, hshift, hdmem⟩ := h.sound.deletions.addShifted
      (index - Nat.count (· ∈ c.insertions) index)
    generalize hadd : c.deletions.addShifted
      (index - Nat.count (· ∈ c.insertions) index) = df at *
    obtain ⟨d, f⟩ := df
    -- the row has the same rank on both sides
    have hrank : rank (mem c.deletions) f
        = rank (mem c.insertions) index := by
      rw [rank_mem, rank_mem]
      unfold unshifted
      simp only at hshift
      omega
    have hlt : f < old.length := by
      by_contra hge
      have hless := rank_lt hnot hi
      have hmono := rank_mono (mem c.deletions)
        (show old.length ≤ f by omega)
      have hsize := congrArg List.length h.kept
      rw [length_dropAt, length_dropAt] at hsize
      omega
    have hfno : mem c.deletions f = false := mem_eq_false.2 hf
    refine .inr ⟨hin, _, d, f, Prod.ext rfl hout, hadd, hd, hf, hlt, hdmem,
      ?_, ?_⟩
    · rw [hdrop, ← h.kept, ← hrank]
      refine dropAt_add hlt hfno fun j => ?_
      rw [Bool.eq_iff_iff, mem_eq_true, hdmem]
      simp
    · rw [← getElem?_dropAt hlt hfno, h.kept, hrank,
        getElem?_dropAt hi hnot]

/-- `insert` keeps a change set valid and shifts the modifications. -/
theorem insert {rows : List α} (hi : index ≤ new.length)
    (hrows : rows ≠ []) :
    ∃ c', c.insert index rows.length = some c'
      ∧ c'.Valid old (new.take index ++ (rows ++ new.drop index))
      ∧ ∀ j, j ∈ c'.modifications ↔ if j < index then j ∈ c.modifications
        else index + rows.length ≤ j
          ∧ j - rows.length ∈ c.modifications := by
  have hcount : 0 < rows.length := List.length_pos_iff.2 hrows
  obtain ⟨w, cols, hw, hwf, hcols, heach⟩ := h.sound.forEachCol
    (f := fun col => col.shiftForInsertAt index rows.length)
    (fun v hv => by
      obtain ⟨w, hw, hwf, -⟩ :=
        @shiftForInsertAt _ v index _ hv hcount
      exact ⟨w, hw, hwf⟩)
  obtain ⟨ins, hins, hinswf, hinsmem⟩ :=
    @insertAt _ c.insertions index _ h.sound.insertions hcount
  obtain ⟨w', hw', -, hmods⟩ := @shiftForInsertAt _
    c.modifications index _ h.sound.modifications hcount
  obtain rfl : w = w' := Option.some.inj (hw.symm.trans hw')
  have hlen : (new.take index ++ (rows ++ new.drop index)).length
      = new.length + rows.length := by
    simp only [List.length_append, List.length_take, List.length_drop]
    omega
  -- where the target of a move goes
  have hmoves := h.mapMoves (new.take index ++ (rows ++ new.drop index))
    c.deletions ins (fun t => if index ≤ t then t + rows.length else t)
    (List.Sublist.refl _) (fun _ hd => hd)
    (fun m hm => by
      have hm' := (h.moves m hm).2.1
      rw [getElem?_inserted hi, hinsmem]
      by_cases hle : index ≤ m.target
      · have h1 : ¬ m.target + rows.length < index := by omega
        have h2 : ¬ m.target + rows.length < index + rows.length := by
          omega
        simp [hle, h1, h2, hm']
      · have h1 : m.target < index := by omega
        simp [hle, h1, hm'])
    (fun m _ m' _ heq => by
      split at heq <;> split at heq <;> omega)
  refine ⟨{ c with
      modifications := w
      columns := cols
      insertions := ins
      moves := c.moves.map fun move =>
        if index ≤ move.target then
          { move with target := move.target + rows.length }
        else move
      collectionWasCleared := false }, ?_, ?_, hmods⟩
  · rw [CollectionChangeBuilder.insert, if_neg (by omega), heach]
    simp [hins]
  · have hsame : (c.moves.map fun move => if index ≤ move.target then
          { move with target := move.target + rows.length } else move)
        = c.moves.map fun m => { m with target :=
          if index ≤ m.target then m.target + rows.length
          else m.target } := by
      refine List.map_congr_left fun m _ => ?_
      split <;> rfl
    refine ⟨⟨h.sound.deletions, hinswf, hwf, hcols⟩, h.deletions_lt, ?_, ?_,
      ?_, ?_, ?_⟩
    · intro i hmem
      have := (hinsmem i).1 hmem
      rw [hlen]
      split at this
      · have := h.insertions_lt i this
        omega
      · rcases this with hlt | hin
        · omega
        · have := h.insertions_lt _ hin
          omega
    · show dropAt (mem c.deletions) old = _
      rw [h.kept]
      symm
      rw [dropAt_insert (P := mem c.insertions) (i := index)
        (n := rows.length) (by simp; omega) rfl ?_, List.take_append_drop]
      intro j
      rw [Bool.eq_iff_iff, mem_eq_true, hinsmem]
      split <;> simp
    · show ∀ m ∈ c.moves.map _, _
      rw [hsame]
      exact hmoves.1
    · show (List.map _ (c.moves.map _)).Nodup
      rw [hsame]
      exact hmoves.2.1
    · show (List.map _ (c.moves.map _)).Nodup
      rw [hsame]
      exact hmoves.2.2

/-- `erase` keeps a change set valid and shifts the modifications. -/
theorem erase (hi : index < new.length) :
    ∃ c', c.erase index = some c' ∧ c'.Valid old (new.eraseIdx index)
      ∧ ∀ j, j ∈ c'.modifications ↔ if j < index then j ∈ c.modifications
        else j + 1 ∈ c.modifications := by
  obtain ⟨w, cols, hw, hwf, hcols, heach⟩ := h.sound.forEachCol
    (f := fun col => some (col.eraseAt index))
    (fun v hv => ⟨_, rfl, (hv.eraseAt index).1⟩)
  have hmods : ∀ j, j ∈ w ↔ if j < index then j ∈ c.modifications
      else j + 1 ∈ c.modifications := by
    obtain rfl := Option.some.inj hw
    exact (h.sound.modifications.eraseAt index).2
  obtain ⟨e, he, hemem, hcases⟩ := h.takeOut hi
  have hlt : ∀ i ∈ e, i < (new.eraseIdx index).length := by
    intro i hmem
    rw [List.length_eraseIdx_of_lt hi]
    have := (hemem i).1 hmem
    split at this
    · omega
    · have := h.insertions_lt _ this
      omega
  have hmoves := fun d (hd : ∀ i ∈ c.deletions, i ∈ d) =>
    h.mapMoves (new.eraseIdx index) d e
      (fun t => if index < t then t - 1 else t)
      (List.filter_sublist (p := fun m => decide (m.target ≠ index))) hd
      (fun m hm => by
        rw [List.mem_filter, decide_eq_true_iff] at hm
        have hm' := (h.moves m hm.1).2.1
        rw [hemem, List.getElem?_eraseIdx]
        by_cases hlt : index < m.target
        · have h1 : ¬ m.target - 1 < index := by omega
          have h2 : m.target - 1 + 1 = m.target := by omega
          simp [hlt, h1, h2, hm']
        · have h1 : m.target < index := by omega
          simp [hlt, h1, hm'])
      (fun m hm m' hm' heq => by
        rw [List.mem_filter, decide_eq_true_iff] at hm hm'
        split at heq <;> split at heq <;> omega)
  refine ⟨_, by rw [CollectionChangeBuilder.erase, heach, Option.map_some],
    ?_, hmods⟩
  rcases hcases with ⟨-, hout, hkept⟩
      | ⟨-, k, d, f, hout, hadd, hd, -, hf, hdmem, hkept, -⟩
  · have hm := hmoves c.deletions fun _ hd => hd
    rw [← eraseMoves_eq] at hm
    simp only [hout, Option.elim_none]
    exact ⟨⟨h.sound.deletions, he, hwf, hcols⟩, h.deletions_lt, hlt, hkept,
      hm.1, hm.2.1, hm.2.2⟩
  · have hm := hmoves d fun i hi => (hdmem i).2 (.inl hi)
    rw [← eraseMoves_eq] at hm
    simp only [hout, hadd, Option.elim_some]
    refine ⟨⟨hd, he, hwf, hcols⟩, ?_, hlt, hkept, hm.1, hm.2.1, hm.2.2⟩
    intro i hi
    rcases (hdmem i).1 hi with hi | rfl
    · exact h.deletions_lt i hi
    · exact hf

/-- `modify` adds to the modifications only. -/
theorem modify (index : ℕ) (col : Option ℤ) :
    (c.modify index col).Valid old new
      ∧ ∀ j, j ∈ (c.modify index col).modifications
        ↔ j ∈ c.modifications ∨ j = index := by
  obtain ⟨hwf, hmem⟩ := h.sound.modifications.add index
  have hplain : ∀ cols, (∀ col ∈ cols, WellFormed col.2) → Valid
      { c with modifications := c.modifications.add index, columns := cols }
      old new := fun cols hcols =>
    ⟨⟨h.sound.deletions, h.sound.insertions, hwf, hcols⟩, h.deletions_lt,
      h.insertions_lt, h.kept, h.moves, h.sources, h.targets⟩
  unfold CollectionChangeBuilder.modify
  cases col with
  | none => exact ⟨hplain c.columns h.sound.columns, hmem⟩
  | some key =>
    simp only [Option.elim_some]
    split
    · exact ⟨hplain c.columns h.sound.columns, hmem⟩
    · refine ⟨hplain _ ?_, hmem⟩
      intro col hcol
      rcases List.mem_cons.1 hcol with rfl | hcol
      · exact ((h.sound.column key).add index).1
      · exact h.sound.columns col (List.mem_filter.1 hcol).1

/-- `clear` of all rows deletes the whole old list. -/
theorem clear : (c.clear new.length).Valid old ([] : List α)
      ∧ ∀ j, j ∉ (c.clear new.length).modifications := by
  have hsize : new.length + total c.deletions.ranges
      - total c.insertions.ranges = old.length := by
    have hkept := congrArg List.length h.kept
    rw [length_dropAt, length_dropAt, rank_mem, rank_mem] at hkept
    rw [h.sound.deletions.total_eq_count h.deletions_lt,
      h.sound.insertions.total_eq_count h.insertions_lt]
    have h1 := unshifted_add_count c.deletions old.length
    have h2 := unshifted_add_count c.insertions new.length
    omega
  have hempty : ∀ j, j ∉ (IndexSet.clear : IndexSet build) :=
    fun j => not_mem_of_empty rfl
  unfold CollectionChangeBuilder.clear
  rw [hsize]
  obtain ⟨hwf, hmem⟩ := @wellFormed_setLen build c.deletions old.length
  refine ⟨⟨⟨hwf, wellFormed_empty, wellFormed_empty, by simp⟩,
    fun i hi => (hmem i).1 hi, fun i hi => absurd hi (hempty i), ?_,
    by simp, List.nodup_nil, List.nodup_nil⟩, hempty⟩
  refine (dropFrom_eq_nil fun j hj => ?_).trans rfl
  rw [mem_eq_true]
  show 0 + j ∈ c.deletions.setLen old.length
  rw [hmem]
  omega

end CollectionChangeBuilder.Valid

end Steps

end BarqSync.ObjectStore
