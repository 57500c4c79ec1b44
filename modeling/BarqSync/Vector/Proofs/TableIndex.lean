/-
Adding a vector index is all or nothing unless the build fails.

All checks come before the first change, but for one: that the stored
vectors have the declared dimension is found out while the graph is built,
when the slot of the column has the ref of the new index already. The
attribute that says what this ref is has not been set then. So a refresh
takes it for that of a string index.
-/
import BarqSync.Vector.TableIndex

namespace BarqSync.Vector

variable {F : Type} {vm : VectorMath F} {d : ℕ} {rows : List (ℕ × List F)}
  {declared : Bool} {config : VectorIndexConfig} {metric : VectorMetric}

-- ===== the build

/-- A vector has the declared dimension, and another one does not. -/
def BuildFails (config : VectorIndexConfig) (rows : List (ℕ × List F)) :
    Prop :=
  0 < config.dimensions
    ∧ (∃ row ∈ rows, row.2.length = config.dimensions)
    ∧ ∃ row ∈ rows, row.2.length ≠ 0 ∧ row.2.length ≠ config.dimensions

/-- With a declared dimension the first pass only looks for it. -/
theorem findDim_declared (hd : 0 < d) (rows : List (ℕ × List F)) :
    findDim d rows = (d, rows.any fun row => row.2.length = d) := by
  induction rows with
  | nil => rfl
  | cons row rows ih =>
    rw [findDim, List.any_cons]
    dsimp only
    rw [if_neg (Nat.ne_of_gt hd)]
    by_cases hzero : row.2.length = 0
    · have hne : row.2.length ≠ d := by omega
      rw [if_pos hzero, ih, decide_eq_false hne, Bool.false_or]
    · rw [if_neg hzero]
      by_cases hlength : row.2.length = d
      · rw [if_pos hlength, decide_eq_true hlength, Bool.true_or]
      · rw [if_neg hlength, ih, decide_eq_false hlength, Bool.false_or]

theorem admitVectorDim_isOk {size : ℕ} :
    (admitVectorDim size d declared).isOk = true
      ↔ ¬ (declared = true ∧ size ≠ 0 ∧ size ≠ d) := by
  unfold admitVectorDim
  split
  · next heq => simp [Except.isOk, Except.toBool, heq]
  · next hne =>
    split
    · next hbad => simp [Except.isOk, Except.toBool, hbad, hne]
    · next hgood =>
      simp only [Except.isOk, Except.toBool, true_iff]
      exact fun h => hgood ⟨h.2.1, h.1⟩

/-- A pass goes on after a vector that it does not throw on. -/
theorem admitRows_cons_isOk {row : ℕ × List F} :
    (admitRows vm metric d declared (row :: rows)).isOk
      = ((admitVectorDim row.2.length d declared).isOk
        && (admitRows vm metric d declared rows).isOk) := by
  rw [admitRows]
  cases admitVectorDim row.2.length d declared with
  | error e => rfl
  | ok admitted => cases admitRows vm metric d declared rows <;> rfl

/-- A pass throws on a vector that is not empty and of another
dimension. -/
theorem admitRows_isOk : (admitRows vm metric d declared rows).isOk = true
      ↔ ∀ row ∈ rows, ¬ (declared = true ∧ row.2.length ≠ 0
        ∧ row.2.length ≠ d) := by
  induction rows with
  | nil => simp [admitRows, Except.isOk, Except.toBool]
  | cons row rows ih =>
    rw [List.forall_mem_cons, ← ih, ← admitVectorDim_isOk,
      admitRows_cons_isOk, Bool.and_eq_true]

/-- Both passes throw on the same vectors. -/
theorem build_isOk : (build vm config d rows).isOk
      = (admitRows vm config.metric d (0 < config.dimensions) rows).isOk := by
  unfold build
  dsimp only
  cases admitRows vm config.metric d (0 < config.dimensions) rows with
  | error e => split <;> rfl
  | ok elements => split <;> rfl

/-- The build throws when vectors are of different dimensions, and one of
them is the declared one. -/
theorem doRebuild_isOk :
    (doRebuild vm config rows).1.isOk = true ↔ ¬ BuildFails config rows := by
  have hmap : ∀ x : Except IndexError (Graph F),
      (x.map fun _ => ()).isOk = x.isOk := fun x => by
    cases x <;> rfl
  unfold doRebuild BuildFails
  dsimp only
  rcases Nat.eq_zero_or_pos config.dimensions with hzero | hpos
  · have hok : ∀ d, (build vm config d rows).isOk = true := by
      intro d
      rw [build_isOk, admitRows_isOk]
      simp [hzero]
    refine iff_of_true ?_ (fun h => by omega)
    split
    · rfl
    · split
      · exact (hmap _).trans (hok _)
      · rfl
  · rw [findDim_declared hpos]
    dsimp only
    rw [if_neg (Nat.ne_of_gt hpos)]
    split
    · next hfound =>
      rw [hmap, build_isOk, admitRows_isOk]
      have hany : ∃ row ∈ rows, row.2.length = config.dimensions := by
        simpa using hfound
      simp only [hpos, hany, decide_true, true_and]
      simp
    · next hnone =>
      refine iff_of_true rfl fun h => hnone ?_
      simpa using h.2.1

-- ===== the table

namespace Table

variable {t t' : Table F} {colKey : ColKey} {config : VectorIndexConfig}
  {colNdx : ℕ}

/-- The string index of a column. -/
def stringIndex (t : Table F) (colNdx : ℕ) : Option StringIndex :=
  (t.indexAccessors[colNdx]?).join

/-- A table has a slot for each column, and the refs in them are in
use. -/
structure WellFormed (t : Table F) : Prop where
  slots : t.indexRefs.length = t.leafNdx2colkey.length
  used : ∀ ref ∈ t.indexRefs, ref < t.nextRef
  positive : 0 < t.nextRef

/-- What a call that throws is to leave as it was. -/
structure Unchanged (t t' : Table F) (colNdx : ℕ) : Prop where
  slot : t'.getAsRef colNdx = t.getAsRef colNdx
  attr : t'.getColumnAttr colNdx = t.getColumnAttr colNdx
  accessors : ∀ i, t'.vectorIndex i = t.vectorIndex i
  /-- A refresh has the same outcome for the column. -/
  refreshed : t'.refreshIndexAccessors.stringIndex colNdx
        = t.refreshIndexAccessors.stringIndex colNdx
      ∧ t'.refreshIndexAccessors.vectorIndex colNdx
        = t.refreshIndexAccessors.vectorIndex colNdx
  /-- In particular it attaches nothing to one without an index. -/
  unindexed : t.getAsRef colNdx = 0
    → t'.refreshIndexAccessors.stringIndex colNdx = none
      ∧ t'.refreshIndexAccessors.vectorIndex colNdx = none

def AllOrNothing (vm : VectorMath F) (t : Table F) (colKey : ColKey)
    (config : VectorIndexConfig) : Prop :=
  ∀ e, (t.addVectorIndex vm colKey config).1 = .error e
    → Unchanged t (t.addVectorIndex vm colKey config).2 colKey.index

/-- All checks before the build pass. -/
structure Builds (t : Table F) (colKey : ColKey)
    (config : VectorIndexConfig) : Prop where
  column : t.validColumn colKey = true
  config : (validateVectorConfig config).isOk = true
  list : colKey.isList = true
  float : colKey.type = .float
  attr : (t.getColumnAttr colKey.index).vectorIndexed = false
  accessor : t.vectorIndex colKey.index = none

theorem join_getElem?_range {α : Type*} {n i : ℕ} (f : ℕ → Option α) :
    (((List.range n).map f)[i]?).join = if i < n then f i else none := by
  rw [List.getElem?_map]
  split
  · next hlt => rw [List.getElem?_range hlt]; rfl
  · next hge => rw [List.getElem?_eq_none (by simpa using hge)]; rfl

theorem stringIndex_refresh : t.refreshIndexAccessors.stringIndex colNdx
      = if colNdx < t.leafNdx2colkey.length then t.refreshedIndex colNdx
        else none := join_getElem?_range _

theorem vectorIndex_refresh : t.refreshIndexAccessors.vectorIndex colNdx
      = if colNdx < t.leafNdx2colkey.length then
          t.refreshedVectorIndex colNdx
        else none := join_getElem?_range _

theorem Unchanged.refl : Unchanged t t colNdx where
  slot := rfl
  attr := rfl
  accessors _ := rfl
  refreshed := ⟨rfl, rfl⟩
  unindexed hzero := by
    rw [stringIndex_refresh, vectorIndex_refresh]
    unfold refreshedIndex refreshedVectorIndex
    simp [hzero]

/-- If the checks pass, the outcome is that of the build. -/
theorem addVectorIndex_of_builds (vm : VectorMath F)
    (h : t.Builds colKey config) :
    (t.addVectorIndex vm colKey config).1
        = (doRebuild vm config (t.lists colKey.index)).1
      ∧ ((doRebuild vm config (t.lists colKey.index)).1.isOk = false
        → (t.addVectorIndex vm colKey config).2
          = t.published colKey.index config
            (doRebuild vm config (t.lists colKey.index)).2) := by
  have hfloat : decide (colKey.isList = true ∧ colKey.type = .float)
      = true := decide_eq_true ⟨h.list, h.float⟩
  unfold addVectorIndex doAddVectorIndex
  simp only [h.column, h.config, hfloat, h.attr, h.accessor, Bool.not_true,
    Bool.false_eq_true, if_false, Option.isSome_none]
  refine ⟨trivial, fun hfails => ?_⟩
  simp only [hfails, Bool.false_eq_true, if_false]

/-- A call that throws has changed nothing, or failed in the build. -/
theorem addVectorIndex_error {e : IndexError}
    (h : (t.addVectorIndex vm colKey config).1 = .error e) :
    (t.addVectorIndex vm colKey config).2 = t
      ∨ t.Builds colKey config
        ∧ BuildFails config (t.lists colKey.index) := by
  by_cases hcolumn : t.validColumn colKey = true
  case neg => exact .inl (by simp [addVectorIndex, hcolumn])
  by_cases hconfig : (validateVectorConfig config).isOk = true
  case neg => exact .inl (by simp [addVectorIndex, hcolumn, hconfig])
  by_cases hfloat : colKey.isList = true ∧ colKey.type = .float
  case neg => exact .inl (by simp [addVectorIndex, hcolumn, hconfig, hfloat])
  by_cases hattr : (t.getColumnAttr colKey.index).vectorIndexed = true
  · left
    have heq : t.addVectorIndex vm colKey config
        = t.reconcile colKey.index config := by
      simp [addVectorIndex, hcolumn, hconfig, hfloat, hattr]
    rw [heq] at h ⊢
    unfold reconcile at h ⊢
    cases hindex : t.vectorIndex colKey.index with
    | none => rfl
    | some existing =>
      rw [hindex, Option.elim_some] at h
      rw [Option.elim_some]
      split at h
      · next hbad => rw [if_pos hbad]
      · split at h <;> cases h
  · cases haccessor : t.vectorIndex colKey.index with
    | some existing =>
      have hok : (t.addVectorIndex vm colKey config).1 = .ok () := by
        simp [addVectorIndex, doAddVectorIndex, hcolumn, hconfig, hfloat,
          hattr, haccessor]
      rw [hok] at h
      cases h
    | none =>
      right
      have hbuilds : t.Builds colKey config :=
        ⟨hcolumn, hconfig, hfloat.1, hfloat.2, by simpa using hattr,
          haccessor⟩
      refine ⟨hbuilds, ?_⟩
      rw [(addVectorIndex_of_builds vm hbuilds).1] at h
      by_contra hgood
      have hok : (doRebuild vm config (t.lists colKey.index)).1.isOk
          = true := doRebuild_isOk.2 hgood
      rw [h] at hok
      cases hok

/-- Adding an index is all or nothing, unless the checks pass and the
build fails. -/
theorem add_vector_index_all_or_nothing_iff (vm : VectorMath F)
    (hwf : t.WellFormed) :
    AllOrNothing vm t colKey config
      ↔ ¬ (t.Builds colKey config
        ∧ BuildFails config (t.lists colKey.index)) := by
  constructor
  · intro hatomic hfails
    obtain ⟨hbuilds, hbad⟩ := hfails
    obtain ⟨hresult, htable⟩ := addVectorIndex_of_builds vm hbuilds
    have hthrows : (doRebuild vm config (t.lists colKey.index)).1.isOk
        = false := by
      rw [← Bool.not_eq_true, doRebuild_isOk, not_not]
      exact hbad
    cases herror : (doRebuild vm config (t.lists colKey.index)).1 with
    | ok u =>
      rw [herror] at hthrows
      cases hthrows
    | error e =>
      have hslot := (hatomic e (hresult.trans herror)).slot
      rw [htable hthrows] at hslot
      have hcolumn := (of_decide_eq_true hbuilds.column).2
      have hlt : colKey.index < t.indexRefs.length := by
        rw [hwf.slots]
        exact (List.getElem?_eq_some_iff.1 hcolumn).1
      have hold : t.getAsRef colKey.index < t.nextRef := by
        unfold getAsRef
        rw [List.getD_eq_getElem?_getD, List.getElem?_eq_getElem hlt,
          Option.getD_some]
        exact hwf.used _ (List.getElem_mem hlt)
      have hnew : (t.published colKey.index config
          (doRebuild vm config (t.lists colKey.index)).2).getAsRef
            colKey.index = t.nextRef := by
        show (t.indexRefs.set _ _).getD _ 0 = _
        rw [List.getD_eq_getElem?_getD, List.getElem?_set_self hlt]
        rfl
      omega
  · intro hgood e herror
    rcases addVectorIndex_error herror with hsame | hfails
    · rw [hsame]
      exact Unchanged.refl
    · exact absurd hfails hgood

private def plainMath : VectorMath ℕ := ⟨fun v => v, fun _ => true,
  fun _ => []⟩

private def vectorColumn : ColKey := ⟨0, .float, true, 7⟩

/-- One column without an index. The vectors of its objects have different
dimensions. -/
private def oneColumn : Table ℕ where
  leafNdx2colkey := [vectorColumn]
  leafNdx2specNdx := [0]
  columnNames := ["embedding"]
  attrs := [{}]
  lists _ := [(1, [4, 5]), (2, [4, 5, 6])]
  indexRefs := [0]
  indexAccessors := [none]
  vectorIndexAccessors := [none]
  hasAnyVectorIndex := false
  persisted _ := none
  nextRef := 8

private theorem oneColumn_wellFormed : oneColumn.WellFormed :=
  ⟨rfl, by decide, by decide⟩

/-- Without a declared dimension, adding an index is all or nothing. -/
theorem add_vector_index_all_or_nothing_inferred :
    AllOrNothing plainMath oneColumn vectorColumn {} := by
  refine (add_vector_index_all_or_nothing_iff plainMath
    oneColumn_wellFormed).2 fun hfails => ?_
  exact absurd hfails.2.1 (by decide)

/-- With one, the build throws, and a refresh then attaches a string index
to the column. -/
theorem failed_build_leaves_string_index :
    ∃ t : Table ℕ, oneColumn.addVectorIndex plainMath vectorColumn
        { dimensions := 2 } = (.error (.wrongDimension 2 3), t)
      ∧ oneColumn.getAsRef 0 = 0 ∧ t.getAsRef 0 = 8
      ∧ oneColumn.refreshIndexAccessors.stringIndex 0 = none
      ∧ t.refreshIndexAccessors.stringIndex 0 = some ⟨8, false⟩ :=
  ⟨_, rfl, rfl, rfl, rfl, rfl⟩

end Table

end BarqSync.Vector
