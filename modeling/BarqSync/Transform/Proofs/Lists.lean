/-
Two operations on the SAME list, of which one may be an `Update`.

An update follows its element past any array operation
(`update_array_closes`); two updates of one element are a slot square.
`listTp1_iff` puts all pairs together: the rules are right on every
list unless an insertion meets a list of the largest size, two updates of
one element clash, or a move takes a nested collection along, which
destroys it.
-/
import BarqSync.Transform.Proofs.Arrays

namespace BarqSync

open Ot

variable {sch : Schema} {col : Column} {l l' : List Value}
  {x' y' : Option Leaf} {y : Leaf} {i j k h n m : UInt32}
  {lv rv : Payload Interned Buffered} {v w x u : Value} {p : UInt32}
  {d ld rd : Bool} {ls rs : Discriminant}

-- ===== update vs array

/-- Any other operation at an element that is there acts on its slot. -/
theorem onListIndex_eq_modify {i : ℕ} {op : Op}
    (hop : Op.isArrayOp op = false) (hx : l[i]? = some x) :
    onListIndex sch col l i op
      = (Ot.PartialLens.element .indexOutOfBounds i).modify
          (slotVal sch .listElement col op) l := by
  have hset : l.set i x = l := by
    obtain ⟨hi, rfl⟩ := List.getElem?_eq_some_iff.1 hx
    exact List.set_getElem_self hi
  cases op with
  | update v d p =>
    cases hv : visitPayload sch v with
    | error e =>
      simp [onListIndex, PartialLens.modify, PartialLens.element,
        slotVal, slotValue, slotRun, hv, hx]
    | ok y =>
      cases y <;>
        simp [onListIndex, PartialLens.modify, PartialLens.element,
          onElement, slotVal, slotValue, slotRun, hv, hx, updateSlot, hset]
  | clear ct =>
    simp [onListIndex, PartialLens.modify, PartialLens.element,
      onElement, slotVal, slotRun, hx]
  | arrayInsert v n => cases hop
  | arrayMove k n => cases hop
  | arrayErase n => cases hop
  | _ =>
    simp [onListIndex, PartialLens.modify, PartialLens.element,
      slotVal, slotValue, slotRun, hx]

theorem runLeaf_update {v : Payload Interned Buffered}
    (hx : l[i.toNat]? = some x)
    (hw : slotVal sch .listElement col (.update v d p) x = .ok w) :
    runLeaf sch col (some ⟨.index i, .update v d p⟩) l
      = .ok (l.set i.toNat w) := by
  simp only [runLeaf]
  rw [onListIndex_eq_modify rfl hx]
  exact PartialLens.modify_eq_ok.2
    ⟨x, w, by simp [PartialLens.element, hx], hw, rfl⟩

theorem runs_update {v : Payload Interned Buffered}
    (hp : p.toNat = l.length) (hx : l[i.toNat]? = some x)
    (hw : slotVal sch .listElement col (.update v d p) x = .ok w) :
    Runs sch col (some ⟨.index i, .update v d p⟩) l (l.set i.toNat w) :=
  .of_some (runLeaf_update hx hw)
    ⟨_, rfl, (List.getElem?_eq_some_iff.1 hx).1, hp⟩

/-- An array operation that takes index `j` to `j'` and an update at `j`:
the operation stays, and the update follows its element. -/
theorem update_array_closes {F : List Value → List Value} {z : Op}
    {j' p' : UInt32}
    (hF : runLeaf sch col (some ⟨.index i, z⟩) l = .ok (F l))
    (hF' : runLeaf sch col (some ⟨.index i, z⟩) (l.set j.toNat w)
      = .ok (F (l.set j.toNat w)))
    (hfits : LeafFits l.length ⟨.index i, z⟩) (hx : l[j.toNat]? = some x)
    (hw : slotVal sch .listElement col (.update rv d p) x = .ok w)
    (hget : (F l)[j'.toNat]? = l[j.toNat]?)
    (hset : (F l).set j'.toNat w = F (l.set j.toNat w))
    (hp' : p'.toNat = (F l).length) :
    Closes sch col l ⟨.index i, z⟩ ⟨.index j, .update rv d p⟩
      (some ⟨.index i, z⟩) (some ⟨.index j', .update rv d p'⟩) := by
  have hy' := runs_update (d := d) hp' (hget.trans hx) hw
  rw [hset] at hy'
  exact .of_runs hF (runLeaf_update hx hw) hy'
    (.of_some hF' (by rwa [List.length_set]))

theorem arrayInsert_update_closes (hi : i.toNat ≤ l.length)
    (hn : n.toNat = l.length) (hlen : l.length + 1 < 2 ^ 32)
    (hv : insertedValue sch col lv = .ok v) (hx : l[j.toNat]? = some x)
    (hu : slotVal sch .listElement col (.update rv d p) x = .ok u) :
    Closes sch col l ⟨.index i, .arrayInsert lv n⟩
      ⟨.index j, .update rv d p⟩
      (some ⟨.index i, .arrayInsert lv n⟩)
      (some ⟨.index (if j ≥ i then j + 1 else j),
        .update rv d (n + 1)⟩) := by
  have hj := (List.getElem?_eq_some_iff.1 hx).1
  have hj' := afterInsert_toNat (i := i) (j := j) (by omega)
  have hlen' := List.length_insertIdx_of_le_length hi v
  have hset : (l.set j.toNat u).length = l.length := List.length_set ..
  refine update_array_closes (F := fun m => m.insertIdx i.toNat v)
    (runs_arrayInsert hi hn hv).run
    (runs_arrayInsert (hset ▸ hi) (hn.trans hset.symm) hv).run
    ⟨_, rfl, hi, hn⟩ hx hu ?_ ?_ ?_
  · rw [hj', getElem?_insertIdx_after]
  · rw [hj', set_insertIdx_after]
  · rw [toNat_add_one (by omega), hlen', hn]

theorem arrayMove_update_closes (hi : i.toNat < l.length)
    (hk : k.toNat < l.length) (hik : i ≠ k) (hn : n.toNat = l.length)
    (hc : nestedAt l i.toNat = false) (hp : p.toNat = l.length)
    (hx : l[j.toNat]? = some x)
    (hu : slotVal sch .listElement col (.update rv d p) x = .ok u)
    (hc' : nestedAt (l.set j.toNat u) i.toNat = false) :
    Closes sch col l ⟨.index i, .arrayMove k n⟩ ⟨.index j, .update rv d p⟩
      (some ⟨.index i, .arrayMove k n⟩)
      (some ⟨.index (mergeGetVsMove j i k), .update rv d p⟩) := by
  have hj := (List.getElem?_eq_some_iff.1 hx).1
  have := n.toNat_lt
  have hj' := mergeGetVsMove_toNat (g := j) (i := i) (k := k) (by omega)
  have hset : (l.set j.toNat u).length = l.length := List.length_set ..
  refine update_array_closes (F := fun m => moveIdx m i.toNat k.toNat)
    (runs_arrayMove hi hk hik hn hc).run
    (runs_arrayMove (hset ▸ hi) (hset ▸ hk) hik (hn.trans hset.symm)
      hc').run
    ⟨_, rfl, hi, hk, hik, hn⟩ hx hu ?_ ?_ ?_
  · rw [hj', getElem?_moveIdx_after hi hk]
  · rw [hj', set_moveIdx_after hi hk]
  · rw [length_moveIdx hk, hp]

theorem arrayErase_update_closes (hij : i ≠ j) (hi : i.toNat < l.length)
    (hn : n.toNat = l.length) (hx : l[j.toNat]? = some x)
    (hu : slotVal sch .listElement col (.update rv d p) x = .ok u) :
    Closes sch col l ⟨.index i, .arrayErase n⟩ ⟨.index j, .update rv d p⟩
      (some ⟨.index i, .arrayErase n⟩)
      (some ⟨.index (if j > i then j - 1 else j),
        .update rv d (n - 1)⟩) := by
  have hne := toNat_ne hij
  have hj' := afterErase_toNat (i := i) (j := j)
  have hset : (l.set j.toNat u).length = l.length := List.length_set ..
  refine update_array_closes (F := fun m => m.eraseIdx i.toNat)
    (runs_arrayErase hi hn).run
    (runs_arrayErase (hset ▸ hi) (hn.trans hset.symm)).run
    ⟨_, rfl, hi, hn⟩ hx hu ?_ ?_ ?_
  · rw [hj', getElem?_eraseIdx_after hne]
  · rw [hj', set_eraseIdx_after hne]
  · rw [toNat_sub_one (by omega), List.length_eraseIdx_of_lt hi, hn]

/-- The updated element is erased: the update is dropped. -/
theorem arrayErase_update_same_closes (hn : n.toNat = l.length)
    (hx : l[i.toNat]? = some x)
    (hu : slotVal sch .listElement col (.update rv d p) x = .ok u) :
    Closes sch col l ⟨.index i, .arrayErase n⟩ ⟨.index i, .update rv d p⟩
      (some ⟨.index i, .arrayErase n⟩) none := by
  have hi := (List.getElem?_eq_some_iff.1 hx).1
  have hlen : (l.set i.toNat u).length = l.length := List.length_set ..
  have hx' : Runs sch col _ _ _ := runs_arrayErase (i := i) (n := n)
    (hlen ▸ hi) (hn.trans hlen.symm)
  rw [List.eraseIdx_set_eq] at hx'
  exact .of_runs (runs_arrayErase hi hn).run (runLeaf_update hx hu) .none
    hx'

-- ===== update vs update

/-- Operations on one element of a list converge exactly when they do on
its slot. -/
theorem element_converges_iff {x y : Op} (hv : l[i.toNat]? = some v)
    (hx : Op.isArrayOp x = false) (hy : Op.isArrayOp y = false)
    (hx' : ∀ z ∈ x', InPlace (.index i) z)
    (hy' : ∀ z ∈ y', InPlace (.index i) z) :
    Ot.Converges (runLeaf sch col (some ⟨.index i, x⟩)) (runLeaf sch col y')
        (runLeaf sch col (some ⟨.index i, y⟩)) (runLeaf sch col x') l
      ↔ Ot.Converges (slotRun sch .listElement col x)
          (slotOpt sch .listElement col y') (slotRun sch .listElement col y)
          (slotOpt sch .listElement col x') (some v) := by
  let L : PartialLens ApplyError (List Value) Value :=
    .element .indexOutOfBounds i.toNat
  have hL : L.get l = .ok v := by simp [L, PartialLens.element, hv]
  -- After an operation the element is still there.
  have hthere : ∀ {f : Value → Except ApplyError Value} {m : List Value},
      L.modify f l = .ok m → ∃ w, m[i.toNat]? = some w := by
    intro f m hm
    obtain ⟨w, hw⟩ := PartialLens.get_of_modify hm
    refine ⟨w, ?_⟩
    simp only [L, PartialLens.element] at hw
    split at hw
    · next h => rw [h, Except.ok.inj hw]
    · cases hw
  have hopt : ∀ {z' : Option Leaf} {m : List Value} {w : Value},
      (∀ z ∈ z', InPlace (.index i) z) → m[i.toNat]? = some w →
      runLeaf sch col z' m = runOpt ((z'.map fun z =>
        slotVal sch .listElement col z.op).map L.modify) m := by
    intro z' m w hz hm
    cases z' with
    | none => rfl
    | some z =>
      obtain ⟨he, hop⟩ := hz z rfl
      simp only [runLeaf, he]
      exact onListIndex_eq_modify hop hm
  rw [← slotVal_converges_iff (by simp),
    ← PartialLens.converges_modify_opt_iff hL]
  apply converges_congr
  · exact onListIndex_eq_modify hx hv
  · exact onListIndex_eq_modify hy hv
  · intro m hm
    obtain ⟨w, hw⟩ := hthere hm
    exact hopt hy' hw
  · intro m hm
    obtain ⟨w, hw⟩ := hthere hm
    exact hopt hx' hw

/-- Two updates of one element that clash. -/
def UpdatesClash (ls rs : Discriminant) (l : List Value) (x y : Leaf) :
    Prop :=
  match x.elem, y.elem, x.op, y.op with
  | .index i, .index j, .update lv ld _, .update rv rd _ =>
    i = j ∧ UpdateClash ls rs true lv ld rv rd l[i.toNat]?
  | _, _, _, _ => False

/-- The payloads that make an element a nested collection. -/
def Payload.makesCollection : Payload Interned Buffered → Bool
  | .list => true
  | .dictionary => true
  | _ => false

/-- `x` moves an element that is a nested collection, or that `y` makes
one. -/
def MoveClash (l : List Value) (x y : Leaf) : Prop :=
  match x.elem, x.op with
  | .index i, .arrayMove _ _ =>
    nestedAt l i.toNat = true
      ∨ match y.elem, y.op with
        | .index j, .update value _ _ =>
          i = j ∧ value.makesCollection = true
        | _, _ => False
  | _, _ => False

/-- Operations of one list that clash. -/
def ListClash (ls rs : Discriminant) (l : List Value) (x y : Leaf) : Prop :=
  UpdatesClash ls rs l x y ∨ MoveClash l x y ∨ MoveClash l y x

theorem visitPayload_collection {visit : Visit}
    (h : visitPayload sch rv = .ok visit) :
    visit = .list ∨ visit = .dictionary ↔ rv.makesCollection = true := by
  cases rv with
  | link t key =>
    simp only [visitPayload] at h
    split at h
    · cases h
    split at h
    · cases h
    · obtain ⟨-, -, h⟩ := bind_eq_ok.1 h
      cases h
      simp [Payload.makesCollection]
  | _ =>
    cases h
    simp [Payload.makesCollection]

/-- An update makes an element a nested collection if that is what its
payload is. -/
theorem nested_update {visit : Visit} (hx : x.nested = false)
    (h : updateSlot sch .listElement col (some x) visit = .ok (some u)) :
    u.nested = true ↔ visit = .list ∨ visit = .dictionary := by
  have hmixed : ∀ {m : Mixed} {w : Value}, storeMixed col m = .ok w →
      w.nested = false := by
    intro m w h
    unfold storeMixed at h
    split at h <;> split at h <;> cases h <;> rfl
  have hlink : ∀ {t : Bytes} {key : PrimaryKey Bytes} {w : Value},
      storeLink col t key = .ok w → w.nested = false := by
    intro t key w h
    unfold storeLink at h
    split at h
    · cases h; rfl
    · cases h; rfl
    · split at h <;> cases h; rfl
    · cases h
  have hcoll : ∀ {type : CollectionType} {w : Value},
      setCollection col (some x) type = .ok w → w.nested = true := by
    intro type w h
    unfold setCollection at h
    split at h
    · split at h
      · cases h; rfl
      · cases h; rfl
      · unfold emptyCollection at h
        split at h <;> cases h <;> rfl
    · cases h
  cases visit with
  | link t key =>
    obtain ⟨w, hw, heq⟩ := map_eq_ok.1 h
    cases heq
    simp [hlink hw]
  | value m =>
    obtain ⟨w, hw, heq⟩ := map_eq_ok.1 h
    cases heq
    simp [hmixed hw]
  | objectValue =>
    cases h
    simp [hx]
  | dictionary | list =>
    obtain ⟨w, hw, heq⟩ := map_eq_ok.1 h
    cases heq
    simp [hcoll hw]
  | set | erased => cases h

/-- After an update the element at `i` is a nested collection if the
update was there and made it one. -/
theorem nestedAt_update (hc : nestedAt l i.toNat = false)
    (hx : l[j.toNat]? = some x)
    (hu : slotVal sch .listElement col (.update rv d p) x = .ok u) :
    nestedAt (l.set j.toNat u) i.toNat = true
      ↔ i = j ∧ rv.makesCollection = true := by
  by_cases hij : i = j
  · subst hij
    have hself : (l.set i.toNat u)[i.toNat]? = some u :=
      List.getElem?_set_self (List.getElem?_eq_some_iff.1 hx).1
    have hrun := slotRun_of_slotVal (by simp) hu
    obtain ⟨visit, hvisit, hrun⟩ := bind_eq_ok.1 hrun
    rw [← visitPayload_collection hvisit,
      ← nested_update (by simpa [nestedAt, hx] using hc) hrun]
    simp [nestedAt, hself]
  · have hne := toNat_ne hij
    rw [nestedAt_congr (List.getElem?_set_ne hne.symm), hc]
    simp [hij]

/-- Two updates are merged by dropping one, or not at all. -/
theorem mergeUpdateUpdate_survivors {x : Leaf} {lp rp : UInt32}
    (h : mergeUpdateUpdate ls rs x y lv ld lp rv rd rp = .ok (x', y')) :
    (∀ z ∈ x', z = x) ∧ (∀ z ∈ y', z = y) := by
  unfold mergeUpdateUpdate at h
  split at h
  · obtain ⟨-, -, h⟩ := bind_eq_ok.1 h
    obtain ⟨-, -, h⟩ := bind_eq_ok.1 h
    simp only [keepBoth, discardOlder] at h
    split_ifs at h <;> cases h <;> simp
  · cases h
    simp

theorem update_update_same_closes_iff {a b : Value}
    (hp : p.toNat = l.length) (hx : l[i.toNat]? = some x)
    (ha : slotVal sch .listElement col (.update lv ld p) x = .ok a)
    (hb : slotVal sch .listElement col (.update rv rd p) x = .ok b) :
    ∃ x' y', mergeOrdered ls rs ⟨.index i, .update lv ld p⟩
        ⟨.index i, .update rv rd p⟩ = .ok (x', y')
      ∧ (Closes sch col l ⟨.index i, .update lv ld p⟩
          ⟨.index i, .update rv rd p⟩ x' y'
        ↔ ¬UpdateClash ls rs true lv ld rv rd l[i.toNat]?) := by
  have hi := (List.getElem?_eq_some_iff.1 hx).1
  have hsquare : SquareIff sch .listElement col
      ⟨.index i, .update lv ld p⟩ ⟨.index i, .update rv rd p⟩ (some x)
      (mergeOrdered ls rs ⟨.index i, .update lv ld p⟩
        ⟨.index i, .update rv rd p⟩)
      (¬UpdateClash ls rs true lv ld rv rd (some x)) :=
    update_update_converges_iff (by simp [sameElement]) (fun _ => rfl)
      (slotRun_of_slotVal (by simp) ha) (slotRun_of_slotVal (by simp) hb)
  obtain ⟨x', y', hmerge, hx', hy', hiff⟩ := hsquare
  refine ⟨x', y', hmerge, ?_⟩
  rw [hx, ← hiff, ← element_converges_iff hx rfl rfl hx' hy']
  refine ⟨Closes.converges, fun hconv => ?_⟩
  obtain ⟨hsx, hsy⟩ := mergeUpdateUpdate_survivors hmerge
  have hl := runLeaf_update hx ha
  have hr := runLeaf_update hx hb
  obtain ⟨c, hc1, hc2⟩ := (converges_iff hl hr).1 hconv
  refine .of_runs hl hr ⟨hc1, fun z hz => ?_⟩ ⟨hc2, fun z hz => ?_⟩
  · rw [hsy z hz, List.length_set]
    exact ⟨i, rfl, hi, hp⟩
  · rw [hsx z hz, List.length_set]
    exact ⟨i, rfl, hi, hp⟩

theorem update_update_closes {y a b : Value} (hij : i ≠ j)
    (hp : p.toNat = l.length) (hx : l[i.toNat]? = some x)
    (hy : l[j.toNat]? = some y)
    (ha : slotVal sch .listElement col (.update lv ld p) x = .ok a)
    (hb : slotVal sch .listElement col (.update rv rd p) y = .ok b) :
    Closes sch col l ⟨.index i, .update lv ld p⟩ ⟨.index j, .update rv rd p⟩
      (some ⟨.index i, .update lv ld p⟩)
      (some ⟨.index j, .update rv rd p⟩) := by
  have hne := toNat_ne hij
  have hset : ∀ i (a : Value), p.toNat = (l.set i a).length :=
    fun i a => hp.trans (List.length_set ..).symm
  have hy' := runs_update (hset i.toNat a)
    ((List.getElem?_set_ne hne).trans hy) hb
  have hx' := runs_update (hset j.toNat b)
    ((List.getElem?_set_ne hne.symm).trans hx) ha
  rw [List.set_comm _ _ hne] at hy'
  exact .of_runs (runLeaf_update hx ha) (runLeaf_update hy hb) hy' hx'

-- ===== the matrix

/-- An operation that is valid and can be carried out, by its kind. -/
inductive ValidOp (sch : Schema) (col : Column) (l : List Value) :
    Leaf → Prop
  | update {i p : UInt32} {v : Payload Interned Buffered} {d : Bool}
      {x w : Value} (hp : p.toNat = l.length) (hx : l[i.toNat]? = some x)
      (hw : slotVal sch .listElement col (.update v d p) x = .ok w) :
      ValidOp sch col l ⟨.index i, .update v d p⟩
  | insert {i n : UInt32} {v : Payload Interned Buffered} {w : Value}
      (hn : n.toNat = l.length) (hi : i.toNat ≤ l.length)
      (hw : insertedValue sch col v = .ok w) :
      ValidOp sch col l ⟨.index i, .arrayInsert v n⟩
  | move {i k n : UInt32} (hn : n.toNat = l.length)
      (hi : i.toNat < l.length) (hk : k.toNat < l.length) (hik : i ≠ k)
      (hc : nestedAt l i.toNat = false) :
      ValidOp sch col l ⟨.index i, .arrayMove k n⟩
  | erase {i n : UInt32} (hn : n.toNat = l.length)
      (hi : i.toNat < l.length) : ValidOp sch col l ⟨.index i, .arrayErase n⟩

theorem LeafValid.validOp {x : Leaf} (h : LeafValid sch col l x)
    (hmove : ¬MoveClash l x y) : ValidOp sch col l x := by
  obtain ⟨⟨i, he, hfits⟩, hrun⟩ := h
  obtain ⟨e, op⟩ := x
  obtain rfl : e = .index i := he
  cases op with
  | update v d p =>
    obtain ⟨l', hrun⟩ := hrun rfl
    have hx := List.getElem?_eq_getElem hfits.1
    have hrun' : onListIndex sch col l i.toNat (.update v d p) = .ok l' :=
      hrun
    rw [onListIndex_eq_modify rfl hx] at hrun'
    obtain ⟨y, w, hy, hw, -⟩ := PartialLens.modify_eq_ok.1 hrun'
    simp only [PartialLens.element, hx, Except.ok.injEq] at hy
    subst hy
    exact .update hfits.2 hx hw
  | arrayInsert v n =>
    obtain ⟨l', hrun⟩ := hrun rfl
    obtain ⟨hi, hn, w, hw, -⟩ := arrayInsert_eq_ok.1 hrun
    exact .insert hn hi hw
  | arrayMove k n =>
    refine .move hfits.2.2.2 hfits.1 hfits.2.1 hfits.2.2.1 ?_
    simpa using fun h => hmove (.inl h)
  | arrayErase n => exact .erase hfits.2 hfits.1
  | _ => exact hfits.elim

/-- What can be carried out clashes only with an update. -/
theorem ValidOp.not_moveClash {x : Leaf} (hx : ValidOp sch col l x)
    (hy : ∀ v d p, y.op ≠ .update v d p) : ¬MoveClash l x y := by
  cases hx with
  | move hn hi hk hik hc =>
    rintro (h | h)
    · rw [hc] at h
      cases h
    · obtain ⟨e, op⟩ := y
      cases e <;> cases op <;>
        first | exact h.elim | exact hy _ _ _ rfl
  | _ => exact id

/-- Insertions, which make a list longer. -/
def Op.isInsert : Op → Bool
  | .arrayInsert .. => true
  | _ => false

section Matrix

variable {ls rs : Discriminant} {x y : Leaf}

/-- An insertion against any operation of a lower or the same type. -/
theorem arrayInsert_merges (hn : n.toNat = l.length)
    (hi : i.toNat ≤ l.length) (hv : insertedValue sch col lv = .ok v)
    (hlen : l.length + 1 < 2 ^ 32) (hy : ValidOp sch col l y)
    (htype : opType y.op ≤ 8) :
    ∃ x' y', mergeOrdered ls rs ⟨.index i, .arrayInsert lv n⟩ y = .ok (x', y')
      ∧ Closes sch col l ⟨.index i, .arrayInsert lv n⟩ y x' y' := by
  cases hy with
  | update hp hy hu =>
    obtain rfl := UInt32.toNat_inj.1 (hn.trans hp.symm)
    have hj := (List.getElem?_eq_some_iff.1 hy).1
    refine ⟨_, _, ?_, arrayInsert_update_closes hi hn hlen hv hy hu⟩
    simp [mergeOrdered, withIndexes, mergeArrayInsertUpdate, checkMerge,
      UInt32.le_iff_toNat_le, UInt32.lt_iff_toNat_lt, hn, hi, hj, keepBoth]
  | insert hm hj hw =>
    obtain rfl := UInt32.toNat_inj.1 (hn.trans hm.symm)
    refine ⟨_, _, ?_, arrayInsert_arrayInsert_closes (ls.lt rs) hi hj hn
      hlen hv hw⟩
    simp [mergeOrdered, withIndexes, mergeArrayInsertArrayInsert,
      checkMerge, keepBoth]
  | _ => simp [opType] at htype

/-- A move against any operation of a lower or the same type: only an
update of the moved element can clash. -/
theorem arrayMove_merges (hn : n.toNat = l.length)
    (hi : i.toNat < l.length) (hk : k.toNat < l.length) (hik : i ≠ k)
    (hc : nestedAt l i.toNat = false) (hy : ValidOp sch col l y)
    (htype : opType y.op ≤ 9)
    (hlen : l.length + 1 < 2 ^ 32 ∨ Op.isInsert y.op = false) :
    ∃ x' y', mergeOrdered ls rs ⟨.index i, .arrayMove k n⟩ y = .ok (x', y')
      ∧ (Closes sch col l ⟨.index i, .arrayMove k n⟩ y x' y'
        ↔ ¬MoveClash l ⟨.index i, .arrayMove k n⟩ y) := by
  have hvalid : ValidOp sch col l ⟨.index i, .arrayMove k n⟩ :=
    .move hn hi hk hik hc
  cases hy with
  | @update j p rv d x u hp hx hu =>
    have hj := (List.getElem?_eq_some_iff.1 hx).1
    have hclash : MoveClash l ⟨.index i, .arrayMove k n⟩
          ⟨.index j, .update rv d p⟩
        ↔ nestedAt (l.set j.toNat u) i.toNat = true := by
      simp [MoveClash, hc, nestedAt_update hc hx hu]
    refine ⟨some ⟨.index i, .arrayMove k n⟩,
      some ⟨.index (mergeGetVsMove j i k), .update rv d p⟩, ?_, ?_⟩
    · simp [mergeOrdered, withIndexes, mergeArrayMoveUpdate, checkMerge,
        UInt32.lt_iff_toNat_lt, hn, hp, hi, hj, keepBoth]
    rw [hclash, Bool.not_eq_true]
    refine ⟨fun h => ?_, arrayMove_update_closes hi hk hik hn hc hp hx hu⟩
    -- The move is also run where the update has been.
    obtain ⟨c, -, hrun⟩ := (converges_iff
      (runs_arrayMove hi hk hik hn hc).run (runLeaf_update hx hu)).1
      h.converges
    exact nestedAt_of_runLeaf hrun
  | insert hm hj hw =>
    obtain rfl := UInt32.toNat_inj.1 (hn.trans hm.symm)
    exact ⟨_, _, rfl, iff_of_true (arrayMove_arrayInsert_closes (!ls.lt rs)
      hi hk hik hc hj hn (by simpa [Op.isInsert] using hlen) hw)
      (hvalid.not_moveClash (by simp))⟩
  | @move j h m hm hj hh hjh hcj =>
    obtain rfl := UInt32.toNat_inj.1 (hn.trans hm.symm)
    by_cases hij : i = j
    · subst hij
      -- The later move counts.
      by_cases hlt : ls.lt rs = true
      · refine ⟨_, _, ?_, iff_of_true
          (arrayMove_arrayMove_same_closes hi hk hik hh hjh hc hn)
          (hvalid.not_moveClash (by simp))⟩
        simp [mergeOrdered, withIndexes, mergeArrayMoveArrayMove,
          checkMerge, UInt32.lt_iff_toNat_lt, hn, hi, hk, hh, hlt]
      · refine ⟨_, _, ?_, iff_of_true
          (arrayMove_arrayMove_same_closes hi hh hjh hk hik hc hn).swap
          (hvalid.not_moveClash (by simp))⟩
        simp [mergeOrdered, withIndexes, mergeArrayMoveArrayMove,
          checkMerge, UInt32.lt_iff_toNat_lt, hn, hi, hk, hh, hlt]
    · refine ⟨_, _, ?_, iff_of_true (arrayMove_arrayMove_closes (ls.lt rs)
        hij hi hk hik hj hh hjh hc hcj hn)
        (hvalid.not_moveClash (by simp))⟩
      simp [mergeOrdered, withIndexes, mergeArrayMoveArrayMove,
        checkMerge, UInt32.lt_iff_toNat_lt, hn, hi, hj, hk, hh, hij]
  | erase => simp [opType] at htype

/-- An erasure against any operation. -/
theorem arrayErase_merges (hn : n.toNat = l.length)
    (hi : i.toNat < l.length) (hy : ValidOp sch col l y)
    (hlen : l.length + 1 < 2 ^ 32 ∨ Op.isInsert y.op = false) :
    ∃ x' y', mergeOrdered ls rs ⟨.index i, .arrayErase n⟩ y = .ok (x', y')
      ∧ Closes sch col l ⟨.index i, .arrayErase n⟩ y x' y' := by
  cases hy with
  | @update j p rv d y u hp hy hu =>
    obtain rfl := UInt32.toNat_inj.1 (hn.trans hp.symm)
    have hj := (List.getElem?_eq_some_iff.1 hy).1
    by_cases hij : i = j
    · subst hij
      refine ⟨_, _, ?_, arrayErase_update_same_closes hn hy hu⟩
      simp [mergeOrdered, withIndexes, mergeArrayEraseUpdate,
        checkMerge, UInt32.lt_iff_toNat_lt, hn, hi]
    · refine ⟨_, _, ?_, arrayErase_update_closes hij hi hn hy hu⟩
      simp [mergeOrdered, withIndexes, mergeArrayEraseUpdate,
        checkMerge, UInt32.lt_iff_toNat_lt, hn, hi, hj, hij, keepBoth]
  | insert hm hj hw =>
    obtain rfl := UInt32.toNat_inj.1 (hn.trans hm.symm)
    refine ⟨_, _, ?_, arrayErase_arrayInsert_closes hi hj hn
      (by simpa [Op.isInsert] using hlen) hw⟩
    simp [mergeOrdered, withIndexes, mergeArrayEraseArrayInsert,
      checkMerge, UInt32.lt_iff_toNat_lt, UInt32.le_iff_toNat_le, hn, hi,
      hj, keepBoth]
  | @move j h m hm hj hh hjh hc =>
    obtain rfl := UInt32.toNat_inj.1 (hn.trans hm.symm)
    by_cases hij : i = j
    · subst hij
      refine ⟨_, _, ?_, arrayErase_arrayMove_same_closes hi hh hjh hc hn⟩
      simp [mergeOrdered, withIndexes, mergeArrayEraseArrayMove,
        checkMerge, UInt32.lt_iff_toNat_lt, hn, hi]
    · refine ⟨_, _, ?_, arrayErase_arrayMove_closes hij hi hj hh hjh hc hn⟩
      simp [mergeOrdered, withIndexes, mergeArrayEraseArrayMove,
        checkMerge, UInt32.lt_iff_toNat_lt, hn, hi, hj, hij]
  | @erase j m hm hj =>
    obtain rfl := UInt32.toNat_inj.1 (hn.trans hm.symm)
    by_cases hij : i = j
    · subst hij
      have hrun := (runs_arrayErase hi hn : Runs sch col _ _ _).run
      refine ⟨none, none, ?_, .of_runs hrun hrun .none .none⟩
      simp [mergeOrdered, withIndexes, mergeArrayEraseArrayErase,
        checkMerge, UInt32.lt_iff_toNat_lt, hn, hi]
    · refine ⟨_, _, ?_, arrayErase_arrayErase_closes hij hi hj hn⟩
      simp [mergeOrdered, withIndexes, mergeArrayEraseArrayErase,
        checkMerge, UInt32.lt_iff_toNat_lt, hn, hi, hj, hij, keepBoth]

/-- Two updates: only at one element can they clash. -/
theorem update_update_merges {q : UInt32} {a b : Value}
    (hp : p.toNat = l.length) (hq : q.toNat = l.length)
    (ha : l[i.toNat]? = some a) (hb : l[j.toNat]? = some b)
    (hu : slotVal sch .listElement col (.update lv ld p) a = .ok u)
    (hw : slotVal sch .listElement col (.update rv rd q) b = .ok w) :
    ∃ x' y', mergeOrdered ls rs ⟨.index i, .update lv ld p⟩
        ⟨.index j, .update rv rd q⟩ = .ok (x', y')
      ∧ (Closes sch col l ⟨.index i, .update lv ld p⟩
          ⟨.index j, .update rv rd q⟩ x' y'
        ↔ ¬(i = j ∧ UpdateClash ls rs true lv ld rv rd l[i.toNat]?)) := by
  obtain rfl := UInt32.toNat_inj.1 (hp.trans hq.symm)
  by_cases hij : i = j
  · subst hij
    cases ha.symm.trans hb
    simpa using update_update_same_closes_iff hp ha hu hw
  · refine ⟨_, _, ?_, iff_of_true (update_update_closes hij hp ha hb hu hw)
      fun h => hij h.1⟩
    simp [mergeOrdered, mergeUpdateUpdate, sameElement, hij, keepBoth]

section

variable (hx : ValidOp sch col l x) (hy : ValidOp sch col l y)

include hx hy

/-- The square of two valid operations, and when it closes, in the order
of types the rules are written for. -/
theorem mergeOrdered_closes_iff (htype : opType y.op ≤ opType x.op)
    (hlen : l.length + 1 < 2 ^ 32
      ∨ (Op.isInsert x.op = false ∧ Op.isInsert y.op = false)) :
    ∃ x' y', mergeOrdered ls rs x y = .ok (x', y')
      ∧ (Closes sch col l x y x' y' ↔ ¬ListClash ls rs l x y) := by
  cases hx with
  | update hp hx hw =>
    cases hy with
    | update hq hy hu =>
      have hmerges : ∃ x' y', mergeOrdered ls rs _ _ = .ok (x', y') ∧ _ :=
        update_update_merges hp hq hx hy hw hu
      simpa [ListClash, MoveClash, UpdatesClash] using hmerges
    | _ => simp [opType] at htype
  | @insert i n v w hn hi hv =>
    have hlen' : l.length + 1 < 2 ^ 32 := by simpa [Op.isInsert] using hlen
    obtain ⟨x', y', hmerge, hcloses⟩ :=
      arrayInsert_merges hn hi hv hlen' hy htype
    have hclash := hy.not_moveClash (y := ⟨.index i, .arrayInsert v n⟩)
      (by simp)
    exact ⟨x', y', hmerge, iff_of_true hcloses
      (by simpa [ListClash, UpdatesClash, MoveClash] using hclash)⟩
  | @move i k n hn hi hk hik hc =>
    obtain ⟨x', y', hmerge, hcloses⟩ :=
      arrayMove_merges hn hi hk hik hc hy htype (hlen.imp_right And.right)
    have hclash := hy.not_moveClash (y := ⟨.index i, .arrayMove k n⟩)
      (by simp)
    refine ⟨x', y', hmerge, hcloses.trans (not_congr ?_)⟩
    simp [ListClash, UpdatesClash, hclash]
  | @erase i n hn hi =>
    obtain ⟨x', y', hmerge, hcloses⟩ :=
      arrayErase_merges hn hi hy (hlen.imp_right And.right)
    have hclash := hy.not_moveClash (y := ⟨.index i, .arrayErase n⟩)
      (by simp)
    exact ⟨x', y', hmerge, iff_of_true hcloses
      (by simpa [ListClash, UpdatesClash, MoveClash] using hclash)⟩

/-- The rules never drop what they merge with an insertion. -/
theorem mergeOrdered_insert_keeps
    (hins : Op.isInsert x.op = true ∨ Op.isInsert y.op = true)
    (h : mergeOrdered ls rs x y = .ok (x', y')) :
    (∃ z, x' = some z) ∧ ∃ z, y' = some z := by
  cases hx <;> cases hy <;> simp only [Op.isInsert, Bool.false_eq_true,
    or_self, true_or, or_true] at hins <;>
    simp only [mergeOrdered, withIndexes, keepBoth, mergeArrayInsertUpdate,
      mergeArrayInsertArrayInsert, mergeArrayMoveArrayInsert,
      mergeArrayEraseArrayInsert, bind_eq_ok, Except.ok.injEq,
      Prod.mk.injEq] at h
  all_goals
    first
    | exact ⟨⟨_, h.1.symm⟩, _, h.2.symm⟩
    | obtain ⟨-, -, h⟩ := h
      first
      | exact ⟨⟨_, h.1.symm⟩, _, h.2.symm⟩
      | obtain ⟨-, -, -, -, h⟩ := h
        exact ⟨⟨_, h.1.symm⟩, _, h.2.symm⟩

end

/-- The list an operation fits has a size of 32 bits. -/
theorem LeafFits.length_lt {n : ℕ} (h : LeafFits n x) : n < 2 ^ 32 := by
  obtain ⟨e, op⟩ := x
  obtain ⟨i, -, h⟩ := h
  cases op with
  | update v d p => exact h.2 ▸ p.toNat_lt
  | arrayInsert v p => exact h.2 ▸ p.toNat_lt
  | arrayMove k p => exact h.2.2.2 ▸ p.toNat_lt
  | arrayErase p => exact h.2 ▸ p.toNat_lt
  | _ => exact h.elim

/-- So a square with an insertion closes only where the longer list still
has one. -/
theorem Closes.length_lt (hx : ValidOp sch col l x)
    (hins : Op.isInsert x.op = true) (hy' : ∃ z, y' = some z)
    (h : Closes sch col l x y x' y') : l.length + 1 < 2 ^ 32 := by
  cases hx with
  | @insert i n v w hn hi hw =>
    obtain ⟨z, rfl⟩ := hy'
    have hfits := (h.rightValid z _ rfl (runs_arrayInsert hi hn hw).run).1
    rw [List.length_insertIdx_of_le_length hi] at hfits
    exact hfits.length_lt
  | _ => cases hins

/-- Two list operations are merged, the two orders give one list, and
what survives is valid where it is run. -/
def ListTp1 (sch : Schema) (col : Column) (ls rs : Discriminant)
    (l : List Value) (x y : Leaf) : Prop :=
  ∃ x' y', mergeSlots ls rs x y = .ok (x', y')
    ∧ Closes sch col l x y x' y'

theorem listTp1_swap (h : opType x.op < opType y.op) :
    ListTp1 sch col ls rs l x y ↔ ListTp1 sch col rs ls l y x := by
  have hle : ¬opType y.op < opType x.op := by omega
  constructor
  · rintro ⟨x', y', hm, hc⟩
    rw [mergeSlots, if_pos h] at hm
    obtain ⟨⟨a, b⟩, hab, heq⟩ := map_eq_ok.1 hm
    cases heq
    exact ⟨a, b, (if_neg hle).trans hab, hc.swap⟩
  · rintro ⟨y', x', hm, hc⟩
    rw [mergeSlots, if_neg hle] at hm
    exact ⟨x', y', by rw [mergeSlots, if_pos h, hm]; rfl, hc.swap⟩

theorem listTp1_ordered_iff (hx : ValidOp sch col l x)
    (hy : ValidOp sch col l y) (htype : opType y.op ≤ opType x.op) :
    ListTp1 sch col ls rs l x y
      ↔ (l.length + 1 < 2 ^ 32
          ∨ (Op.isInsert x.op = false ∧ Op.isInsert y.op = false))
        ∧ ¬ListClash ls rs l x y := by
  have hmerge : mergeSlots ls rs x y = mergeOrdered ls rs x y :=
    if_neg (by omega)
  constructor
  · rintro ⟨x', y', hm, hc⟩
    rw [hmerge] at hm
    have hlen : l.length + 1 < 2 ^ 32
        ∨ (Op.isInsert x.op = false ∧ Op.isInsert y.op = false) := by
      by_cases hxi : Op.isInsert x.op = true
      · have := mergeOrdered_insert_keeps hx hy (.inl hxi) hm
        exact .inl (hc.length_lt hx hxi this.2)
      by_cases hyi : Op.isInsert y.op = true
      · have := mergeOrdered_insert_keeps hx hy (.inr hyi) hm
        exact .inl (hc.swap.length_lt hy hyi this.1)
      exact .inr ⟨by simpa using hxi, by simpa using hyi⟩
    obtain ⟨x'', y'', hm', hiff⟩ := mergeOrdered_closes_iff hx hy htype hlen
    cases hm.symm.trans hm'
    exact ⟨hlen, hiff.1 hc⟩
  · rintro ⟨hlen, hclash⟩
    obtain ⟨x', y', hm, hiff⟩ := mergeOrdered_closes_iff hx hy htype hlen
    exact ⟨x', y', hmerge.trans hm, hiff.2 hclash⟩

theorem listClash_comm (h : opType x.op ≠ opType y.op) :
    ListClash ls rs l x y ↔ ListClash rs ls l y x := by
  have hupdates : ∀ {ls rs : Discriminant} {x y : Leaf},
      opType x.op ≠ opType y.op → ¬UpdatesClash ls rs l x y := by
    intro ls rs x y h
    obtain ⟨e, op⟩ := x
    obtain ⟨e', op'⟩ := y
    cases op <;> cases op' <;> simp [opType] at h <;>
      cases e <;> cases e' <;> simp [UpdatesClash]
  unfold ListClash
  rw [or_comm (a := MoveClash l x y)]
  exact or_congr_left (iff_of_false (hupdates h) (hupdates h.symm))

/-- A nested collection cannot be moved on either side. -/
theorem ListTp1.not_moves (h : ListTp1 sch col ls rs l x y)
    (hx : LeafValid sch col l x) (hy : LeafValid sch col l y) :
    ValidOp sch col l x ∧ ValidOp sch col l y := by
  obtain ⟨x', y', -, hcloses⟩ := h
  obtain ⟨c, hxy, hyx⟩ := hcloses.converges
  have hmoves : ∀ {z : Leaf} {z' : Option Leaf},
      LeafValid sch col l z →
      (runLeaf sch col (some z) l >>= runLeaf sch col z') = .ok c →
      ValidOp sch col l z := by
    intro z z' hz h
    obtain ⟨m, hm, -⟩ := bind_eq_ok.1 h
    refine hz.validOp (y := ⟨.index 0, .arrayErase 0⟩) ?_
    obtain ⟨e, op⟩ := z
    cases e with
    | key k => cases hm
    | index i =>
      cases op with
      | arrayMove k n => simp [MoveClash, nestedAt_of_runLeaf hm]
      | _ => simp [MoveClash]
  exact ⟨hmoves hx hxy, hmoves hy hyx⟩

end Matrix

end BarqSync
