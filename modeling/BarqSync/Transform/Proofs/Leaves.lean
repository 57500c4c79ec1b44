/-
Two instructions at one slot: a field, an element of a list or an entry
of a dictionary. Whatever the container is, running an operation at the
slot is running it on the slot's content (`fieldRun`, `entryRun`,
`elementRun`), so two leaves at one slot converge exactly when the slot
square of `Slots` does (`leafTp1_iff`).
-/
import BarqSync.Transform.Proofs.Lists

namespace BarqSync

open PathElement Ot

-- ===== leaves

/-- The route of a leaf. -/
def Leaf.route (x : Leaf) : Route := ⟨[x.elem], x.op⟩

/-- One leaf of a container, or none if it was discarded. -/
def leafAt (sch : Schema) (place : Place) (x : Option Leaf) (v : Value) :
    Except ApplyError Value :=
  runRoute sch place (x.map Leaf.route) v

/-- Two leaves in one container are merged, and the two orders end in the
same value. -/
def LeafTp1 (sch : Schema) (place : Place) (ls rs : Discriminant)
    (x y : Leaf) (v : Value) : Prop :=
  ∃ x' y', mergeSlots ls rs x y = .ok (x', y')
    ∧ Converges (leafAt sch place (some x)) (leafAt sch place y')
        (leafAt sch place (some y)) (leafAt sch place x') v

section Leaves

variable {sch : Schema} {place : Place} {ls rs : Discriminant} {x y : Leaf}
  {v : Value}

theorem mergeRoutes_leaf_leaf : mergeRoutes ls rs x.route y.route
      = (mergeSlots ls rs x y >>= fun p =>
          .ok (p.1.map Leaf.route, p.2.map Leaf.route)) := by
  rfl

theorem routesTp1_leaf_iff : RoutesTp1 sch place ls rs x.route y.route v
      ↔ LeafTp1 sch place ls rs x y v := by
  unfold RoutesTp1
  rw [mergeRoutes_leaf_leaf]
  constructor
  · rintro ⟨l', r', hm, hconv⟩
    obtain ⟨⟨x', y'⟩, hxy, h⟩ := bind_eq_ok.1 hm
    cases h
    exact ⟨x', y', hxy, hconv⟩
  · rintro ⟨x', y', hxy, hconv⟩
    exact ⟨_, _, bind_eq_ok.2 ⟨_, hxy, rfl⟩, hconv⟩

end Leaves

-- ===== containers

/-- Two containers of the same kind. -/
def SameShape : Value → Value → Prop
  | .object _, .object _ => True
  | .list _, .list _ => True
  | .dictionary _, .dictionary _ => True
  | _, _ => False

/-- A path element of the right kind for a container. -/
def Enters (place : Place) (c : Value) (next : Elem) : Prop :=
  (∃ col l, place = .collection col ∧ c = .list l ∧ Elem.isIndex next = true)
    ∨ (∃ t f, place = .object t ∧ c = .object f ∧ Elem.isIndex next = false)
    ∨ ∃ col e, place = .collection col ∧ c = .dictionary e
      ∧ Elem.isIndex next = false

/-- Two path elements of one container, by the kind of the container. -/
inductive SlotsOf : Place → Value → Elem → Elem → Prop
  | field {t f} (k k') : SlotsOf (.object t) (.object f) (.key k) (.key k')
  | entry {col d} (k k') :
    SlotsOf (.collection col) (.dictionary d) (.key k) (.key k')
  | element {col l} (i j) :
    SlotsOf (.collection col) (.list l) (.index i) (.index j)

section Containers

variable {sch : Schema} {place : Place} {c d : Value} {e e' next : Elem}
  {rest rest' : List Elem} {op op' : Op} {v a b : Value}

/-- What a route finds in its container, and what it leaves. -/
theorem runRoute_shape
    (h : runRoute sch place (some ⟨next :: rest, op'⟩) c = .ok d) :
    SameShape c d ∧ Enters place c next := by
  cases rest with
  | nil =>
    simp only [runRoute, resolve, List.map_cons, List.map_nil] at h
    cases place <;> cases c <;> cases next <;>
      simp only [slot, resolveLast, reduceCtorEq] at h
    · obtain ⟨_, -, h⟩ := bind_eq_ok.1 h
      obtain ⟨_, -, h⟩ := bind_eq_ok.1 h
      cases h
      simp [SameShape, Enters, Elem.isIndex]
    · obtain ⟨_, -, h⟩ := bind_eq_ok.1 h
      cases h
      simp [SameShape, Enters, Elem.isIndex]
    · obtain ⟨_, -, h⟩ := bind_eq_ok.1 h
      cases h
      simp [SameShape, Enters, Elem.isIndex]
  | cons e rest =>
    obtain ⟨_, w, _, -, hc, -, rfl⟩ := runRoute_cons_eq_ok
      (r := ⟨e :: rest, op'⟩) (e := next) (by simp) h
    cases place <;> cases c <;> cases next <;>
      simp only [slot, child, reduceCtorEq] at hc <;>
      simp [withChild, slot, SameShape, Enters, Elem.isIndex]

theorem slotsOf (hx : runRoute sch place (some ⟨e :: rest, op⟩) v = .ok a)
    (hy : runRoute sch place (some ⟨e' :: rest', op'⟩) v = .ok b) :
    SlotsOf place v e e' := by
  have hy := (runRoute_shape hy).2
  rcases (runRoute_shape hx).2 with
    ⟨_, _, rfl, rfl, hi⟩ | ⟨_, _, rfl, rfl, hi⟩ | ⟨_, _, rfl, rfl, hi⟩ <;>
    cases e <;> cases hi <;> cases e' <;>
    simp [Enters, Elem.isIndex] at hy <;> constructor

end Containers

-- ===== the three kinds of slot

section Kinds

variable {sch : Schema} {col : Column} {op : Op} {k : Interned}
  {v a c : Value} {key : Bytes} {t : Table}

theorem Table.column_eq_ok {name : Bytes} :
    t.column name = .ok col ↔ t.columns name = some col := by
  unfold Table.column
  cases t.columns name <;> simp

theorem child_index_eq_ok {l : List Value} {i : ℕ} :
    child (.collection col) (.list l) (.index i) = .ok c
      ↔ l[i]? = some c := by
  simp only [child]
  cases l[i]? <;> simp

theorem child_key_eq_ok {d : Bytes → Option Value} :
    child (.collection col) (.dictionary d) (.key key) = .ok c
      ↔ d key = some c := by
  simp only [child]
  cases d key <;> simp

/-- A leaf at a field acts on the field. -/
theorem fieldRun (hcol : t.columns k.data = some col) :
    leafAt sch (.object t) (some ⟨.key k, op⟩)
      = (childLens (.object t) (.key k.data)).modify
          (fun c => onField sch col c op) := by
  funext v
  cases v <;>
    simp [leafAt, Leaf.route, runRoute, resolve, resolveLast, slot,
      Table.column_eq_ok.2 hcol, PartialLens.modify, childLens, child, withChild]

theorem column_of_leaf
    (h : leafAt sch (.object t) (some ⟨.key k, op⟩) v = .ok a) :
    ∃ f col, v = .object f ∧ t.columns k.data = some col := by
  cases v with
  | object f =>
    obtain ⟨col, hcol, -⟩ := bind_eq_ok.1 h
    exact ⟨f, col, rfl, Table.column_eq_ok.1 hcol⟩
  | _ => cases h

/-- A leaf at a key acts on the dictionary entry. -/
theorem entryRun : leafAt sch (.collection col) (some ⟨.key k, op⟩)
      = (entryLens k.data).modify
          (fun old => onDictionaryKey sch col k.data old op) := by
  funext v
  cases v <;>
    simp [leafAt, Leaf.route, runRoute, resolve, resolveLast, slot,
      PartialLens.modify, entryLens]

/-- A leaf at an index acts on the list. -/
theorem elementRun {i : UInt32} (l : List Value) :
    leafAt sch (.collection col) (some ⟨.index i, op⟩) (.list l)
      = Value.list <$> onListIndex sch col l i.toNat op := by
  simp only [leafAt, Leaf.route, runRoute, resolve, resolveLast,
    slot, Option.map_some, List.map_cons, List.map_nil]
  cases onListIndex sch col l i.toNat op <;> rfl

/-- A list element that is there is a part of the list. -/
theorem elementRun_eq_modify {i : UInt32} (hop : Op.isArrayOp op = false)
    (hc : child (.collection col) v (.index i.toNat) = .ok c) :
    leafAt sch (.collection col) (some ⟨.index i, op⟩) v
      = (childLens (.collection col) (.index i.toNat)).modify
          (slotVal sch .listElement col op) v := by
  cases v with
  | list m =>
    have hm := child_index_eq_ok.1 hc
    rw [elementRun, onListIndex_eq_modify hop hm]
    simp only [PartialLens.modify, PartialLens.element, childLens, child, hm,
      ok_bind, withChild]
    cases slotVal sch .listElement col op c <;> rfl
  | _ => cases hc

/-- A single-valued field is a slot. -/
theorem onProperty_eq (v : Value) :
    onProperty sch col v op = slotVal sch .property col op v := by
  unfold slotVal
  cases op with
  | update p d n =>
    simp only [onProperty, slotRun]
    cases visitPayload sch p <;> rfl
  | addInteger n =>
    simp only [onProperty, slotRun]
    split
    · rfl
    · cases addInt col v n <;> rfl
  | _ => rfl

theorem validKey_of_ok {old new : Option Value}
    (h : onDictionaryKey sch col key old op = .ok new) :
    validKey key = true := by
  cases hv : validKey key with
  | true => rfl
  | false =>
    cases op with
    | update p d n =>
      obtain ⟨y, -, h⟩ := bind_eq_ok.1 h
      simp [hv] at h
    | clear ct => simp [onDictionaryKey, hv] at h
    | _ => cases h

/-- A dictionary entry is a slot. -/
theorem onDictionaryKey_eq (hkey : validKey key = true)
    (old : Option Value) :
    onDictionaryKey sch col key old op
      = slotRun sch .dictionaryEntry col op old := by
  cases op with
  | update p d n | clear ct => simp [onDictionaryKey, slotRun, hkey]
  | addInteger n => cases old <;> rfl
  | _ => rfl

theorem entryRun_eq_modify (hkey : validKey key = true)
    (hk : key = k.data) :
    leafAt sch (.collection col) (some ⟨.key k, op⟩)
      = (entryLens key).modify (slotRun sch .dictionaryEntry col op) := by
  subst hk
  rw [entryRun]
  exact congrArg _ (funext (onDictionaryKey_eq hkey))

end Kinds

-- ===== one slot

/-- Leaves at a slot of `v` converge exactly when they do on its
content, as long as they stay at the slot. -/
def OnSlot (sch : Schema) (place : Place) (v : Value) (x y : Leaf)
    (kind : SlotKind) (col : Column) (old : Option Value) : Prop :=
  ∀ x' y', (∀ z ∈ x', InPlace x.elem z) → (∀ z ∈ y', InPlace y.elem z) →
    (Converges (leafAt sch place (some x)) (leafAt sch place y')
        (leafAt sch place (some y)) (leafAt sch place x') v
      ↔ Converges (slotRun sch kind col x.op) (slotOpt sch kind col y')
          (slotRun sch kind col y.op) (slotOpt sch kind col x') old)

section OneSlot

variable {sch : Schema} {place : Place} {ls rs : Discriminant} {x y : Leaf}
  {v : Value} {kind : SlotKind} {col : Column} {old : Option Value}
  {op op' : Op} {k k' : Interned} {a b : Value} {l : List Value}
  {i : UInt32} {d : Bytes → Option Value} {f : Bytes → Value}

theorem leafTp1_of_square {good : Prop}
    (hsquare : SquareIff sch kind col x y old (mergeSlots ls rs x y) good)
    (hslot : OnSlot sch place v x y kind col old) :
    LeafTp1 sch place ls rs x y v ↔ good := by
  obtain ⟨x', y', hm, hx', hy', hiff⟩ := hsquare
  rw [← hiff, ← hslot x' y' hx' hy']
  constructor
  · rintro ⟨x'', y'', hm', hconv⟩
    cases hm.symm.trans hm'
    exact hconv
  · exact fun hconv => ⟨x', y', hm, hconv⟩

/-- Through a lens, an optional leaf that stays at its slot is an optional
operation on the part. -/
theorem leafAt_opt {α : Type} {L : PartialLens ApplyError Value α}
    {run : Op → α → Except ApplyError α} {e : Elem} {z' : Option Leaf}
    (hrun : ∀ op, leafAt sch place (some ⟨e, op⟩) = L.modify (run op))
    (hz : ∀ z ∈ z', z.elem = e) :
    leafAt sch place z' = runOpt ((z'.map fun z => run z.op).map L.modify) := by
  cases z' with
  | none => rfl
  | some z =>
    obtain ⟨e', op⟩ := z
    obtain rfl := hz _ rfl
    exact hrun op

theorem onSlot_property {t : Table} (hcol : t.columns k.data = some col)
    (hsingle : col.collection = .single) (hk : k.data = k'.data) :
    OnSlot sch (.object t) (.object f) ⟨.key k, op⟩ ⟨.key k', op'⟩ .property
      col (some (f k.data)) := by
  intro x' y' hx' hy'
  have hrun : ∀ k1 : Interned, k.data = k1.data → ∀ op,
      leafAt sch (.object t) (some ⟨.key k1, op⟩)
        = (childLens (.object t) (.key k.data)).modify
            (slotVal sch .property col op) := by
    intro k1 hk1 op
    rw [fieldRun (hk1 ▸ hcol), ← hk1]
    simp only [onField, hsingle, onProperty_eq]
  rw [hrun k rfl, hrun k' hk,
    leafAt_opt (hrun k rfl) fun z hz => (hx' z hz).1,
    leafAt_opt (hrun k' hk) fun z hz => (hy' z hz).1,
    PartialLens.converges_modify_opt_iff (a := f k.data) rfl,
    slotVal_converges_iff (by simp)]

theorem onSlot_entry (hkey : validKey k.data = true)
    (hk : k.data = k'.data) :
    OnSlot sch (.collection col) (.dictionary d) ⟨.key k, op⟩ ⟨.key k', op'⟩
      .dictionaryEntry col (d k.data) := by
  intro x' y' hx' hy'
  rw [entryRun_eq_modify hkey rfl, entryRun_eq_modify hkey hk,
    leafAt_opt (fun _ => entryRun_eq_modify hkey rfl) fun z hz => (hx' z hz).1,
    leafAt_opt (fun _ => entryRun_eq_modify hkey hk) fun z hz => (hy' z hz).1,
    PartialLens.converges_modify_opt_iff (a := d k.data) rfl]
  rfl

theorem onSlot_element {c : Value} (hc : l[i.toNat]? = some c)
    (hop : Op.isArrayOp op = false) (hop' : Op.isArrayOp op' = false) :
    OnSlot sch (.collection col) (.list l) ⟨.index i, op⟩ ⟨.index i, op'⟩
      .listElement col (some c) := by
  intro x' y' hx' hy'
  have hopt : ∀ {z' : Option Leaf}, (∀ z ∈ z', InPlace (.index i) z) →
      ∀ m, leafAt sch (.collection col) z' (.list m)
        = Value.list <$> runLeaf sch col z' m := by
    intro z' hz m
    cases z' with
    | none => rfl
    | some z =>
      obtain ⟨e, op⟩ := z
      obtain ⟨rfl, -⟩ := hz _ rfl
      exact elementRun m
  rw [← element_converges_iff hc hop hop' hx' hy']
  exact converges_map_iff (fun _ _ => Value.list.inj) elementRun elementRun
    (hopt hx') (hopt hy')

/-- What a path element names in a container, if anything. -/
def slotContent (place : Place) (v : Value) (e : Slot) : Option Value :=
  match child place v e with
  | .ok c => some c
  | .error _ => none

/-- The operations on a slot: `Update`, `AddInteger` and `Clear`. -/
def Op.isSlotOp : Op → Bool
  | .update .. => true
  | .addInteger .. => true
  | .clear .. => true
  | _ => false

theorem Op.isArrayOp_of_isSlotOp (h : Op.isSlotOp op = true) :
    Op.isArrayOp op = false := by
  cases op <;> first | rfl | cases h

/-- Updates of fields and entries carry no size. -/
theorem samePriorSize_keys :
    SamePriorSize ⟨.key k, op⟩ ⟨.key k', op'⟩ := by
  cases op <;> cases op' <;> simp [SamePriorSize, Elem.isIndex]

/-- The rule of two updates refuses different sizes of one list. -/
theorem samePriorSize_of_merge {p : Option Leaf × Option Leaf}
    (he : sameElement x.elem y.elem = true)
    (h : mergeSlots ls rs x y = .ok p) : SamePriorSize x y := by
  obtain ⟨e, op⟩ := x
  obtain ⟨e', op'⟩ := y
  cases op with
  | update lv ld lp =>
    cases op' with
    | update rv rd rp =>
      intro hindex
      simp only at hindex
      simp only [mergeSlots, opType, Nat.lt_irrefl, if_false, mergeOrdered,
        mergeUpdateUpdate, if_pos he] at h
      obtain ⟨-, -, h⟩ := bind_eq_ok.1 h
      obtain ⟨_, hcheck, -⟩ := bind_eq_ok.1 h
      simpa [checkMerge, Leaf.isArrayUpdate, hindex] using hcheck
    | _ => trivial
  | _ => trivial

/-- A collection column takes only a clear, which sets it to a fixed
value. -/
theorem clear_of_collection_column {c w : Value}
    (hop : Op.isSlotOp op = true) (hcoll : col.collection ≠ .single)
    (h : onField sch col c op = .ok w) :
    (∃ ct, op = .clear ct) ∧ ∀ c', onField sch col c' op = .ok w := by
  unfold onField at h ⊢
  cases op with
  | clear ct =>
    refine ⟨⟨ct, rfl⟩, fun c' => ?_⟩
    cases hc : col.collection with
    | single => exact absurd hc hcoll
    | _ => simpa [hc, onSet] using h
  | update v d n | addInteger n =>
    cases hc : col.collection <;> simp_all [onSet]
  | _ => cases hop

/-- Past the end of a list only the creation of an object is accepted,
and it does nothing. -/
theorem objectValue_of_missing {m : List Value} {i : ℕ}
    (hop : Op.isSlotOp op = true) (hi : l[i]? = none)
    (h : onListIndex sch col l i op = .ok m) :
    (∃ v d p, op = .update v d p ∧ v.type = .objectValue)
      ∧ l = m := by
  cases op with
  | update v d p =>
    simp only [onListIndex] at h
    obtain ⟨y, hy, h⟩ := bind_eq_ok.1 h
    by_cases hyo : y = .objectValue
    · subst hyo
      exact ⟨⟨v, d, p, rfl, (visit_eq_objectValue_iff hy).1 rfl⟩,
        Except.ok.inj h⟩
    · cases y <;> first | exact absurd rfl hyo | simp [onElement, hi] at h
  | addInteger n => cases h
  | clear ct => simp [onListIndex, onElement, hi] at h
  | _ => cases hop

theorem leafTp1_field_iff {t : Table} (hk : k.data = k'.data)
    (hop : Op.isSlotOp op = true) (hop' : Op.isSlotOp op' = true)
    (hx : leafAt sch (.object t) (some ⟨.key k, op⟩) (.object f) = .ok a)
    (hy : leafAt sch (.object t) (some ⟨.key k', op'⟩) (.object f) = .ok b) :
    LeafTp1 sch (.object t) ls rs ⟨.key k, op⟩ ⟨.key k', op'⟩ (.object f)
      ↔ ¬SlotClash ls rs ⟨.key k, op⟩ ⟨.key k', op'⟩ (some (f k.data)) := by
  have he : sameElement (.key k) (.key k') = true := by
    simpa [sameElement, sameString] using hk
  obtain ⟨_, col, -, hcol⟩ := column_of_leaf hx
  rw [fieldRun hcol] at hx
  rw [fieldRun (hk ▸ hcol), ← hk] at hy
  obtain ⟨_, w, ⟨⟩, hw, -⟩ := PartialLens.modify_eq_ok.1 hx
  obtain ⟨_, u, ⟨⟩, hu, -⟩ := PartialLens.modify_eq_ok.1 hy
  by_cases hsingle : col.collection = .single
  · simp only [onField, hsingle, onProperty_eq] at hw hu
    exact leafTp1_of_square
      (slot_converges_iff he samePriorSize_keys (slotRun_of_slotVal (by simp) hw)
        (slotRun_of_slotVal (by simp) hu))
      (onSlot_property hcol hsingle hk)
  · -- Two clears of one collection column end in the same empty one.
    obtain ⟨⟨ct, rfl⟩, hw'⟩ := clear_of_collection_column hop hsingle hw
    obtain ⟨⟨dt, rfl⟩, hu'⟩ := clear_of_collection_column hop' hsingle hu
    have hwu : w = u := by
      have hmatch : ∀ {ct w}, onField sch col (f k.data) (.clear ct) = .ok w →
          w = col.initial := by
        intro ct w h
        unfold onField at h
        cases hc : col.collection with
        | single => exact absurd hc hsingle
        | _ =>
          simp only [hc, onSet, clearColumn] at h
          split at h <;> cases h
          simp [Column.initial, hc]
      exact (hmatch hw).trans (hmatch hu).symm
    have hmerge : mergeSlots ls rs ⟨.key k, .clear ct⟩ ⟨.key k', .clear dt⟩
        = discardOlder ls rs ⟨.key k, .clear ct⟩ ⟨.key k', .clear dt⟩ := by
      simp [mergeSlots, opType, mergeOrdered, he]
    refine iff_of_true ?_ not_false
    have hrun : ∀ {k1 : Interned} {et} {g : Bytes → Value}, k.data = k1.data →
        (∀ c', onField sch col c' (.clear et) = .ok w) →
        leafAt sch (.object t) (some ⟨.key k1, .clear et⟩) (.object g)
          = .ok (.object (Function.update g k.data w)) := by
      intro k1 et g hk1 h
      rw [fieldRun (hk1 ▸ hcol), ← hk1]
      exact PartialLens.modify_eq_ok.2 ⟨g k.data, w, rfl, h _, rfl⟩
    have hlx := hrun (g := f) rfl hw'
    have hly := hrun (g := f) hk (hwu ▸ hu')
    unfold LeafTp1
    rw [hmerge, discardOlder]
    split
    · refine ⟨none, some _, rfl, (converges_discard_left hlx hly).2 ?_⟩
      rw [hrun hk (hwu ▸ hu')]
      simp
    · refine ⟨some _, none, rfl, (converges_discard_right hlx hly).2 ?_⟩
      rw [hrun rfl hw']
      simp

theorem leafTp1_entry_iff (hk : k.data = k'.data)
    (hx : leafAt sch (.collection col) (some ⟨.key k, op⟩) (.dictionary d)
      = .ok a)
    (hy : leafAt sch (.collection col) (some ⟨.key k', op'⟩) (.dictionary d)
      = .ok b) :
    LeafTp1 sch (.collection col) ls rs ⟨.key k, op⟩ ⟨.key k', op'⟩
        (.dictionary d)
      ↔ ¬SlotClash ls rs ⟨.key k, op⟩ ⟨.key k', op'⟩ (d k.data) := by
  have he : sameElement (.key k) (.key k') = true := by
    simpa [sameElement, sameString] using hk
  rw [entryRun] at hx hy
  rw [← hk] at hy
  obtain ⟨_, w, ⟨⟩, hw, -⟩ := PartialLens.modify_eq_ok.1 hx
  obtain ⟨_, u, ⟨⟩, hu, -⟩ := PartialLens.modify_eq_ok.1 hy
  have hkey := validKey_of_ok hw
  rw [onDictionaryKey_eq hkey] at hw hu
  exact leafTp1_of_square
    (slot_converges_iff he samePriorSize_keys hw hu) (onSlot_entry hkey hk)

/-- Two creations of an object past the end of a list do nothing. -/
theorem leafTp1_missing {a b : List Value} (hi : l[i.toNat]? = none)
    (hop : Op.isSlotOp op = true) (hop' : Op.isSlotOp op' = true)
    (hx : onListIndex sch col l i.toNat op = .ok a)
    (hy : onListIndex sch col l i.toNat op' = .ok b)
    (hp : SamePriorSize ⟨.index i, op⟩ ⟨.index i, op'⟩) :
    LeafTp1 sch (.collection col) ls rs ⟨.index i, op⟩ ⟨.index i, op'⟩
        (.list l)
      ∧ ¬SlotClash ls rs ⟨.index i, op⟩ ⟨.index i, op'⟩ none := by
  obtain ⟨⟨lv, ld, lp, rfl, hlv⟩, rfl⟩ := objectValue_of_missing hop hi hx
  obtain ⟨⟨rv, rd, rp, rfl, hrv⟩, rfl⟩ := objectValue_of_missing hop' hi hy
  have hlx : leafAt sch (.collection col) (some ⟨.index i, .update lv ld lp⟩)
      (.list l) = .ok (.list l) := by
    rw [elementRun, hx]
    rfl
  have hly : leafAt sch (.collection col) (some ⟨.index i, .update rv rd rp⟩)
      (.list l) = .ok (.list l) := by
    rw [elementRun, hy]
    rfl
  refine ⟨?_, fun h => h.1 (hlv.trans hrv.symm)⟩
  have hmerge : mergeSlots ls rs ⟨.index i, .update lv ld lp⟩
      ⟨.index i, .update rv rd rp⟩
        = mergeUpdateUpdate ls rs ⟨.index i, .update lv ld lp⟩
            ⟨.index i, .update rv rd rp⟩ lv ld lp rv rd rp := rfl
  unfold LeafTp1
  rw [hmerge, mergeUpdateUpdate_eq (by simp [sameElement]) hp]
  simp only [hlv, hrv, ne_eq, not_true_eq_false, false_and, if_false,
    reduceCtorEq, or_self, and_false]
  split
  · exact ⟨some _, none, rfl, (converges_discard_right hlx hly).2 hlx⟩
  · exact ⟨none, some _, rfl, (converges_discard_left hlx hly).2 hly⟩

theorem leafTp1_element_iff (hop : Op.isSlotOp op = true)
    (hop' : Op.isSlotOp op' = true)
    (hx : leafAt sch (.collection col) (some ⟨.index i, op⟩) (.list l)
      = .ok a)
    (hy : leafAt sch (.collection col) (some ⟨.index i, op'⟩) (.list l)
      = .ok b) :
    LeafTp1 sch (.collection col) ls rs ⟨.index i, op⟩ ⟨.index i, op'⟩
        (.list l)
      ↔ SamePriorSize ⟨.index i, op⟩ ⟨.index i, op'⟩
        ∧ ¬SlotClash ls rs ⟨.index i, op⟩ ⟨.index i, op'⟩ l[i.toNat]? := by
  have he : sameElement (.index i) (.index i) = true := by simp [sameElement]
  rw [elementRun] at hx hy
  obtain ⟨a', ha, -⟩ := map_eq_ok.1 hx
  obtain ⟨b', hb, -⟩ := map_eq_ok.1 hy
  by_cases hp : SamePriorSize ⟨.index i, op⟩ ⟨.index i, op'⟩
  · cases hc : l[i.toNat]? with
    | none =>
      obtain ⟨htp1, hclash⟩ := leafTp1_missing hc hop hop' ha hb hp
      exact iff_of_true htp1 ⟨hp, hclash⟩
    | some c =>
      have harr := Op.isArrayOp_of_isSlotOp hop
      have harr' := Op.isArrayOp_of_isSlotOp hop'
      rw [onListIndex_eq_modify harr hc] at ha
      rw [onListIndex_eq_modify harr' hc] at hb
      obtain ⟨x, w, hx, hw, -⟩ := PartialLens.modify_eq_ok.1 ha
      obtain ⟨y, u, hy, hu, -⟩ := PartialLens.modify_eq_ok.1 hb
      simp only [PartialLens.element, hc, Except.ok.injEq] at hx hy
      subst hx hy
      rw [leafTp1_of_square
        (slot_converges_iff he hp (slotRun_of_slotVal (by simp) hw)
          (slotRun_of_slotVal (by simp) hu)) (onSlot_element hc harr harr')]
      simp [hp]
  · refine iff_of_false ?_ fun h => hp h.1
    rintro ⟨x', y', hm, -⟩
    exact hp (samePriorSize_of_merge he hm)

/-- Two operations at one slot of any kind are merged rightly exactly
when they agree on the size of the list they are in, if they are in one,
and do not clash. -/
theorem leafTp1_iff (he : x.elem.slot = y.elem.slot)
    (hop : Op.isSlotOp x.op = true) (hop' : Op.isSlotOp y.op = true)
    (hx : leafAt sch place (some x) v = .ok a)
    (hy : leafAt sch place (some y) v = .ok b) :
    LeafTp1 sch place ls rs x y v
      ↔ SamePriorSize x y
        ∧ ¬SlotClash ls rs x y (slotContent place v x.elem.slot) := by
  obtain ⟨e, op⟩ := x
  obtain ⟨e', op'⟩ := y
  cases slotsOf hx hy with
  | field k k' =>
    have hk : k.data = k'.data := by simpa [slot] using he
    rw [leafTp1_field_iff hk hop hop' hx hy]
    simp [samePriorSize_keys, slotContent, child, slot]
  | @entry col d k k' =>
    have hk : k.data = k'.data := by simpa [slot] using he
    rw [leafTp1_entry_iff hk hx hy]
    have : slotContent (.collection col) (.dictionary d) (key k).slot
        = d k.data := by
      simp only [slotContent, child, slot]
      cases d k.data <;> rfl
    simp [samePriorSize_keys, this]
  | @element col l i j =>
    obtain rfl : i = j := UInt32.toNat_inj.1 (by simpa [slot] using he)
    rw [leafTp1_element_iff hop hop' hx hy]
    have : slotContent (.collection col) (.list l) (index i).slot
        = l[i.toNat]? := by
      simp only [slotContent, child, slot]
      cases l[i.toNat]? <;> rfl
    rw [this]

end OneSlot

end BarqSync
