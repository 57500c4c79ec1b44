/-
Any two instructions that meet in a merge, and the square they close.

# What is left to say

`Slots`, `Lists`, `Sets`, `Nested` and `Fields` treat pairs that conflict
in one way or another. Here are the pairs that are left: operations at
different slots of one container, which pass each other; array operations
against an update or a clear of an element, which has to follow its
element; and instructions on different objects.

# Clashes

`InstrClash` collects the pairs whose two orders may end differently, in
the container where they meet. `routes_tp1` is the converse: any other
pair of accepted routes that the rules merge at all converges.
-/
import BarqSync.Transform.Proofs.Nested
import BarqSync.Transform.Proofs.Sets

namespace BarqSync

open Ot Op PathElement

/-- `Clear`. -/
def Op.isClear : Op → Bool
  | .clear .. => true
  | _ => false

-- ===== different slots

section Apart

variable {sch : Schema} {place : Place} {col : Column}
  {ls rs : Discriminant} {x y : Leaf} {v a b : Value} {op : Op}
  {l : List Value}

/-- Away from the array rules, operations at different slots pass each
other. -/
theorem mergeSlots_apart (he : sameElement x.elem y.elem = false)
    (hx : Op.isArrayOp x.op = false) (hy : Op.isArrayOp y.op = false) :
    mergeSlots ls rs x y = .ok (some x, some y) := by
  obtain ⟨e, op⟩ := x
  obtain ⟨e', op'⟩ := y
  have he' : sameElement e' e = false := sameElement_comm.trans he
  simp only at he
  cases op <;> simp only [isArrayOp, Bool.true_eq_false] at hx <;>
    cases op' <;> simp only [isArrayOp, Bool.true_eq_false] at hy <;>
    simp [mergeSlots, opType, mergeOrdered, mergeUpdateUpdate,
      mergeAddIntegerUpdate, mergeClearUpdate, keepBoth, he, he']

/-- A list takes array operations and slot operations. -/
theorem slotOp_of_list {i : ℕ} {m : List Value}
    (hop : Op.isArrayOp op = false)
    (h : onListIndex sch col l i op = .ok m) : Op.isSlotOp op = true := by
  cases op with
  | update v d n | addInteger n | clear ct => rfl
  | setInsert value | setErase value => cases h
  | _ => cases hop

/-- What an accepted operation at a slot of a list is: one of the element,
or the creation of an object where there is none, which does nothing in
any list. -/
theorem elementRun_cases {i : UInt32} (hop : Op.isArrayOp op = false)
    (h : leafAt sch (.collection col) (some ⟨.index i, op⟩) (.list l)
      = .ok a) :
    (∃ c, child (.collection col) (.list l) (.index i.toNat) = .ok c)
      ∨ ∀ j m, onListIndex sch col m j op = .ok m := by
  cases hi : l[i.toNat]? with
  | some c => exact .inl ⟨c, by simp [child, hi]⟩
  | none =>
    right
    rw [elementRun] at h
    obtain ⟨m, hm, -⟩ := map_eq_ok.1 h
    obtain ⟨⟨p, d, n, rfl, hp⟩, -⟩ :=
      objectValue_of_missing (slotOp_of_list hop hm) hi hm
    obtain ⟨y, hy, -⟩ := bind_eq_ok.1 hm
    obtain rfl := (visit_eq_objectValue_iff hy).2 hp
    intro j m
    simp [onListIndex, hy]

/-- An operation that does nothing, now and after the other one. -/
theorem converges_of_id {f g g' : Value → Except ApplyError Value}
    (hg : g v = .ok b) (hg' : g' v = .ok b) (hv : f v = .ok v)
    (hb : f b = .ok b) : Converges f g' g f v :=
  (converges_iff hv hg).2 ⟨b, hg', hb⟩

/-- Operations at different elements of a list. -/
theorem elements_apart_converge {i j : UInt32} {op' : Op}
    (hij : i.toNat ≠ j.toNat) (hop : Op.isArrayOp op = false)
    (hop' : Op.isArrayOp op' = false)
    (hx : leafAt sch (.collection col) (some ⟨.index i, op⟩) (.list l)
      = .ok a)
    (hy : leafAt sch (.collection col) (some ⟨.index j, op'⟩) (.list l)
      = .ok b) :
    Converges (leafAt sch (.collection col) (some ⟨.index i, op⟩))
      (leafAt sch (.collection col) (some ⟨.index j, op'⟩))
      (leafAt sch (.collection col) (some ⟨.index j, op'⟩))
      (leafAt sch (.collection col) (some ⟨.index i, op⟩)) (.list l) := by
  have hid : ∀ {i : UInt32} {op : Op} {m : List Value},
      (∀ j m, onListIndex sch col m j op = .ok m) →
      leafAt sch (.collection col) (some ⟨.index i, op⟩) (.list m)
        = .ok (.list m) := by
    intro i op m h
    rw [elementRun, h, map_ok]
  have hlist : ∀ {i : UInt32} {op : Op} {w : Value},
      leafAt sch (.collection col) (some ⟨.index i, op⟩) (.list l) = .ok w →
      ∃ m, w = .list m := by
    intro i op w h
    rw [elementRun] at h
    obtain ⟨m, -, rfl⟩ := map_eq_ok.1 h
    exact ⟨m, rfl⟩
  rcases elementRun_cases hop hx with ⟨c, hc⟩ | hnone
  · rcases elementRun_cases hop' hy with ⟨d, hd⟩ | hnone
    · have hne : Slot.index i.toNat ≠ .index j.toNat := by simpa using hij
      have hcongr := PartialLens.converges_of_independent
        (childLens_independent hne)
        ((elementRun_eq_modify hop hc).symm.trans hx)
        ((elementRun_eq_modify hop' hd).symm.trans hy)
      refine (converges_congr (elementRun_eq_modify hop hc)
        (elementRun_eq_modify hop' hd) ?_ ?_).2 hcongr
      · intro w hw
        obtain ⟨_, u, -, -, rfl⟩ := PartialLens.modify_eq_ok.1 hw
        exact elementRun_eq_modify hop'
          ((childLens_get_put_ne hne.symm _ _).trans hd)
      · intro w hw
        obtain ⟨_, u, -, -, rfl⟩ := PartialLens.modify_eq_ok.1 hw
        exact elementRun_eq_modify hop
          ((childLens_get_put_ne hne _ _).trans hc)
    · obtain ⟨m, rfl⟩ := hlist hx
      exact (converges_of_id hx hx (hid hnone) (hid hnone)).symm
  · obtain ⟨m, rfl⟩ := hlist hy
    exact converges_of_id hy hy (hid hnone) (hid hnone)

/-- Operations at different slots of one container, other than array
operations. -/
theorem leaves_apart_converge (he : x.elem.slot ≠ y.elem.slot)
    (hx : Op.isArrayOp x.op = false) (hy : Op.isArrayOp y.op = false)
    (hxv : leafAt sch place (some x) v = .ok a)
    (hyv : leafAt sch place (some y) v = .ok b) :
    Converges (leafAt sch place (some x)) (leafAt sch place (some y))
      (leafAt sch place (some y)) (leafAt sch place (some x)) v := by
  obtain ⟨e, op⟩ := x
  obtain ⟨e', op'⟩ := y
  cases slotsOf hxv hyv with
  | field k k' =>
    obtain ⟨_, col, -, hcol⟩ := column_of_leaf hxv
    obtain ⟨_, col', -, hcol'⟩ := column_of_leaf hyv
    rw [fieldRun hcol] at hxv ⊢
    rw [fieldRun hcol'] at hyv ⊢
    exact PartialLens.converges_of_independent (childLens_independent he)
      hxv hyv
  | entry k k' =>
    rw [entryRun] at hxv hyv ⊢
    rw [entryRun]
    exact PartialLens.converges_of_independent
      (entryLens_independent_entryLens (by simpa [slot] using he)) hxv hyv
  | element i j =>
    exact elements_apart_converge (by simpa [slot] using he) hx hy hxv hyv

/-- An operation at a slot, other than an array operation, and a route
through another one. -/
theorem leaf_route_apart_converge {e e' : Elem} {r : Route}
    (he : e.slot ≠ e'.slot) (hop : Op.isArrayOp op = false)
    (hr : r.path ≠ []) (hx : leafAt sch place (some ⟨e, op⟩) v = .ok a)
    (hy : runRoute sch place (some (r.cons e')) v = .ok b) :
    Converges (leafAt sch place (some ⟨e, op⟩))
      (runRoute sch place (some (r.cons e')))
      (runRoute sch place (some (r.cons e')))
      (leafAt sch place (some ⟨e, op⟩)) v := by
  have hslots := slotsOf hx hy
  obtain ⟨inner, c, d, henter, hc, -, hb⟩ := runRoute_cons_eq_ok hr hy
  rw [runRoute_cons henter hr] at hy ⊢
  cases hslots with
  | field k k' =>
    obtain ⟨_, col, -, hcol⟩ := column_of_leaf hx
    rw [fieldRun hcol] at hx ⊢
    exact PartialLens.converges_of_independent (childLens_independent he)
      hx hy
  | entry k k' =>
    rw [entryRun] at hx ⊢
    exact PartialLens.converges_of_independent
      (entryLens_independent he.symm) hx hy
  | @element col l i j =>
    rcases elementRun_cases hop hx with ⟨c', hc'⟩ | hnone
    · have hrun := @elementRun_eq_modify sch _ _ _ _ _ hop hc'
      have hconv := PartialLens.converges_of_independent
        (childLens_independent he) (hrun.symm.trans hx) hy
      refine (converges_congr hrun rfl (fun _ _ => rfl) ?_).2 hconv
      intro w hw
      obtain ⟨_, u, -, -, rfl⟩ := PartialLens.modify_eq_ok.1 hw
      exact elementRun_eq_modify hop
        ((childLens_get_put_ne he _ _).trans hc')
    · -- Where there is no element the operation does nothing.
      have hid : ∀ m, leafAt sch (.collection col)
          (some ⟨.index i, op⟩) (.list m) = .ok (.list m) := by
        intro m
        rw [elementRun, hnone, map_ok]
      subst hb
      exact converges_of_id hy hy (hid l) (hid _)

end Apart

-- ===== following an element

section Following

variable {sch : Schema} {col : Column} {l : List Value}
  {ls rs : Discriminant} {op op' : Op} {i j : UInt32}

theorem checkMerge_eq_ok {c : Bool} {message : String} {u : Unit} :
    checkMerge c message = .ok u ↔ c = true := by
  unfold checkMerge
  split <;> simp_all

/-- The rules of an array operation against an update: the operation
stays, and the update follows its element or is dropped with it. -/
theorem arrayUpdate_follows {value : Payload Interned Buffered} {d : Bool}
    {p : UInt32} {x' y' : Option Leaf} (hop : Op.isArrayOp op = true)
    (hm : mergeOrdered ls rs ⟨.index i, op⟩ ⟨.index j, .update value d p⟩
      = .ok (x', y')) :
    x' = some ⟨.index i, op⟩
      ∧ ((follow op i.toNat j.toNat = none ∧ y' = none)
        ∨ ∃ j' p' : UInt32, follow op i.toNat j.toNat = some j'.toNat
          ∧ y' = some ⟨.index j', .update value d p'⟩) := by
  cases op with
  | arrayInsert v n =>
    obtain ⟨_, -, hm⟩ := bind_eq_ok.1 hm
    obtain ⟨_, -, hm⟩ := bind_eq_ok.1 hm
    obtain ⟨_, hj, hm⟩ := bind_eq_ok.1 hm
    cases hm
    have hlt := UInt32.lt_iff_toNat_lt.1
      (of_decide_eq_true (checkMerge_eq_ok.1 hj))
    have := p.toNat_lt
    refine ⟨rfl, .inr ⟨_, _, ?_, rfl⟩⟩
    rw [follow, afterInsert_toNat (by omega)]
  | arrayMove k n =>
    obtain ⟨_, -, hm⟩ := bind_eq_ok.1 hm
    obtain ⟨_, hj, hm⟩ := bind_eq_ok.1 hm
    cases hm
    have hlt := UInt32.lt_iff_toNat_lt.1
      (of_decide_eq_true (checkMerge_eq_ok.1 hj))
    have := p.toNat_lt
    refine ⟨rfl, .inr ⟨_, _, ?_, rfl⟩⟩
    rw [follow, mergeGetVsMove_toNat (by omega)]
  | arrayErase n =>
    obtain ⟨_, -, hm⟩ := bind_eq_ok.1 hm
    obtain ⟨_, -, hm⟩ := bind_eq_ok.1 hm
    obtain ⟨_, -, hm⟩ := bind_eq_ok.1 hm
    split at hm
    · next hij =>
        cases hm
        exact ⟨rfl, .inl ⟨by simp [follow, hij], rfl⟩⟩
    · next hij =>
        cases hm
        have hne := toNat_ne hij
        refine ⟨rfl, .inr ⟨_, _, ?_, rfl⟩⟩
        rw [follow, if_neg hne, afterErase_toNat]
  | _ => cases hop

/-- An array operation and an operation on an element that follows it
converge, if that does not make a nested collection of what is moved. -/
theorem arraySlot_converges {z : Option Leaf} {a b : Value}
    (hop : Op.isArrayOp op = true) (hop' : Op.isArrayOp op' = false)
    (hmove : Op.isMove op = true → i ≠ j ∨ ∃ v d p,
      op' = .update v d p ∧ v.makesCollection = false)
    (hx : leafAt sch (.collection col) (some ⟨.index i, op⟩) (.list l)
      = .ok a)
    (hy : leafAt sch (.collection col) (some ⟨.index j, op'⟩) (.list l)
      = .ok b)
    (hz : (follow op i.toNat j.toNat = none ∧ z = none)
      ∨ ∃ (j' : UInt32) (op'' : Op), follow op i.toNat j.toNat = some j'.toNat
        ∧ z = some ⟨.index j', op''⟩
        ∧ ∀ m k, onListIndex sch col m k op'' = onListIndex sch col m k op') :
    Converges (leafAt sch (.collection col) (some ⟨.index i, op⟩))
      (leafAt sch (.collection col) z)
      (leafAt sch (.collection col) (some ⟨.index j, op'⟩))
      (leafAt sch (.collection col) (some ⟨.index i, op⟩)) (.list l) := by
  have hcases := elementRun_cases hop' hy
  have hx' := hx
  have hy' := hy
  rw [elementRun] at hx' hy'
  obtain ⟨m, hm, rfl⟩ := map_eq_ok.1 hx'
  obtain ⟨m', hm', rfl⟩ := map_eq_ok.1 hy'
  obtain ⟨F, hF, hnone, hsome⟩ := arrayOp_shape (g := j.toNat) hop hm
  have hmovable := movable_of_run hm
  cases (hF l rfl hmovable).symm.trans hm
  rcases hcases with ⟨c, hc⟩ | hid
  · have hcl := child_index_eq_ok.1 hc
    rw [onListIndex_eq_modify hop' hcl] at hm'
    obtain ⟨_, d, hget, hd, rfl⟩ := PartialLens.modify_eq_ok.1 hm'
    simp only [PartialLens.element, hcl, Except.ok.injEq] at hget
    subst hget
    refine (converges_iff hx hy).2 ⟨.list (F (l.set j.toNat d)), ?_, ?_⟩
    · rcases hz with ⟨hfollow, rfl⟩ | ⟨j', op'', hfollow, rfl, hsame⟩
      · rw [hnone d hfollow]
        rfl
      · obtain ⟨hget', hset⟩ := hsome _ hfollow
        rw [elementRun, hsame, onListIndex_eq_modify hop' (hget'.trans hcl),
          ← hset d]
        exact map_eq_ok.2 ⟨_, PartialLens.modify_eq_ok.2 ⟨c, d,
          by simp [PartialLens.element, hget', hcl], hd, rfl⟩, rfl⟩
    · rw [elementRun]
      refine map_eq_ok.2 ⟨F (l.set j.toNat d),
        hF (l.set j.toNat d) (List.length_set ..) fun h => ?_, rfl⟩
      have hc := hmovable h
      rcases hmove h with hij | ⟨v, e, p, rfl, hv⟩
      · rw [nestedAt_congr (List.getElem?_set_ne
          fun h => hij (UInt32.toNat_inj.1 h.symm))]
        exact hc
      · rw [← Bool.not_eq_true, nestedAt_update hc hcl hd]
        simp [hv]
  · -- The creation of an object does nothing, wherever it goes.
    cases (hid j.toNat l).symm.trans hm'
    refine (converges_iff hx hy).2 ⟨.list (F l), ?_, hx⟩
    rcases hz with ⟨-, rfl⟩ | ⟨j', op'', -, rfl, hsame⟩
    · rfl
    · rw [elementRun, hsame, hid, map_ok]

end Following

-- ===== clashes

/-- Operations of one list that clash: an insertion where the list has no
room for another prior size, a clear that does not follow its element, an
update that makes a nested collection of an element that is moved, and two
operations on one element as for any slot. -/
def ElementClash (ls rs : Discriminant) (l : List Value) (i j : UInt32)
    (op op' : Op) : Prop :=
  match Op.isArrayOp op, Op.isArrayOp op' with
  | true, true =>
    (Op.isInsert op = true ∨ Op.isInsert op' = true)
      ∧ 2 ^ 32 ≤ l.length + 1
  | true, false =>
    (Op.isClear op' = true ∧ follow op i.toNat j.toNat ≠ some j.toNat)
      ∨ MoveClash l ⟨.index i, op⟩ ⟨.index j, op'⟩
  | false, true =>
    (Op.isClear op = true ∧ follow op' j.toNat i.toNat ≠ some i.toNat)
      ∨ MoveClash l ⟨.index j, op'⟩ ⟨.index i, op⟩
  | false, false =>
    i = j ∧ SlotClash ls rs ⟨.index i, op⟩ ⟨.index j, op'⟩ l[i.toNat]?

/-- Operations on one set that clash: a search outside a partitioned
range, or sets that are not identical in the end. -/
def SetClash (sch : Schema) (ls rs : Discriminant) (col : Column)
    (s : List Mixed) (op op' : Op) : Prop :=
  ∃ x y, setOp sch col op = .ok x ∧ setOp sch col op' = .ok y
    ∧ ¬(SearchesDefined sch col s x y ∧ SetsAgree sch col Eq s x y
      (setVerdict ls rs (rulePayloads op op') x y))

/-- Leaves of one container that clash. -/
def LeafClash (sch : Schema) (ls rs : Discriminant) (place : Place)
    (v : Value) (x y : Leaf) : Prop :=
  match x.elem, y.elem, v with
  | .index i, .index j, .list l => ElementClash ls rs l i j x.op y.op
  | .key k, .key k', _ =>
    k.data = k'.data
      ∧ match setAt sch place v [.key k.data] with
        | some (col, s) => SetClash sch ls rs col s x.op y.op
        | none => SlotClash ls rs x y (slotContent place v (.key k.data))
  | _, _, _ => False

/-- A leaf and a route below its container that clash: a move that has to
renumber the route, and an object created over the one the route goes
into. -/
def InnerClash (sch : Schema) (place : Place) (v : Value) (x : Leaf)
    (e : Elem) (r : Route) : Prop :=
  if Op.isArrayOp x.op then
    match x.elem, e with
    | .index f, .index g => ¬CarriesElement x.op f g
    | _, _ => False
  else x.elem.slot = e.slot ∧ NestedClash sch place v x.op r

/-- Instructions that clash, on one object and in the container where
their paths meet. -/
def InstrClash (sch : Schema) (ls rs : Discriminant) (l r : Instr)
    (s : State) : Prop :=
  match l, r with
  | .path p, .path q =>
    objectRef p.table p.object = objectRef q.table q.object
      ∧ ∃ t v, objectTable sch (objectRef p.table p.object) = .ok t
        ∧ s (objectRef p.table p.object) = some v
        ∧ RouteClash sch (LeafClash sch ls rs) (InnerClash sch) (.object t) v
            p.fullPath q.fullPath p.op q.op
  | _, _ => False

section Leaves

variable {sch : Schema} {place : Place} {col : Column}
  {ls rs : Discriminant} {x y : Leaf} {v a b : Value} {l : List Value}
  {i j : UInt32} {op op' : Op} {p : Option Leaf × Option Leaf}
  {k : Interned}

theorem leafTp1_swap (h : opType x.op ≠ opType y.op) :
    LeafTp1 sch place ls rs x y v → LeafTp1 sch place rs ls y x v := by
  rintro ⟨x', y', hm, hconv⟩
  refine ⟨y', x', ?_, hconv.symm⟩
  unfold mergeSlots at hm ⊢
  rcases Nat.lt_or_gt_of_ne h with h | h
  · rw [if_pos h] at hm
    obtain ⟨⟨p, q⟩, hpq, heq⟩ := map_eq_ok.1 hm
    cases heq
    rwa [if_neg (by omega)]
  · rw [if_neg (by omega)] at hm
    rw [if_pos h, hm]
    rfl

/-- A leaf of a list is an operation of the list. -/
theorem leafAt_list {z : Option Leaf} (m : List Value) :
    leafAt sch (.collection col) z (.list m)
      = Value.list <$> runLeaf sch col z m := by
  cases z with
  | none => rfl
  | some z =>
    obtain ⟨e, op⟩ := z
    cases e with
    | index i => exact elementRun m
    | key k => rfl

/-- An accepted array operation, by its kind. -/
theorem validOp_of_array (hop : Op.isArrayOp op = true)
    (h : leafAt sch (.collection col) (some ⟨.index i, op⟩) (.list l)
      = .ok a) : ValidOp sch col l ⟨.index i, op⟩ := by
  rw [elementRun] at h
  obtain ⟨m, hm, -⟩ := map_eq_ok.1 h
  cases op with
  | arrayInsert v n =>
    obtain ⟨hi, hn, w, hw, -⟩ := arrayInsert_eq_ok.1 hm
    exact .insert hn hi hw
  | arrayMove k n =>
    obtain ⟨hi, hk, hik, hn, hc, -⟩ := arrayMove_eq_ok.1 hm
    exact .move hn hi hk (fun h => hik (congrArg _ h)) hc
  | arrayErase n =>
    obtain ⟨hi, hn, -⟩ := arrayErase_eq_ok.1 hm
    exact .erase hn hi
  | _ => cases hop

theorem op_at_index (hop : Op.isArrayOp op = false)
    (h : leafAt sch place (some ⟨.index i, op⟩) v = .ok a) :
    Op.isSlotOp op = true := by
  obtain ⟨col, l, m, -, -, hm, -⟩ := runRoute_index_eq_ok.1 h
  exact slotOp_of_list hop hm

section

variable
    (hx : leafAt sch (.collection col) (some ⟨.index i, op⟩) (.list l)
      = .ok a)
    (hy : leafAt sch (.collection col) (some ⟨.index j, op'⟩) (.list l)
      = .ok b)
    (hclash : ¬ElementClash ls rs l i j op op')

include hx hy hclash

theorem arrays_tp1 (hop : Op.isArrayOp op = true)
    (hop' : Op.isArrayOp op' = true) :
    LeafTp1 sch (.collection col) ls rs ⟨.index i, op⟩ ⟨.index j, op'⟩
      (.list l) := by
  have hvx := validOp_of_array hop hx
  have hvy := validOp_of_array hop' hy
  have hlen : l.length + 1 < 2 ^ 32
      ∨ (isInsert op = false ∧ isInsert op' = false) := by
    simp only [ElementClash, hop, hop', not_and_or, not_or,
      Bool.not_eq_true] at hclash
    rcases hclash with h | h
    · exact .inr h
    · exact .inl (by omega)
  have hupdate : ∀ {op : Op}, isArrayOp op = true → ∀ v d p,
      op ≠ .update v d p := by
    rintro op h v d p rfl
    cases h
  have hlist : ∀ {ls rs : Discriminant} {x y : Leaf},
      isArrayOp x.op = true → isArrayOp y.op = true →
      ValidOp sch col l x → ValidOp sch col l y →
      ¬ListClash ls rs l x y := by
    rintro ls rs ⟨e, op⟩ ⟨e', op'⟩ hx hy hvx hvy (h | h | h)
    · cases op <;> simp_all [UpdatesClash, isArrayOp]
    · exact hvx.not_moveClash (hupdate hy) h
    · exact hvy.not_moveClash (hupdate hx) h
  have htp1 : ListTp1 sch col ls rs l ⟨.index i, op⟩ ⟨.index j, op'⟩ := by
    rcases Nat.lt_or_ge (opType op) (opType op') with h | h
    · rw [listTp1_swap h]
      exact (listTp1_ordered_iff hvy hvx (Nat.le_of_lt h)).2
        ⟨hlen.imp_right And.symm, hlist hop' hop hvy hvx⟩
    · exact (listTp1_ordered_iff hvx hvy h).2
        ⟨hlen, hlist hop hop' hvx hvy⟩
  obtain ⟨x', y', hm, hcloses⟩ := htp1
  exact ⟨x', y', hm, (converges_map_iff (fun _ _ => Value.list.inj) leafAt_list
    leafAt_list leafAt_list leafAt_list).2 hcloses.converges⟩

/-- An array operation and an operation on an element. -/
theorem arraySlot_tp1 (hop : Op.isArrayOp op = true)
    (hop' : Op.isArrayOp op' = false)
    (hm : mergeSlots ls rs ⟨.index i, op⟩ ⟨.index j, op'⟩ = .ok p) :
    LeafTp1 sch (.collection col) ls rs ⟨.index i, op⟩ ⟨.index j, op'⟩
      (.list l) := by
  have htype : 8 ≤ opType op ∧ opType op ≤ 10 := by
    cases op <;> simp_all [opType, isArrayOp]
  cases op' with
  | update value d n =>
    obtain ⟨x', y'⟩ := p
    have hm' := hm
    rw [mergeSlots, if_neg (by show ¬opType op < 4; omega)] at hm'
    obtain ⟨rfl, hy'⟩ := arrayUpdate_follows hop hm'
    have hmove : isMove op = true → i ≠ j ∨ ∃ v e p,
        (.update value d n : Op) = .update v e p
          ∧ v.makesCollection = false := by
      intro h
      simp only [ElementClash, hop, hop', isClear, not_or] at hclash
      cases op with
      | arrayMove k m =>
        by_cases hij : i = j
        · refine .inr ⟨value, d, n, rfl, ?_⟩
          simpa using fun h => hclash.2 (.inr ⟨hij, h⟩)
        · exact .inl hij
      | _ => cases h
    refine ⟨_, y', hm, ?_⟩
    -- The prior size it then carries is not looked at.
    rcases hy' with hnone | ⟨j', n', hsome, heq⟩
    · exact arraySlot_converges hop hop' hmove hx hy (.inl hnone)
    · exact arraySlot_converges hop hop' hmove hx hy
        (.inr ⟨j', _, hsome, heq, fun _ _ => rfl⟩)
  | clear ct =>
    simp only [ElementClash, hop, hop', isClear, true_and,
      ne_eq, not_or, not_not] at hclash
    have hkeep : mergeSlots ls rs ⟨.index i, op⟩ ⟨.index j, .clear ct⟩
        = .ok (some ⟨.index i, op⟩, some ⟨.index j, .clear ct⟩) := by
      rw [mergeSlots, if_pos (by show opType op < 11; omega)]
      cases op <;> first | rfl | cases hop
    -- A moved element does not stay where it is.
    have hmove : isMove op = true → i ≠ j := by
      rintro h rfl
      cases hvalid : validOp_of_array hop hx with
      | move hn hi hk hik hc =>
        simp only [follow, afterMove, if_true, Option.some.injEq] at hclash
        exact hik (UInt32.toNat_inj.1 hclash.1.symm)
      | _ => cases h
    exact ⟨_, _, hkeep, arraySlot_converges hop hop'
      (fun h => .inl (hmove h)) hx hy
      (.inr ⟨j, _, hclash.1, rfl, fun _ _ => rfl⟩)⟩
  | addInteger n | setInsert value | setErase value =>
    rw [elementRun] at hy
    cases hy
  | _ => cases hop'

theorem elements_tp1
    (hm : mergeSlots ls rs ⟨.index i, op⟩ ⟨.index j, op'⟩ = .ok p) :
    LeafTp1 sch (.collection col) ls rs ⟨.index i, op⟩ ⟨.index j, op'⟩
      (.list l) := by
  cases hop : isArrayOp op with
  | true =>
    cases hop' : isArrayOp op' with
    | true => exact arrays_tp1 hx hy hclash hop hop'
    | false => exact arraySlot_tp1 hx hy hclash hop hop' hm
  | false =>
    cases hop' : isArrayOp op' with
    | true =>
      have htype : opType op' ≠ opType op := by
        intro h
        cases op <;> cases op' <;>
          simp_all [isArrayOp, opType]
      have hm' : ∃ q, mergeSlots rs ls ⟨.index j, op'⟩ ⟨.index i, op⟩
          = .ok q := by
        unfold mergeSlots at hm ⊢
        rcases Nat.lt_or_gt_of_ne htype with h | h
        · rw [if_neg (by show ¬opType op < opType op'; omega)] at hm
          exact ⟨_, by rw [if_pos h, hm]; rfl⟩
        · rw [if_pos h] at hm
          obtain ⟨q, hq, -⟩ := map_eq_ok.1 hm
          exact ⟨q, by rw [if_neg (by show ¬opType op' < opType op; omega), hq]⟩
      obtain ⟨q, hm'⟩ := hm'
      refine leafTp1_swap htype (arraySlot_tp1 hy hx ?_ hop' hop hm')
      simpa only [ElementClash, hop, hop'] using hclash
    | false =>
      by_cases hij : i = j
      · subst hij
        refine (leafTp1_element_iff (op_at_index hop hx)
          (op_at_index hop' hy) hx hy).2 ⟨samePriorSize_of_merge (by simp [sameElement]) hm, ?_⟩
        simpa only [ElementClash, hop, hop', true_and] using hclash
      · have he : sameElement (.index i) (.index j) = false := by
          simpa [sameElement] using hij
        have hne : (index i : Elem).slot ≠ (index j : Elem).slot := by
          simpa [slot, UInt32.toNat_inj] using hij
        exact ⟨_, _, mergeSlots_apart he hop hop',
          leaves_apart_converge hne hop hop' hx hy⟩

end

section

variable (h : leafAt sch place (some ⟨.key k, op⟩) v = .ok a)

include h

/-- A key takes a slot operation or, where it is a set, a set operation. -/
theorem op_at_key : Op.isSlotOp op = true
      ∨ (Op.isArrayOp op = false
        ∧ ∃ z, setAt sch place v [.key k.data] = some z) := by
  cases place with
  | collection col =>
    left
    rw [entryRun] at h
    obtain ⟨_, w, -, hw, -⟩ := PartialLens.modify_eq_ok.1 h
    cases op <;> first | rfl | cases hw
  | object t =>
    obtain ⟨f, col, rfl, hcol⟩ := column_of_leaf h
    rw [fieldRun hcol] at h
    obtain ⟨_, w, ⟨⟩, hw, -⟩ := PartialLens.modify_eq_ok.1 h
    have hset : isSlotOp op = false →
        col.collection = .set ∧ isArrayOp op = false
          ∧ ∃ s, f k.data = .set s := by
      intro hop
      unfold onField at hw
      cases hc : col.collection with
      | set =>
        simp only [hc] at hw
        cases hf : f k.data <;> simp only [hf] at hw <;>
          cases op <;> first | cases hw | cases hop
        all_goals exact ⟨rfl, rfl, _, rfl⟩
      | _ =>
        simp only [hc] at hw
        cases op <;> first | cases hw | cases hop
    cases hop : isSlotOp op with
    | true => exact .inl rfl
    | false =>
      obtain ⟨hcoll, harray, s, hs⟩ := hset hop
      exact .inr ⟨harray, (col, s), by simp [setAt, hcol, hs, hcoll]⟩

theorem array_at_key : Op.isArrayOp op = false := by
  rcases op_at_key h with hslot | ⟨harray, -⟩
  · exact isArrayOp_of_isSlotOp hslot
  · exact harray

end

theorem leaves_tp1 (hx : leafAt sch place (some x) v = .ok a)
    (hy : leafAt sch place (some y) v = .ok b)
    (hm : mergeSlots ls rs x y = .ok p)
    (hclash : ¬LeafClash sch ls rs place v x y) :
    LeafTp1 sch place ls rs x y v := by
  obtain ⟨e, op⟩ := x
  obtain ⟨e', op'⟩ := y
  cases e with
  | index i =>
    cases slotsOf hx hy
    exact elements_tp1 hx hy hclash hm
  | key k =>
    obtain ⟨k', rfl⟩ : ∃ k', e' = .key k' := by
      cases slotsOf hx hy <;> exact ⟨_, rfl⟩
    by_cases hk : k.data = k'.data
    · simp only [LeafClash, hk, true_and] at hclash
      cases hset : setAt sch place v [.key k.data] with
      | some z =>
        obtain ⟨col, s⟩ := z
        rw [← hk, hset] at hclash
        cases slotsOf hx hy with
        | field =>
          obtain ⟨x, hx'⟩ := setOp_of_leafAt hset hx
          obtain ⟨y, hy'⟩ := setOp_of_leafAt (hk ▸ hset) hy
          have hagree := not_not.1 fun h => hclash ⟨x, y, hx', hy', h⟩
          exact (setLeaf_tp1_iff hk hset hx' hy' hagree.1).2 hagree.2
        | entry => cases hset
      | none =>
        have hslot : ∀ {k1 : Interned} {op : Op} {a : Value},
            k.data = k1.data →
            leafAt sch place (some ⟨.key k1, op⟩) v = .ok a →
            isSlotOp op = true := by
          intro k1 op a hk1 h
          rcases op_at_key h with h | ⟨-, z, hz⟩
          · exact h
          · rw [← hk1, hset] at hz
            cases hz
        rw [← hk, hset] at hclash
        refine (leafTp1_iff (by simp [slot, hk])
          (hslot rfl hx) (hslot hk hy) hx hy).2 ⟨?_, hclash⟩
        exact samePriorSize_of_merge
          (by simpa [sameElement, sameString] using hk) hm
    · have he : sameElement (.key k) (.key k') = false := by
        simpa [sameElement, sameString] using hk
      have hne : (key k : Elem).slot ≠ (key k' : Elem).slot := by
        simpa [slot] using hk
      exact ⟨_, _, mergeSlots_apart he (array_at_key hx) (array_at_key hy),
        leaves_apart_converge hne (array_at_key hx) (array_at_key hy) hx hy⟩

end Leaves

-- ===== routes

section Routes

variable {sch : Schema} {place : Place} {ls rs : Discriminant}
  {v a b : Value} {e e' next : Elem} {rest : List Elem} {op op' : Op}

/-- An array operation and a route below an element of its list. -/
theorem array_route_tp1 (hop : Op.isArrayOp op = true)
    (hx : leafAt sch place (some ⟨e, op⟩) v = .ok a)
    (hy : runRoute sch place (some ⟨e' :: next :: rest, op'⟩) v = .ok b)
    (hclash : ¬InnerClash sch place v ⟨e, op⟩ e' ⟨next :: rest, op'⟩) :
    RoutesTp1 sch place ls rs ⟨[e], op⟩ ⟨e' :: next :: rest, op'⟩ v := by
  cases e with
  | key k =>
    rw [array_at_key hx] at hop
    cases hop
  | index f =>
    obtain ⟨col, l, m, rfl, rfl, hm, -⟩ := runRoute_index_eq_ok.1 hx
    have htail : (Route.mk (next :: rest) op').path ≠ [] := by simp
    obtain ⟨inner, c, d, -, hc, -⟩ := runRoute_cons_eq_ok
      (r := ⟨next :: rest, op'⟩) (e := e') htail hy
    cases e' with
    | key k => cases hc
    | index g =>
      have hcarries : CarriesElement op f g := by
        simpa [InnerClash, hop] using hclash
      have hg : g.toNat < l.length :=
        (List.getElem?_eq_some_iff.1 (child_index_eq_ok.1 hc)).1
      obtain ⟨x, hslot, hfollowed⟩ :
          ∃ x, mergeNestedSlot ⟨.index f, op⟩ (.index g) next
            = .ok (⟨.index f, op⟩, x) ∧ Followed op f g x :=
        (nestedSlot_follows_iff hop (arrayOp_fits hop hm) hg).2 hcarries
      refine ⟨_, x.map fun e => Route.cons e ⟨next :: rest, op'⟩, ?_,
        follow_converges hop hcarries.ne htail hx hy ?_⟩
      · rw [mergeRoutes_leaf_deep, hslot]
        rfl
      · rcases hfollowed with ⟨hnone, rfl⟩ | ⟨g', hsome, rfl⟩
        · exact .inl ⟨hnone, rfl⟩
        · exact .inr ⟨g', hsome, rfl⟩

/-- Away from the array rules, a route through another slot stays as it
is. -/
theorem mergeNestedSlot_apart (hop : Op.isArrayOp op = false)
    (he : sameElement e e' = false) :
    mergeNestedSlot ⟨e, op⟩ e' next = .ok (⟨e, op⟩, some e') := by
  cases op <;> simp only [isArrayOp, Bool.true_eq_false] at hop <;>
    simp [mergeNestedSlot, he]

/-- No route goes on below a set. -/
theorem set_has_no_routes {k : Interned} {z : Column × List Mixed}
    (he : (PathElement.key k : Elem).slot = e'.slot)
    (hz : setAt sch place v [.key k.data] = some z) :
    runRoute sch place (some ⟨e' :: next :: rest, op'⟩) v ≠ .ok b := by
  intro hy
  obtain ⟨inner, -, -, henter, -⟩ := runRoute_cons_eq_ok
    (r := ⟨next :: rest, op'⟩) (e := e') (by simp) hy
  cases place with
  | collection col => cases v <;> cases hz
  | object t =>
    cases v with
    | object f =>
      obtain ⟨hcol, -, hcoll⟩ := setAt_field hz
      rw [← he] at henter
      simp [enter, slot, Table.column, hcol, Column.fieldPlace,
        hcoll] at henter
    | _ => cases hz

/-- A leaf and a route that goes on below its container. -/
theorem leaf_route_tp1 (hx : leafAt sch place (some ⟨e, op⟩) v = .ok a)
    (hy : runRoute sch place (some ⟨e' :: next :: rest, op'⟩) v = .ok b)
    (hclash : ¬InnerClash sch place v ⟨e, op⟩ e' ⟨next :: rest, op'⟩) :
    RoutesTp1 sch place ls rs ⟨[e], op⟩ ⟨e' :: next :: rest, op'⟩ v := by
  cases hop : isArrayOp op with
  | true => exact array_route_tp1 hop hx hy hclash
  | false =>
    by_cases he : e.slot = e'.slot
    · have hslot : isSlotOp op = true := by
        cases e with
        | index i => exact op_at_index hop hx
        | key k =>
          rcases op_at_key hx with h | ⟨-, z, hz⟩
          · exact h
          · exact absurd hy (set_has_no_routes he hz)
      refine (nestedRoutesTp1_iff hslot he hx hy).2 ?_
      simpa [InnerClash, hop, he] using hclash
    · refine ⟨some ⟨[e], op⟩, some ⟨e' :: next :: rest, op'⟩, ?_, ?_⟩
      · have hne : sameElement e e' = false := by
          rw [← Bool.not_eq_true, sameElement_iff]
          exact he
        rw [mergeRoutes_leaf_deep, mergeNestedSlot_apart hop hne]
        rfl
      · exact leaf_route_apart_converge (r := ⟨next :: rest, op'⟩) he hop
          (by simp) hx hy

theorem routes_tp1 {p q : List Elem} {m : Option Route × Option Route}
    (hp : p ≠ []) (hq : q ≠ [])
    (hx : runRoute sch place (some ⟨p, op⟩) v = .ok a)
    (hy : runRoute sch place (some ⟨q, op'⟩) v = .ok b)
    (hm : mergeRoutes ls rs ⟨p, op⟩ ⟨q, op'⟩ = .ok m)
    (hclash : ¬RouteClash sch (LeafClash sch ls rs) (InnerClash sch) place v
      p q op op') :
    RoutesTp1 sch place ls rs ⟨p, op⟩ ⟨q, op'⟩ v := by
  induction p generalizing q place v a b m with
  | nil => exact absurd rfl hp
  | cons e p ih =>
    cases q with
    | nil => exact absurd rfl hq
    | cons e' q =>
      cases p with
      | nil =>
        cases q with
        | nil =>
          have hm' : mergeRoutes ls rs (Leaf.route ⟨e, op⟩)
              (Leaf.route ⟨e', op'⟩) = .ok m := hm
          rw [mergeRoutes_leaf_leaf] at hm'
          obtain ⟨x, hx', -⟩ := bind_eq_ok.1 hm'
          have hleaf : LeafTp1 sch place ls rs ⟨e, op⟩ ⟨e', op'⟩ v :=
            leaves_tp1 hx hy hx' hclash
          exact routesTp1_leaf_iff.2 hleaf
        | cons next q => exact leaf_route_tp1 hx hy hclash
      | cons n p =>
        cases q with
        | nil => exact routesTp1_deep_leaf.2 (leaf_route_tp1 hy hx hclash)
        | cons n' q =>
          by_cases he : e.slot = e'.slot
          · obtain ⟨i, c, d, d', hi, hc, hd, hd', hiff⟩ := routesTp1_cons
              (l := ⟨n :: p, op⟩) (r := ⟨n' :: q, op'⟩) he (by simp)
              (by simp) hx hy
            have hm' : mergeRoutes ls rs (Route.cons e ⟨n :: p, op⟩)
                (Route.cons e' ⟨n' :: q, op'⟩) = .ok m := hm
            rw [mergeRoutes_cons (by simp) (by simp),
              if_pos (sameElement_iff.2 he)] at hm'
            obtain ⟨x, hx', -⟩ := map_eq_ok.1 hm'
            refine (hiff ls rs).2
              (ih (by simp) (by simp) hd hd' hx' fun h => hclash ?_)
            exact ⟨he, i, c, hi, hc, h⟩
          · exact routesTp1_cons_ne (l := ⟨n :: p, op⟩)
              (r := ⟨n' :: q, op'⟩) he (by simp) (by simp) hx hy

end Routes

end BarqSync
