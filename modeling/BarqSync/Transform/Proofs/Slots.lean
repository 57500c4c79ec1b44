/-
Two operations on the SAME slot: `Update`, `AddInteger` and `Clear`
against each other, and exactly when their merge rule converges.

# The four policies

Last writer wins (two updates, an update and a clear), creation of an
embedded object loses to any value, an increment survives an earlier
update, and creating a collection keeps one that is already there. The
last two make an operation depend on what the slot holds, and that is
where the rules that discard by timestamp go wrong: a winner that KEEPS
what it finds gives one result where the loser ran before it and another
where it did not.

# Results

`slotRun` is what an operation does to a slot, whatever the kind of slot.
`SlotClash` collects the pairs whose two orders end differently, and
`slot_converges_iff` says that these are all of them.
-/
import BarqSync.Transform.Merge
import BarqSync.Transform.Proofs.Lens

namespace BarqSync

open Ot PayloadType

variable {sch : Schema} {kind : SlotKind} {col : Column}
  {old b a new : Option Value} {v : Visit} {ld wd d rd : Bool}
  {lp wp rp : UInt32} {ls rs : Discriminant} {n : Int64}
  {p w l lv rv : Payload Interned Buffered} {ct : CollectionType}
  {e e' : Elem}

/-- What an operation does to a slot that holds `old`. -/
def slotRun (sch : Schema) (kind : SlotKind) (col : Column) (op : Op)
    (old : Option Value) : Except ApplyError (Option Value) :=
  match op with
  | .update value _ _ => do
      updateSlot sch kind col old (← visitPayload sch value)
  | .addInteger n =>
    match kind, old with
    | .property, some v =>
      if isNull col (some v) then .ok (some v)
      else some <$> addInt col v n
    | _, _ => .error .invalidPath
  | .clear type => clearSlot col old type
  | _ => .error .invalidPath

-- ===== payloads

/-- Payload types that stand for a value of their own. -/
def PayloadType.isScalar : PayloadType → Bool
  | .objectValue => false
  | .set => false
  | .list => false
  | .dictionary => false
  | .erased => false
  | _ => true

section

variable (h : visitPayload sch p = .ok v)

include h

/-- What a visitor gets is determined by the payload's type, up to which
scalar or link it is. -/
theorem visitPayload_cases : (p.type = .objectValue ∧ v = .objectValue)
      ∨ (p.type = .set ∧ v = .set)
      ∨ (p.type = .list ∧ v = .list)
      ∨ (p.type = .dictionary ∧ v = .dictionary)
      ∨ (p.type = .erased ∧ v = .erased)
      ∨ (p.type.isScalar = true
        ∧ ((∃ m, v = .value m) ∨ ∃ t k, v = .link t k)) := by
  cases p with
  | link table target =>
    simp only [visitPayload] at h
    split at h
    · cases h
    · split at h
      · cases h
      · obtain ⟨_, -, h⟩ := bind_eq_ok.1 h
        cases h
        simp [Payload.type, isScalar]
  | _ =>
    simp only [visitPayload, Except.ok.injEq] at h
    subst h
    simp [Payload.type, isScalar]

theorem visit_kinds : (v = .list ↔ p.type = .list)
    ∧ (v = .dictionary ↔ p.type = .dictionary)
    ∧ (v = .objectValue ↔ p.type = .objectValue)
    ∧ (v = .erased ↔ p.type = .erased) := by
  rcases visitPayload_cases h with h | h | h | h | h | ⟨h, ⟨m, hv⟩ | ⟨t, k, hv⟩⟩
  all_goals simp_all
  all_goals refine ⟨?_, ?_, ?_, ?_⟩ <;>
    exact fun h' => by simp [h', isScalar] at h

theorem visit_eq_list_iff : v = .list ↔ p.type = .list :=
  (visit_kinds h).1

theorem visit_eq_dictionary_iff : v = .dictionary ↔ p.type = .dictionary :=
  (visit_kinds h).2.1

theorem visit_eq_objectValue_iff :
    v = .objectValue ↔ p.type = .objectValue := (visit_kinds h).2.2.1

theorem visit_eq_erased_iff : v = .erased ↔ p.type = .erased :=
  (visit_kinds h).2.2.2

end

theorem storeLink_eq_ok {t : Bytes} {k : PrimaryKey Bytes} {w : Value}
    (h : storeLink col t k = .ok w) : w = .mixed (.link t k) := by
  unfold storeLink at h
  split at h
  · exact (Except.ok.inj h).symm
  · exact (Except.ok.inj h).symm
  · split at h
    · exact (Except.ok.inj h).symm
    · cases h
  · cases h

theorem storeMixed_eq_ok {m : Mixed} {w : Value}
    (h : storeMixed col m = .ok w) : w = .mixed m := by
  unfold storeMixed at h
  split at h <;> split at h <;> cases h <;> rfl

/-- A scalar, a link or an erasure overwrites the slot whatever it
held. -/
theorem updateSlot_overwrites {old' : Option Value}
    (hv : (∃ m, v = .value m) ∨ (∃ t k, v = .link t k) ∨ v = .erased) :
    updateSlot sch kind col old v = updateSlot sch kind col old' v := by
  rcases hv with ⟨m, rfl⟩ | ⟨t, k, rfl⟩ | rfl <;> rfl

/-- The list a slot holds after a list is created in it. -/
def keptList : Option Value → Value
  | some (.list l) => .list l
  | _ => .list []

/-- The dictionary a slot holds after a dictionary is created in it. -/
def keptDictionary : Option Value → Value
  | some (.dictionary d) => .dictionary d
  | _ => .emptyDictionary

theorem updateSlot_list_eq_ok : updateSlot sch kind col old .list = .ok new
      ↔ col.type = .mixed ∧ new = some (keptList old) := by
  simp only [updateSlot, setCollection]
  split
  · next h =>
      split <;> simp_all [keptList, emptyCollection, eq_comm]
  · next h => simp [h]

theorem updateSlot_dictionary_eq_ok :
    updateSlot sch kind col old .dictionary = .ok new
      ↔ col.type = .mixed ∧ new = some (keptDictionary old) := by
  simp only [updateSlot, setCollection]
  split
  · next h =>
      split <;> simp_all [keptDictionary, emptyCollection, eq_comm]
  · next h => simp [h]

/-- The empty collection of a type. -/
def emptyOf : CollectionType → Value
  | .dictionary => .emptyDictionary
  | .set => .emptySet
  | _ => .list []

theorem clearSlot_eq_ok {type : CollectionType} :
    clearSlot col old type = .ok new
      ↔ (type = .list ∨ type = .dictionary) ∧ old ≠ none
        ∧ col.type = .mixed ∧ new = some (emptyOf type) := by
  unfold clearSlot
  cases old with
  | none => simp
  | some v =>
    by_cases h : col.type = .mixed
    · cases type <;> simp [h, emptyCollection, emptyOf, eq_comm]
    · simp [h]

-- ===== what is refused

/-- Creating an embedded object and holding a `Mixed` do not go
together, so in a `Mixed` column the creation changes nothing. -/
theorem objectValue_in_mixed (hcol : col.type = .mixed)
    (h : updateSlot sch kind col old .objectValue = .ok new) :
    new = old := by
  have hno : createLinkedObject sch col = .error .notEmbeddedLink := by
    simp [createLinkedObject, hcol]
  simp only [updateSlot, hno] at h
  cases kind with
  | property =>
    simp only at h
    split at h
    · cases h
    · exact (Except.ok.inj h).symm
  | listElement => exact (Except.ok.inj h).symm
  | dictionaryEntry => cases h

theorem createLinkedObject_eq_ok {w : Value}
    (h : createLinkedObject sch col = .ok w) :
    ∃ t, col.inner sch = .ok (.object t) ∧ w = .object t.initialFields := by
  unfold createLinkedObject at h
  split at h
  · next t htype ht =>
    split at h
    · next he =>
      cases h
      exact ⟨t, by simp [Column.inner, htype, ht, he], rfl⟩
    · cases h
  · cases h

/-- Creating an embedded object twice is creating it once. -/
theorem objectValue_again
    (h : updateSlot sch kind col old .objectValue = .ok new) :
    updateSlot sch kind col new .objectValue = .ok new := by
  simp only [updateSlot] at h ⊢
  cases kind with
  | property =>
    simp only at h ⊢
    by_cases hnull : isNull col old = true
    · rw [if_pos hnull] at h
      obtain ⟨v, hv, rfl⟩ := map_eq_ok.1 h
      obtain ⟨t, -, rfl⟩ := createLinkedObject_eq_ok hv
      simp [isNull]
    · rw [if_neg hnull] at h
      cases h
      rw [if_neg hnull]
  | listElement => rfl
  | dictionaryEntry => exact h

/-- After an update that creates no object, the slot holds no collection
but one of the type that the update creates. -/
theorem kept_after (h : updateSlot sch kind col old v = .ok new)
    (ho : v ≠ .objectValue) : (v ≠ .list → keptList new = .list [])
      ∧ (v ≠ .dictionary → keptDictionary new = .emptyDictionary) := by
  cases v with
  | link t k =>
    obtain ⟨w, hw, rfl⟩ := map_eq_ok.1 h
    rw [storeLink_eq_ok hw]
    exact ⟨fun _ => rfl, fun _ => rfl⟩
  | value m =>
    obtain ⟨w, hw, rfl⟩ := map_eq_ok.1 h
    rw [storeMixed_eq_ok hw]
    exact ⟨fun _ => rfl, fun _ => rfl⟩
  | objectValue => exact absurd rfl ho
  | dictionary =>
    obtain ⟨-, rfl⟩ := updateSlot_dictionary_eq_ok.1 h
    refine ⟨fun _ => ?_, fun hd => absurd rfl hd⟩
    unfold keptDictionary Value.emptyDictionary
    split <;> rfl
  | list =>
    obtain ⟨-, rfl⟩ := updateSlot_list_eq_ok.1 h
    refine ⟨fun hl => absurd rfl hl, fun _ => ?_⟩
    unfold keptList
    split <;> rfl
  | set => cases h
  | erased =>
    cases kind <;> cases h
    exact ⟨fun _ => rfl, fun _ => rfl⟩

-- ===== clashes

/-- A collection of the type an update creates is already there, and not
empty. -/
def KeepsNonempty (t : PayloadType) (old : Option Value) : Prop :=
  (t = .list ∧ keptList old ≠ .list [])
    ∨ (t = .dictionary ∧ keptDictionary old ≠ .emptyDictionary)

/-- Running the winner of two different updates after the loser gives
what it gives alone, unless it keeps a collection the loser removes. -/
theorem update_after_update
    (hl : slotRun sch kind col (.update l ld lp) old = .ok a)
    (hw : slotRun sch kind col (.update w wd wp) old = .ok b)
    (hlw : l.type ≠ w.type) (hlo : l.type ≠ .objectValue)
    (hwo : w.type ≠ .objectValue) :
    slotRun sch kind col (.update w wd wp) a = .ok b
      ↔ ¬KeepsNonempty w.type old := by
  obtain ⟨x, hx, hl⟩ := bind_eq_ok.1 hl
  obtain ⟨y, hy, hw⟩ := bind_eq_ok.1 hw
  have hxo : x ≠ .objectValue := (visit_eq_objectValue_iff hx).not.2 hlo
  have hrun : slotRun sch kind col (.update w wd wp) a
      = updateSlot sch kind col a y := by
    simp [slotRun, hy]
  rw [hrun]
  rcases visitPayload_cases hy with ⟨h, -⟩ | ⟨-, rfl⟩ | ⟨h, rfl⟩ | ⟨h, rfl⟩
    | ⟨h, rfl⟩ | ⟨h, hv⟩
  · exact absurd h hwo
  · cases hw
  · have hxl : x ≠ .list := fun h' =>
      hlw (((visit_eq_list_iff hx).1 h').trans h.symm)
    obtain ⟨hcol, rfl⟩ := updateSlot_list_eq_ok.1 hw
    rw [updateSlot_list_eq_ok, (kept_after hl hxo).1 hxl]
    simp [KeepsNonempty, h, hcol, eq_comm]
  · have hxd : x ≠ .dictionary := fun h' =>
      hlw (((visit_eq_dictionary_iff hx).1 h').trans h.symm)
    obtain ⟨hcol, rfl⟩ := updateSlot_dictionary_eq_ok.1 hw
    rw [updateSlot_dictionary_eq_ok, (kept_after hl hxo).2 hxd]
    simp [KeepsNonempty, h, hcol, eq_comm]
  · rw [updateSlot_overwrites (.inr (.inr rfl)), hw]
    simp [KeepsNonempty, h]
  · have hv' : (∃ m, y = .value m) ∨ (∃ t k, y = .link t k) ∨ y = .erased :=
      hv.elim .inl (fun h => .inr (.inl h))
    rw [updateSlot_overwrites hv', hw]
    have hnl : w.type ≠ .list := fun h' => by simp [h', isScalar] at h
    have hnd : w.type ≠ .dictionary := fun h' => by
      simp [h', isScalar] at h
    simp [KeepsNonempty, hnl, hnd]

/-- A slot operation that may have been discarded. -/
def slotOpt (sch : Schema) (kind : SlotKind) (col : Column)
    (x : Option Leaf) : Option Value → Except ApplyError (Option Value) :=
  runOpt (x.map fun x => slotRun sch kind col x.op)

section

variable (hl : slotRun sch kind col (.update l ld lp) old = .ok a)

include hl

section

variable (hw : slotRun sch kind col (.update w wd wp) old = .ok b)

include hw

/-- Two updates of the same kind, other than of a collection: the second
one has the effect it has alone. -/
theorem update_after_same (hlw : l.type = w.type) (hnl : w.type ≠ .list)
    (hnd : w.type ≠ .dictionary) :
    slotRun sch kind col (.update w wd wp) a = .ok b := by
  obtain ⟨x, hx, hl⟩ := bind_eq_ok.1 hl
  obtain ⟨y, hy, hw⟩ := bind_eq_ok.1 hw
  refine bind_eq_ok.2 ⟨y, hy, ?_⟩
  rcases visitPayload_cases hy with ⟨h, rfl⟩ | ⟨-, rfl⟩ | ⟨h, -⟩ | ⟨h, -⟩
    | ⟨-, rfl⟩ | ⟨-, hv⟩
  · obtain rfl : x = .objectValue :=
      (visit_eq_objectValue_iff hx).2 (hlw.trans h)
    cases hl.symm.trans hw
    exact objectValue_again hw
  · cases hw
  · exact absurd h hnl
  · exact absurd h hnd
  · rw [updateSlot_overwrites (.inr (.inr rfl)), hw]
  · rw [updateSlot_overwrites (hv.elim .inl fun h => .inr (.inl h)), hw]

/-- Any update after the creation of an embedded object has the effect
it has alone. -/
theorem update_after_objectValue
    (hlo : l.type = .objectValue) (hwo : w.type ≠ .objectValue) :
    slotRun sch kind col (.update w wd wp) a = .ok b := by
  obtain ⟨x, hx, hl⟩ := bind_eq_ok.1 hl
  obtain ⟨y, hy, hw⟩ := bind_eq_ok.1 hw
  obtain rfl : x = .objectValue := (visit_eq_objectValue_iff hx).2 hlo
  refine bind_eq_ok.2 ⟨y, hy, ?_⟩
  rcases visitPayload_cases hy with ⟨h, -⟩ | ⟨-, rfl⟩ | ⟨-, rfl⟩ | ⟨-, rfl⟩
    | ⟨-, rfl⟩ | ⟨-, hv⟩
  · exact absurd h hwo
  · cases hw
  · rw [objectValue_in_mixed (updateSlot_list_eq_ok.1 hw).1 hl, hw]
  · rw [objectValue_in_mixed (updateSlot_dictionary_eq_ok.1 hw).1 hl, hw]
  · rw [updateSlot_overwrites (.inr (.inr rfl)), hw]
  · rw [updateSlot_overwrites (hv.elim .inl fun h => .inr (.inl h)), hw]

end

/-- Two creations of the same kind of collection. -/
theorem update_collections_converge {r : Payload Interned Buffered}
    (hr : slotRun sch kind col (.update r rd rp) old = .ok b)
    (hlr : l.type = r.type) (hc : r.type = .list ∨ r.type = .dictionary) :
    ∃ c, slotRun sch kind col (.update r rd rp) a = .ok c
      ∧ slotRun sch kind col (.update l ld lp) b = .ok c := by
  obtain ⟨x, hx, hl⟩ := bind_eq_ok.1 hl
  obtain ⟨y, hy, hr⟩ := bind_eq_ok.1 hr
  rcases hc with hc | hc
  · obtain rfl : x = .list := (visit_eq_list_iff hx).2 (hlr.trans hc)
    obtain rfl : y = .list := (visit_eq_list_iff hy).2 hc
    cases hl.symm.trans hr
    obtain ⟨hcol, rfl⟩ := updateSlot_list_eq_ok.1 hl
    exact ⟨_, bind_eq_ok.2 ⟨_, hy, updateSlot_list_eq_ok.2 ⟨hcol, rfl⟩⟩,
      bind_eq_ok.2 ⟨_, hx, updateSlot_list_eq_ok.2 ⟨hcol, rfl⟩⟩⟩
  · obtain rfl : x = .dictionary :=
      (visit_eq_dictionary_iff hx).2 (hlr.trans hc)
    obtain rfl : y = .dictionary := (visit_eq_dictionary_iff hy).2 hc
    cases hl.symm.trans hr
    obtain ⟨hcol, rfl⟩ := updateSlot_dictionary_eq_ok.1 hl
    exact ⟨_,
      bind_eq_ok.2 ⟨_, hy, updateSlot_dictionary_eq_ok.2 ⟨hcol, rfl⟩⟩,
      bind_eq_ok.2 ⟨_, hx, updateSlot_dictionary_eq_ok.2 ⟨hcol, rfl⟩⟩⟩

end

/-- Operations that shift the elements of a list. -/
def Op.isArrayOp : Op → Bool
  | .arrayInsert .. => true
  | .arrayMove .. => true
  | .arrayErase .. => true
  | _ => false

/-- A leaf at a given path element that shifts nothing. -/
def InPlace (e : Elem) (x : Leaf) : Prop :=
  x.elem = e ∧ Op.isArrayOp x.op = false

/-- What a rule makes of two operations at a slot, and exactly when the
two orders then agree. What survives stays where it was. -/
def SquareIff (sch : Schema) (kind : SlotKind) (col : Column) (l r : Leaf)
    (old : Option Value) (merged : Merged) (good : Prop) : Prop :=
  ∃ x y, merged = .ok (x, y)
    ∧ (∀ z ∈ x, InPlace l.elem z) ∧ (∀ z ∈ y, InPlace r.elem z)
    ∧ (Converges (slotRun sch kind col l.op) (slotOpt sch kind col y)
        (slotRun sch kind col r.op) (slotOpt sch kind col x) old ↔ good)

/-- The operations a slot takes. -/
theorem slotRun_op {op : Op} (h : slotRun sch kind col op old = .ok new) :
    (∃ v d p, op = .update v d p) ∨ (∃ n, op = .addInteger n)
      ∨ ∃ ct, op = .clear ct := by
  cases op with
  | update v d p => exact .inl ⟨v, d, p, rfl⟩
  | addInteger n => exact .inr (.inl ⟨n, rfl⟩)
  | clear ct => exact .inr (.inr ⟨ct, rfl⟩)
  | _ => cases h

theorem inPlace_of_slotRun {x : Leaf}
    (h : slotRun sch kind col x.op old = .ok new) : InPlace x.elem x := by
  refine ⟨rfl, ?_⟩
  rcases slotRun_op h with ⟨v, d, p, h⟩ | ⟨n, h⟩ | ⟨ct, h⟩ <;> rw [h] <;> rfl

namespace SquareIff

variable {l r : Leaf} {old a b : Option Value} {good : Prop}

section

variable (hl : slotRun sch kind col l.op old = .ok a) (hr : slotRun sch
  kind col r.op old = .ok b)

include hl hr

/-- Both operations are kept, the right one perhaps with another
operand. -/
theorem keep {y : Leaf} (hy : InPlace r.elem y)
    (h : (∃ c, slotRun sch kind col y.op a = .ok c
        ∧ slotRun sch kind col l.op b = .ok c) ↔ good) :
    SquareIff sch kind col l r old (.ok (some l, some y)) good := by
  refine ⟨_, _, rfl, ?_, ?_, (converges_iff hl hr).trans h⟩
  · rintro z ⟨⟩
    exact inPlace_of_slotRun hl
  · rintro z ⟨⟩
    exact hy

/-- The left operation is discarded: the right one must do after it what
it does alone. -/
theorem discardLeft (h : slotRun sch kind col r.op a = .ok b ↔ good) :
    SquareIff sch kind col l r old (.ok (none, some r)) good := by
  refine ⟨_, _, rfl, ?_, ?_, (converges_discard_left hl hr).trans h⟩
  · rintro z ⟨⟩
  · rintro z ⟨⟩
    exact inPlace_of_slotRun hr

end

/-- A rule written for the other order of its sides. -/
theorem swap {merged : Merged}
    (h : SquareIff sch kind col r l old merged good) :
    SquareIff sch kind col l r old (Prod.swap <$> merged) good := by
  obtain ⟨x, y, rfl, hx, hy, h⟩ := h
  exact ⟨y, x, rfl, hy, hx, converges_comm.trans h⟩

theorem discardRight (hl : slotRun sch kind col l.op old = .ok a)
    (hr : slotRun sch kind col r.op old = .ok b)
    (h : slotRun sch kind col l.op b = .ok a ↔ good) :
    SquareIff sch kind col l r old (.ok (some l, none)) good :=
  (discardLeft hr hl h).swap

end SquareIff

/-- Whether the left one of two updates of a slot wins: a default loses
to a value, otherwise the later one wins. List elements have no
default. -/
def leftUpdateWins (ls rs : Discriminant) (array ld rd : Bool) : Bool :=
  if (!array && ld) = (!array && rd) then !ls.lt rs else !(!array && ld)

/-- Two updates of a slot that end differently in the two orders: the
winner creates a collection that is already there with contents, and the
loser replaces it by something else. -/
def UpdateClash (ls rs : Discriminant) (array : Bool)
    (lv : Payload Interned Buffered) (ld : Bool)
    (rv : Payload Interned Buffered) (rd : Bool) (old : Option Value) :
    Prop :=
  lv.type ≠ rv.type ∧ lv.type ≠ .objectValue ∧ rv.type ≠ .objectValue
    ∧ KeepsNonempty
        (if leftUpdateWins ls rs array ld rd then lv.type else rv.type) old

/-- The rule of two updates of one slot, with its checks passed. -/
theorem mergeUpdateUpdate_eq {l r : Leaf}
    (he : sameElement l.elem r.elem = true)
    (hp : Elem.isIndex l.elem = true → lp = rp) :
    mergeUpdateUpdate ls rs l r lv ld lp rv rd rp
      = if lv.type ≠ rv.type ∧ lv.type = .objectValue then .ok (none, some r)
        else if lv.type ≠ rv.type ∧ rv.type = .objectValue then
          .ok (some l, none)
        else if lv.type = rv.type ∧ (lv.type = .list ∨ lv.type = .dictionary)
          then .ok (some l, some r)
        else if leftUpdateWins ls rs (Elem.isIndex l.elem) ld rd then
          .ok (some l, none)
        else .ok (none, some r) := by
  obtain ⟨e, x⟩ := l
  obtain ⟨e', y⟩ := r
  unfold mergeUpdateUpdate
  rw [if_pos he]
  cases e with
  | key s =>
    cases e' with
    | index j => simp [sameElement] at he
    | key t =>
      simp only [Leaf.isArrayUpdate, Elem.isIndex, checkMerge,
        beq_self_eq_true, if_true, ok_bind, Bool.not_false, Bool.true_or, Bool.true_and,
        keepBoth, discardOlder, leftUpdateWins]
      split_ifs <;> simp_all
  | index i =>
    cases e' with
    | key t => simp [sameElement] at he
    | index j =>
      obtain rfl := hp rfl
      simp only [Leaf.isArrayUpdate, Elem.isIndex, checkMerge,
        beq_self_eq_true, if_true, ok_bind, Bool.not_true, Bool.false_or,
        Bool.false_and, keepBoth, discardOlder, leftUpdateWins]
      split_ifs <;> simp_all

theorem update_update_converges_iff (he : sameElement e e' = true)
    (hp : Elem.isIndex e = true → lp = rp)
    (hl : slotRun sch kind col (.update lv ld lp) old = .ok a)
    (hr : slotRun sch kind col (.update rv rd rp) old = .ok b) :
    SquareIff sch kind col ⟨e, .update lv ld lp⟩ ⟨e', .update rv rd rp⟩ old
      (mergeUpdateUpdate ls rs ⟨e, .update lv ld lp⟩ ⟨e', .update rv rd rp⟩
        lv ld lp rv rd rp)
      (¬UpdateClash ls rs (Elem.isIndex e) lv ld rv rd old) := by
  rw [mergeUpdateUpdate_eq he hp]
  split
  · next h =>
      refine .discardLeft hl hr ?_
      simp [UpdateClash, h.2,
        update_after_objectValue hl hr h.2 (h.2 ▸ h.1.symm)]
  split
  · next h =>
      refine .discardRight hl hr ?_
      simp [UpdateClash, h.2, update_after_objectValue hr hl h.2 (h.2 ▸ h.1)]
  split
  · next h =>
      exact .keep hl hr ⟨rfl, rfl⟩ (iff_of_true
        (update_collections_converge hl hr h.1 (h.1 ▸ h.2)) fun hc => hc.1 h.1)
  next hlo hro hcoll =>
  by_cases ht : lv.type = rv.type
  · -- The same kind of value: the winner overwrites the loser.
    have hnl : rv.type ≠ .list := fun h => hcoll ⟨ht, .inl (ht ▸ h)⟩
    have hnd : rv.type ≠ .dictionary := fun h => hcoll ⟨ht, .inr (ht ▸ h)⟩
    split
    · refine .discardRight hl hr ?_
      simp [UpdateClash, ht,
        update_after_same hr hl ht.symm (ht ▸ hnl) (ht ▸ hnd)]
    · refine .discardLeft hl hr ?_
      simp [UpdateClash, ht, update_after_same hl hr ht hnl hnd]
  · have hlo' : lv.type ≠ .objectValue := fun h => hlo ⟨ht, h⟩
    have hro' : rv.type ≠ .objectValue := fun h => hro ⟨ht, h⟩
    split
    · next hwin =>
        refine .discardRight hl hr ?_
        rw [update_after_update hr hl (Ne.symm ht) hro' hlo']
        simp [UpdateClash, ht, hlo', hro', hwin]
    · next hwin =>
        refine .discardLeft hl hr ?_
        rw [update_after_update hl hr ht hlo' hro']
        simp [UpdateClash, ht, hlo', hro', hwin]

-- ===== increments

/-- What an increment leaves, if it is accepted: a null as it is, an
integer advanced. -/
theorem addInteger_eq_ok
    (h : slotRun sch kind col (.addInteger n) old = .ok new) :
    kind = .property
      ∧ ((old = some (.mixed .null) ∧ col.nullable = true ∧ new = old)
        ∨ ∃ i, old = some (.mixed (.int i)) ∧ new = some (.mixed (.int (i + n)))
          ∧ (col.type = .int ∨ col.type = .mixed)) := by
  cases kind <;> cases old <;> simp only [slotRun] at h <;> try cases h
  next v =>
  refine ⟨rfl, ?_⟩
  split at h
  · next hnull =>
      cases h
      unfold isNull at hnull
      split at hnull
      · next heq => exact .inl ⟨heq, hnull, rfl⟩
      · cases hnull
  · obtain ⟨w, hw, rfl⟩ := map_eq_ok.1 h
    unfold addInt at hw
    split at hw
    · split at hw
      · next hcol =>
          cases hw
          exact .inr ⟨_, rfl, rfl, hcol⟩
      · cases hw
    · cases hw

theorem addInteger_int {i : Int64}
    (hcol : col.type = .int ∨ col.type = .mixed) :
    slotRun sch .property col (.addInteger n) (some (.mixed (.int i)))
      = .ok (some (.mixed (.int (i + n)))) := by
  simp [slotRun, isNull, addInt, hcol]

theorem addInteger_null (hcol : col.nullable = true) :
    slotRun sch .property col (.addInteger n) (some (.mixed .null))
      = .ok (some (.mixed .null)) := by
  simp [slotRun, isNull, hcol]

/-- The creation of an embedded object leaves an integer alone, and an
increment does not. -/
def IncrementClash (n : Int64) (v : Payload Interned Buffered)
    (old : Option Value) : Prop :=
  v.type = .objectValue ∧ n ≠ 0 ∧ ∃ i, old = some (.mixed (.int i))

/-- An update after an increment gives what it gives alone. -/
theorem update_after_addInteger
    (hn : slotRun sch kind col (.addInteger n) old = .ok a)
    (hw : slotRun sch kind col (.update w wd wp) old = .ok b) :
    slotRun sch kind col (.update w wd wp) a = .ok b
      ↔ ¬IncrementClash n w old := by
  obtain ⟨rfl, ⟨rfl, -, rfl⟩ | ⟨i, rfl, rfl, hcol⟩⟩ := addInteger_eq_ok hn
  · simp [hw, IncrementClash]
  obtain ⟨y, hy, hw⟩ := bind_eq_ok.1 hw
  have hrun : slotRun sch .property col (.update w wd wp)
      (some (.mixed (.int (i + n))))
        = updateSlot sch .property col (some (.mixed (.int (i + n)))) y := by
    simp [slotRun, hy]
  rw [hrun]
  by_cases hyo : y = .objectValue
  · subst hyo
    have hwo := (visit_eq_objectValue_iff hy).1 rfl
    simp only [updateSlot, isNull, Bool.false_eq_true, if_false] at hw ⊢
    cases hw
    have hin : i + n = i ↔ n = 0 := Int64.add_eq_left
    simp [IncrementClash, hwo, hin]
  · have hwo := (visit_eq_objectValue_iff hy).not.1 hyo
    -- Neither integer is a collection, so nothing can be kept.
    have hsame : updateSlot sch .property col (some (.mixed (.int (i + n)))) y
        = updateSlot sch .property col (some (.mixed (.int i))) y := by
      cases y with
      | objectValue => exact absurd rfl hyo
      | _ => rfl
    simp [hsame, hw, IncrementClash, hwo]

theorem addInteger_update_converges_iff {v : Payload Interned Buffered}
    {p : UInt32} (he : sameElement e e' = true)
    (hl : slotRun sch kind col (.addInteger n) old = .ok a)
    (hr : slotRun sch kind col (.update v d p) old = .ok b) :
    SquareIff sch kind col ⟨e, .addInteger n⟩ ⟨e', .update v d p⟩ old
      (mergeAddIntegerUpdate ls rs ⟨e, .addInteger n⟩ ⟨e', .update v d p⟩
        n v d p)
      (¬IncrementClash n v old) := by
  have hdiscard : SquareIff sch kind col ⟨e, .addInteger n⟩
      ⟨e', .update v d p⟩ old (.ok (none, some ⟨e', .update v d p⟩))
      (¬IncrementClash n v old) :=
    .discardLeft hl hr (update_after_addInteger hl hr)
  unfold mergeAddIntegerUpdate
  rw [if_pos he]
  dsimp only
  split
  · cases v with
    | null =>
      refine .keep hl hr ⟨rfl, rfl⟩ ?_
      obtain ⟨rfl, -⟩ := addInteger_eq_ok hl
      have hb := (update_after_addInteger hl hr).2 (by
        simp [IncrementClash, Payload.type])
      have hnull : col.nullable = true ∧ b = some (.mixed .null) := by
        simp only [slotRun, visitPayload, ok_bind, updateSlot, storeMixed,
          Mixed.type?] at hr
        split at hr
        · next hnull => exact ⟨hnull, (Except.ok.inj hr).symm⟩
        · cases hr
      obtain ⟨hnull, rfl⟩ := hnull
      simp [hb, addInteger_null hnull, IncrementClash, Payload.type]
    | int i =>
      refine .keep hl hr ⟨rfl, rfl⟩ ?_
      obtain ⟨rfl, -⟩ := addInteger_eq_ok hl
      have hint : (col.type = .int ∨ col.type = .mixed)
          ∧ b = some (.mixed (.int i)) := by
        simp only [slotRun, visitPayload, ok_bind, updateSlot, storeMixed,
          Mixed.type?] at hr
        split at hr
        · next hcol => exact ⟨hcol.symm.imp_left Eq.symm, (Except.ok.inj hr).symm⟩
        · cases hr
      obtain ⟨hcol, rfl⟩ := hint
      have hset : slotRun sch .property col (.update (.int (i + n)) d p) a
          = .ok (some (.mixed (.int (i + n)))) := by
        simp [slotRun, visitPayload, updateSlot, storeMixed, Mixed.type?,
          hcol.symm.imp_right Eq.symm]
      simp [hset, addInteger_int hcol, IncrementClash, Payload.type]
    | _ => exact hdiscard
  · exact hdiscard

-- ===== clears

/-- A clear and an update of a slot that end differently in the two
orders. If the update wins: it creates a collection that is already there
with contents, or an object in a slot that keeps what it holds. If the
clear wins: the update erased the dictionary entry it is to clear. -/
def ClearClash (ls rs : Discriminant) (ct : CollectionType)
    (v : Payload Interned Buffered) (old : Option Value) : Prop :=
  ¬(ct = .list ∧ v.type = .list)
    ∧ ¬(ct = .dictionary ∧ v.type = .dictionary)
    ∧ (if ls.lt rs then
        KeepsNonempty v.type old
          ∨ (v.type = .objectValue ∧ old ≠ some (emptyOf ct))
      else v.type = .erased)

/-- A clear gives the same wherever it finds something to clear. -/
theorem clear_after (h : slotRun sch kind col (.clear ct) old = .ok a) :
    slotRun sch kind col (.clear ct) b = .ok a ↔ b ≠ none := by
  obtain ⟨hct, -, hcol, rfl⟩ := clearSlot_eq_ok.1 h
  exact clearSlot_eq_ok.trans (by simp [hct, hcol])

/-- Only an erasure removes what a slot holds. -/
theorem update_ne_none {v : Payload Interned Buffered} {p : UInt32}
    (hold : old ≠ none)
    (h : slotRun sch kind col (.update v d p) old = .ok b) :
    b ≠ none ↔ v.type ≠ .erased := by
  obtain ⟨y, hy, h⟩ := bind_eq_ok.1 h
  rw [ne_eq, ne_eq, ← visit_eq_erased_iff hy, not_iff_not]
  cases y with
  | erased =>
    cases kind <;> cases h
    simp
  | set => cases h
  | objectValue =>
    cases kind with
    | property =>
      simp only [updateSlot] at h
      split at h
      · obtain ⟨w, -, rfl⟩ := map_eq_ok.1 h
        simp
      · cases h
        simp [hold]
    | listElement =>
      cases h
      simp [hold]
    | dictionaryEntry =>
      obtain ⟨w, -, rfl⟩ := map_eq_ok.1 h
      simp
  | _ =>
    obtain ⟨w, -, rfl⟩ := map_eq_ok.1 h
    simp

/-- An update after a clear of another type of collection. -/
theorem update_after_clear
    (hc : slotRun sch kind col (.clear ct) old = .ok a)
    (hw : slotRun sch kind col (.update w wd wp) old = .ok b)
    (hlist : ¬(ct = .list ∧ w.type = .list))
    (hdict : ¬(ct = .dictionary ∧ w.type = .dictionary)) :
    slotRun sch kind col (.update w wd wp) a = .ok b
      ↔ ¬(KeepsNonempty w.type old
          ∨ (w.type = .objectValue ∧ old ≠ some (emptyOf ct))) := by
  obtain ⟨hct, hold, hcol, rfl⟩ := clearSlot_eq_ok.1 hc
  obtain ⟨y, hy, hw⟩ := bind_eq_ok.1 hw
  have hrun : slotRun sch kind col (.update w wd wp) (some (emptyOf ct))
      = updateSlot sch kind col (some (emptyOf ct)) y := by
    simp [slotRun, hy]
  rw [hrun]
  rcases visitPayload_cases hy with ⟨h, rfl⟩ | ⟨-, rfl⟩ | ⟨h, rfl⟩ | ⟨h, rfl⟩
    | ⟨h, rfl⟩ | ⟨h, hv⟩
  · -- Creating an object in a `Mixed` slot leaves it as it is.
    obtain rfl := objectValue_in_mixed hcol hw
    have hkeep : updateSlot sch kind col (some (emptyOf ct)) .objectValue
        = .ok (some (emptyOf ct)) := by
      cases kind with
      | property =>
        rcases hct with rfl | rfl <;>
          simp [updateSlot, isNull, emptyOf, Value.emptyDictionary]
      | listElement => rfl
      | dictionaryEntry =>
        obtain ⟨v, hv, -⟩ := map_eq_ok.1 hw
        simp [createLinkedObject, hcol] at hv
    simp [hkeep, h, KeepsNonempty, eq_comm]
  · cases hw
  · have hkept : keptList (some (emptyOf ct)) = .list [] := by
      rcases hct with rfl | rfl <;> rfl
    obtain ⟨-, rfl⟩ := updateSlot_list_eq_ok.1 hw
    rw [updateSlot_list_eq_ok, hkept]
    simp [KeepsNonempty, h, hcol, eq_comm]
  · have hkept : keptDictionary (some (emptyOf ct)) = .emptyDictionary := by
      rcases hct with rfl | rfl <;> rfl
    obtain ⟨-, rfl⟩ := updateSlot_dictionary_eq_ok.1 hw
    rw [updateSlot_dictionary_eq_ok, hkept]
    simp [KeepsNonempty, h, hcol, eq_comm]
  · rw [updateSlot_overwrites (.inr (.inr rfl)), hw]
    simp [KeepsNonempty, h]
  · rw [updateSlot_overwrites (hv.elim .inl fun h => .inr (.inl h)), hw]
    have hns : ∀ t, t.isScalar = false → w.type ≠ t := fun t ht h' => by
      simp [h', ht] at h
    simp [KeepsNonempty, hns .list rfl, hns .dictionary rfl,
      hns .objectValue rfl]

theorem clear_update_converges_iff {v : Payload Interned Buffered}
    {p : UInt32} (he : sameElement e e' = true)
    (hl : slotRun sch kind col (.clear ct) old = .ok a)
    (hr : slotRun sch kind col (.update v d p) old = .ok b) :
    SquareIff sch kind col ⟨e, .clear ct⟩ ⟨e', .update v d p⟩ old
      (mergeClearUpdate ls rs ⟨e, .clear ct⟩ ⟨e', .update v d p⟩ ct v)
      (¬ClearClash ls rs ct v old) := by
  have hold := (clearSlot_eq_ok.1 hl).2.1
  have hset : v.type ≠ .set := fun h => by
    obtain ⟨y, hy, hr⟩ := bind_eq_ok.1 hr
    rcases visitPayload_cases hy with h' | ⟨-, rfl⟩ | h' | h' | h' | h'
    · simp [h] at h'
    · cases hr
    all_goals simp [h, isScalar] at h'
  unfold mergeClearUpdate
  rw [if_pos he, if_neg hset]
  by_cases hlist : ct = .list ∧ v.type = .list
  · rw [if_pos hlist]
    refine .keep hl hr ⟨rfl, rfl⟩ (iff_of_true ?_ fun hc => hc.1 hlist)
    obtain ⟨-, -, hcol, rfl⟩ := clearSlot_eq_ok.1 hl
    obtain ⟨y, hy, hr'⟩ := bind_eq_ok.1 hr
    obtain rfl : y = .list := (visit_eq_list_iff hy).2 hlist.2
    have hb := (update_ne_none hold hr).2 (by simp [hlist.2])
    refine ⟨some (emptyOf ct), ?_, (clear_after hl).2 hb⟩
    exact bind_eq_ok.2 ⟨_, hy,
      updateSlot_list_eq_ok.2 ⟨hcol, by simp [hlist.1, emptyOf, keptList]⟩⟩
  rw [if_neg hlist]
  by_cases hdict : ct = .dictionary ∧ v.type = .dictionary
  · rw [if_pos hdict]
    refine .keep hl hr ⟨rfl, rfl⟩ (iff_of_true ?_ fun hc => hc.2.1 hdict)
    obtain ⟨-, -, hcol, rfl⟩ := clearSlot_eq_ok.1 hl
    obtain ⟨y, hy, hr'⟩ := bind_eq_ok.1 hr
    obtain rfl : y = .dictionary := (visit_eq_dictionary_iff hy).2 hdict.2
    have hb := (update_ne_none hold hr).2 (by simp [hdict.2])
    refine ⟨some (emptyOf ct), ?_, (clear_after hl).2 hb⟩
    exact bind_eq_ok.2 ⟨_, hy,
      updateSlot_dictionary_eq_ok.2 ⟨hcol, by simp [hdict.1, emptyOf,
        keptDictionary, Value.emptyDictionary]⟩⟩
  rw [if_neg hdict]
  unfold discardOlder
  split
  · next hlt =>
      refine .discardLeft hl hr ?_
      rw [update_after_clear hl hr hlist hdict]
      simp [ClearClash, hlist, hdict, hlt]
  · next hlt =>
      refine .discardRight hl hr ?_
      rw [clear_after hl, update_ne_none hold hr]
      simp [ClearClash, hlist, hdict, hlt]

-- ===== the matrix

/-- The pairs of operations at one slot that end differently in the two
orders. -/
def SlotClash (ls rs : Discriminant) (l r : Leaf) (old : Option Value) :
    Prop :=
  match l.op, r.op with
  | .update lv ld _, .update rv rd _ =>
    UpdateClash ls rs (Elem.isIndex l.elem) lv ld rv rd old
  | .addInteger n, .update v _ _ => IncrementClash n v old
  | .update v _ _, .addInteger n => IncrementClash n v old
  | .clear ct, .update v _ _ => ClearClash ls rs ct v old
  | .update v _ _, .clear ct => ClearClash rs ls ct v old
  | _, _ => False

/-- Two updates of one list element carry the same size of the list. -/
def SamePriorSize (l r : Leaf) : Prop :=
  match l.op, r.op with
  | .update _ _ lp, .update _ _ rp => Elem.isIndex l.elem = true → lp = rp
  | _, _ => True

/-- Two operations at the same slot, both accepted there, are merged, and
converge exactly when they are not one of the clashes. -/
theorem slot_converges_iff {l r : Leaf}
    (he : sameElement l.elem r.elem = true) (hp : SamePriorSize l r)
    (hl : slotRun sch kind col l.op old = .ok a)
    (hr : slotRun sch kind col r.op old = .ok b) :
    SquareIff sch kind col l r old (mergeSlots ls rs l r)
      (¬SlotClash ls rs l r old) := by
  obtain ⟨e, lop⟩ := l
  obtain ⟨e', rop⟩ := r
  have he' := sameElement_comm.trans he
  simp only at he hl hr
  rcases slotRun_op hl with ⟨lv, ld, lp, rfl⟩ | ⟨n, rfl⟩ | ⟨ct, rfl⟩ <;>
    rcases slotRun_op hr with ⟨rv, rd, rp, rfl⟩ | ⟨m, rfl⟩ | ⟨dt, rfl⟩
  · exact update_update_converges_iff he hp hl hr
  · exact (addInteger_update_converges_iff he' hr hl).swap
  · exact (clear_update_converges_iff he' hr hl).swap
  · exact addInteger_update_converges_iff he hl hr
  · -- Two increments are kept, and integer addition commutes.
    refine .keep hl hr ⟨rfl, rfl⟩ (iff_of_true ?_ not_false)
    obtain ⟨rfl, ⟨rfl, hnull, rfl⟩ | ⟨i, rfl, rfl, hcol⟩⟩ :=
      addInteger_eq_ok hl
    · rw [hr]
      obtain ⟨-, ⟨-, -, rfl⟩ | ⟨i, h, -⟩⟩ := addInteger_eq_ok hr
      · exact ⟨_, rfl, hl⟩
      · cases h
    · obtain ⟨-, ⟨h, -⟩ | ⟨j, h, rfl, -⟩⟩ := addInteger_eq_ok hr
      · cases h
      · cases h
        refine ⟨_, addInteger_int hcol, ?_⟩
        rw [addInteger_int hcol, Int64.add_assoc, Int64.add_comm m n,
          ← Int64.add_assoc]
  · -- A clear beats an increment.
    have hmerge : mergeSlots ls rs ⟨e, .addInteger n⟩ ⟨e', .clear dt⟩
        = .ok (none, some ⟨e', .clear dt⟩) := by
      simp [mergeSlots, opType, mergeOrdered, he']
    rw [hmerge]
    refine .discardLeft hl hr (iff_of_true ((clear_after hr).2 ?_) not_false)
    obtain ⟨-, ⟨rfl, -, rfl⟩ | ⟨i, -, rfl, -⟩⟩ := addInteger_eq_ok hl <;> simp
  · exact clear_update_converges_iff he hl hr
  · have hmerge : mergeSlots ls rs ⟨e, .clear ct⟩ ⟨e', .addInteger m⟩
        = .ok (some ⟨e, .clear ct⟩, none) := by
      simp [mergeSlots, opType, mergeOrdered, he]
    rw [hmerge]
    refine .discardRight hl hr (iff_of_true ((clear_after hl).2 ?_) not_false)
    obtain ⟨-, ⟨rfl, -, rfl⟩ | ⟨i, -, rfl, -⟩⟩ := addInteger_eq_ok hr <;> simp
  · have hmerge : mergeSlots ls rs ⟨e, .clear ct⟩ ⟨e', .clear dt⟩
        = discardOlder ls rs ⟨e, .clear ct⟩ ⟨e', .clear dt⟩ := by
      simp [mergeSlots, opType, mergeOrdered, he]
    obtain ⟨-, -, -, rfl⟩ := clearSlot_eq_ok.1 hl
    obtain ⟨-, -, -, rfl⟩ := clearSlot_eq_ok.1 hr
    rw [hmerge]
    unfold discardOlder
    split
    · exact .discardLeft hl hr
        (iff_of_true ((clear_after hr).2 (by simp)) not_false)
    · exact .discardRight hl hr
        (iff_of_true ((clear_after hl).2 (by simp)) not_false)

-- ===== slots that always hold a value

/-- An operation at a field or list element, which always holds a
value. -/
def slotVal (sch : Schema) (kind : SlotKind) (col : Column) (op : Op)
    (v : Value) : Except ApplyError Value :=
  slotValue (slotRun sch kind col op (some v))

section

variable (hkind : kind ≠ .dictionaryEntry)

include hkind

/-- Away from dictionaries nothing empties a slot. -/
theorem slotRun_some (op : Op) (v : Value) :
    slotRun sch kind col op (some v) = some <$> slotVal sch kind col op v := by
  unfold slotVal slotValue
  cases h : slotRun sch kind col op (some v) with
  | error e => rfl
  | ok b =>
    cases b with
    | some w => rfl
    | none =>
      exfalso
      rcases slotRun_op h with ⟨p, d, q, rfl⟩ | ⟨n, rfl⟩ | ⟨ct, rfl⟩
      · obtain ⟨y, hy, h'⟩ := bind_eq_ok.1 h
        have he : p.type = .erased := by
          by_contra he
          exact (update_ne_none (by simp) h).2 he rfl
        obtain rfl := (visit_eq_erased_iff hy).2 he
        cases kind <;> first | exact hkind rfl | cases h'
      · obtain ⟨-, ⟨-, -, h'⟩ | ⟨i, -, h', -⟩⟩ := addInteger_eq_ok h <;>
          cases h'
      · have h' : clearSlot col (some v) ct = .ok none := h
        cases (clearSlot_eq_ok.1 h').2.2.2

theorem slotRun_of_slotVal {op : Op}
    {v w : Value} (h : slotVal sch kind col op v = .ok w) :
    slotRun sch kind col op (some v) = .ok (some w) := by
  rw [slotRun_some hkind, h]
  rfl

theorem slotVal_converges_iff {x y : Op}
    {x' y' : Option Leaf} {v : Value} :
    Converges (slotVal sch kind col x)
        (runOpt (y'.map fun z => slotVal sch kind col z.op))
        (slotVal sch kind col y)
        (runOpt (x'.map fun z => slotVal sch kind col z.op)) v
      ↔ Converges (slotRun sch kind col x) (slotOpt sch kind col y')
          (slotRun sch kind col y) (slotOpt sch kind col x') (some v) := by
  have hrun : ∀ op v, slotRun sch kind col op (some v)
      = some <$> slotVal sch kind col op v := slotRun_some hkind
  exact (converges_map_iff (fun _ _ => Option.some.inj) (hrun x) (hrun y)
    (runOpt_map fun z _ => hrun z.op) (runOpt_map fun z _ => hrun z.op)).symm

end

end BarqSync
