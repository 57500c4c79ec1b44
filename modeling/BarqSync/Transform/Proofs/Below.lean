/-
An instruction at a slot and one that goes on below it. An update or a
clear either keeps the container the deeper instruction goes into, and
then changes nothing, or replaces it, and then the deeper instruction is
dropped. The exception is the creation of an embedded object in a
dictionary, which replaces the one that is there: a deeper instruction
must then leave a new object as it is (`LeavesNew`,
`nestedSlot_converges_iff`).
-/
import BarqSync.Transform.Proofs.Leaves

namespace BarqSync

open PathElement Ot

/-- An operation on what a slot holds, which must be there. -/
def optRun (f : Value → Except ApplyError Value) :
    Option Value → Except ApplyError (Option Value)
  | some c => some <$> f c
  | none => .error .keyNotFound

/-- Whether the nested rule of an operation keeps an instruction that goes
on with `next` below the same slot. -/
def keepsInner (op : Op) (next : Elem) : Bool :=
  match op with
  | .update v _ _ =>
    match v.type with
    | .objectValue => true
    | .list => Elem.isIndex next
    | .dictionary => !Elem.isIndex next
    | _ => false
  | _ => false

-- ===== new objects

section New

variable {sch : Schema} {col : Column} {op : Op} {t : Table}
  {rest : List Slot} {name : Bytes} {inner : Place} {w : Value} {r : Route}

/-- The instructions that leave a column of a new object as it is: a clear
of a collection, an erasure from one, an AddInteger to null or of zero, an
Update to the value that is there, and the creation of an object where
none is created. -/
def Idle (sch : Schema) (col : Column) : List Slot → Op → Prop
  | [], .clear type => col.collection ≠ .single
      ∧ (type = .single ∨ type = col.collection)
  | [], .setErase v => col.collection = .set
      ∧ ∃ m, setElement sch col false v = .ok m
  | [], .addInteger n => col.collection = .single
      ∧ (col.nullable = true ∨ col.type = .int ∧ n = 0)
  | [], .update v _ _ => col.collection = .single
      ∧ (col.nullable = false ∧ visitPayload sch v = .ok .objectValue
        ∨ ∃ m, visitPayload sch v = .ok (.value m)
          ∧ storeMixed col m = .ok col.initial)
  | [.key k], .update v _ _ => col.collection = .dictionary
      ∧ visitPayload sch v = .ok .erased ∧ validKey k = true
  | [.index _], .update v _ _ => col.collection = .list
      ∧ visitPayload sch v = .ok .objectValue
  | _, _ => False

/-- A single-valued column of a new object. -/
theorem initial_single (hcol : col.collection = .single) :
    ∃ m, col.initial = .mixed m ∧ (∀ t k, m ≠ .link t k)
      ∧ isNull col (some (.mixed m)) = col.nullable
      ∧ (col.nullable = false → m = col.type.zero) := by
  unfold Column.initial
  rw [hcol]
  cases hn : col.nullable with
  | true => exact ⟨.null, rfl, nofun, by simp [isNull, hn], nofun⟩
  | false =>
    refine ⟨_, rfl, ?_, ?_, fun _ => rfl⟩ <;> cases col.type <;>
      simp [isNull, DataType.zero, hn]

theorem onProperty_initial (hcol : col.collection = .single) :
    onProperty sch col col.initial op = .ok col.initial
      ↔ Idle sch col [] op := by
  obtain ⟨m, hm, hlink, hnull, hzero⟩ := initial_single hcol
  have hvalue : ∀ {x : Except ApplyError (Option Value)} {w : Value},
      slotValue x = .ok w ↔ x = .ok (some w) := by
    rintro (e | _ | v) w <;> simp [slotValue]
  cases op with
  | update v d p =>
    cases hv : visitPayload sch v with
    | error e => simp [onProperty, Idle, hv]
    | ok visit =>
      have hnew : createLinkedObject sch col ≠ .ok (.mixed m) := by
        intro h
        obtain ⟨t, -, h⟩ := createLinkedObject_eq_ok h
        cases h
      have hset : ∀ type, setCollection col (some (.mixed m)) type
          ≠ .ok (.mixed m) := by
        intro type
        unfold setCollection
        split <;> cases type <;>
          simp [emptyCollection, Value.emptyDictionary]
      have hstore : ∀ t k, storeLink col t k ≠ .ok (.mixed m) := fun t k h =>
        hlink t k (Value.mixed.inj (storeLink_eq_ok h))
      cases visit <;> simp [onProperty, Idle, hv, hcol, updateSlot,
        hvalue, map_eq_ok, hm, hnull, hnew, hset, hstore]
  | addInteger n =>
    simp only [onProperty, Idle, hnull, hcol, true_and, hm]
    cases hn : col.nullable with
    | true => simp
    | false =>
      rw [hzero hn]
      cases ht : col.type <;> simp [addInt, ht, DataType.zero]
  | clear type =>
    simp only [onProperty, Idle, clearSlot, hcol, hm, hvalue]
    cases type <;> split <;> simp [emptyCollection, Value.emptyDictionary]
  | _ => simp [onProperty, Idle, hcol]

theorem onField_initial : onField sch col col.initial op = .ok col.initial
      ↔ Idle sch col [] op := by
  cases hcol : col.collection with
  | single => simpa [onField, hcol] using onProperty_initial hcol
  | list | dictionary | set =>
    cases op <;> simp [onField, onSet, hcol, Idle, clearColumn,
      Column.initial, Value.emptySet, bind_eq_ok, setErase, setInsert,
      SortedSet.insert, SortedSet.erase, SortedSet.hit,
      SortedSet.lowerBound, SortedSet.search, or_iff_not_imp_left]

/-- Nothing is below a field of a new object. -/
theorem resolve_initial (e : Slot) :
    (∃ inner, col.fieldPlace sch = .ok inner
        ∧ resolve sch op inner col.initial (e :: rest) = .ok col.initial)
      ↔ Idle sch col (e :: rest) op := by
  cases hcol : col.collection with
  | single =>
    obtain ⟨m, hm, -⟩ := initial_single hcol
    have hleaf : ∀ inner w,
        resolve sch op inner (.mixed m) (e :: rest) ≠ .ok w := by
      intro inner w
      cases rest <;> cases inner <;>
        simp [resolve, resolveLast, child, bind_eq_ok]
    cases rest <;> cases e <;> cases op <;> simp [Idle, hcol, hm, hleaf]
  | set =>
    cases rest <;> cases e <;> cases op <;>
      simp [Idle, Column.fieldPlace, hcol]
  | list | dictionary =>
    simp only [Column.fieldPlace, Column.initial, hcol,
      Value.emptyDictionary]
    cases rest with
    | cons e' rest => cases e <;> simp [Idle, resolve, child, bind_eq_ok]
    | nil =>
      cases op with
      | update v d p =>
        rcases hv : visitPayload sch v with err | visit
        · cases e <;> simp [Idle, resolve, resolveLast, onListIndex,
            onDictionaryKey, hv]
        · cases visit <;> cases e <;> simp [Idle, resolve, resolveLast,
            onListIndex, onElement, onDictionaryKey, updateSlot, hv, hcol,
            bind_eq_ok] <;> split <;> simp [map_eq_ok]
      | arrayInsert v n =>
        cases e <;> simp [Idle, resolve, resolveLast, onListIndex,
          onDictionaryKey, bind_eq_ok] <;> split_ifs <;> simp_all [bind_eq_ok]
      | _ =>
        cases e <;> simp [Idle, resolve, resolveLast, onListIndex,
          onElement, onDictionaryKey, clearSlot, bind_eq_ok] <;>
          split <;> simp

/-- What leaves a new object as it is. -/
theorem resolve_initialFields (hcol : t.columns name = some col) :
    resolve sch op (.object t) (.object t.initialFields)
        (.key name :: rest) = .ok (.object t.initialFields)
      ↔ Idle sch col rest op := by
  have hinit : t.initialFields name = col.initial := by
    simp [Table.initialFields, hcol]
  cases rest with
  | nil =>
    rw [← onField_initial]
    simp [resolve, resolveLast, Table.column, hcol, bind_eq_ok, hinit]
  | cons e rest =>
    rw [← resolve_initial]
    simp [resolve, enter, child, withChild, Table.column, hcol, bind_eq_ok,
      hinit]

/-- A route of instructions that leave a new object as it is. -/
def LeavesNew (sch : Schema) : Place → List Slot → Op → Prop
  | .object t, .key name :: rest, op =>
    ∃ col, t.columns name = some col ∧ Idle sch col rest op
  | _, _, _ => False

theorem runRoute_new (hinner : col.inner sch = .ok inner)
    (hw : createLinkedObject sch col = .ok w) :
    runRoute sch inner (some r) w = .ok w
      ↔ LeavesNew sch inner (r.path.map slot) r.op := by
  obtain ⟨t, ht, rfl⟩ := createLinkedObject_eq_ok hw
  obtain rfl := Except.ok.inj (hinner.symm.trans ht)
  simp only [runRoute]
  rcases r.path.map slot with _ | ⟨name | i, rest⟩
  · simp [resolve, LeavesNew]
  · cases hcol : t.columns name with
    | none => cases rest <;> simp [resolve, resolveLast, enter,
        Table.column, hcol, LeavesNew]
    | some col => simp [resolve_initialFields hcol, LeavesNew, hcol]
  · cases rest <;> simp [resolve, resolveLast, enter, LeavesNew]

end New

-- ===== an instruction below a slot

section Below

variable {sch : Schema} {place inner : Place} {kind : SlotKind}
  {col : Column} {op : Op} {c d : Value} {b : Option Value} {next : Elem}
  {rest : List Elem} {op' : Op} {ls rs : Discriminant} {a v : Value}
  {f : Bool} {n : UInt32} {p : Payload Interned Buffered} {e e' : Elem}
  {g : Value → Except ApplyError Value} {k k' : Interned}

theorem mergeNestedSlot_same (hop : Op.isSlotOp op = true)
    (he : sameElement e e' = true) :
    mergeNestedSlot ⟨e, op⟩ e' next
      = .ok (⟨e, op⟩, if keepsInner op next then some e' else none) := by
  cases op with
  | update v d p =>
    simp only [mergeNestedSlot, keepsInner, he, if_true]
    cases v <;> cases next <;> rfl
  | addInteger n | clear ct => simp [mergeNestedSlot, keepsInner, he]
  | _ => cases hop

/-- Creating an embedded object at a dictionary key replaces the one that
is there, and a deeper instruction changes the new one. -/
def CreatesOver (sch : Schema) (kind : SlotKind) (inner : Place) (op : Op)
    (r : Route) : Prop :=
  kind = .dictionaryEntry
    ∧ (∃ v d p, op = .update v d p ∧ v.type = .objectValue)
    ∧ ¬LeavesNew sch inner (r.path.map slot) r.op

/-- An update that replaces what it finds, or a clear, does not see which
container of a kind it finds. -/
theorem slotRun_replaces (hcd : SameShape c d) (hp : p.type ≠ .objectValue)
    (hlist : p.type = .list → ∀ l, c ≠ .list l)
    (hdict : p.type = .dictionary → ∀ e, c ≠ .dictionary e) :
    slotRun sch kind col (.update p f n) (some d)
      = slotRun sch kind col (.update p f n) (some c) := by
  cases hv : visitPayload sch p with
  | error e => simp [slotRun, hv]
  | ok y =>
    have hrun : ∀ o, slotRun sch kind col (.update p f n) o
        = updateSlot sch kind col o y := by
      intro o
      simp [slotRun, hv]
    rw [hrun, hrun]
    cases y with
    | objectValue => exact absurd ((visit_eq_objectValue_iff hv).1 rfl) hp
    | list =>
      have := hlist ((visit_eq_list_iff hv).1 rfl)
      cases c <;> cases d <;> simp_all [SameShape, updateSlot, setCollection]
    | dictionary =>
      have := hdict ((visit_eq_dictionary_iff hv).1 rfl)
      cases c <;> cases d <;> simp_all [SameShape, updateSlot, setCollection]
    | _ => rfl

/-- An update that keeps a list or a dictionary leaves every one as it
is. -/
theorem slotRun_keeps {old : Option Value}
    (h : slotRun sch kind col (.update p f n) old = .ok b)
    (hc : (p.type = .list ∧ ∃ l, c = .list l)
      ∨ (p.type = .dictionary ∧ ∃ e, c = .dictionary e)) :
    slotRun sch kind col (.update p f n) (some c) = .ok (some c) := by
  obtain ⟨y, hy, h⟩ := bind_eq_ok.1 h
  refine bind_eq_ok.2 ⟨y, hy, ?_⟩
  rcases hc with ⟨ht, l, rfl⟩ | ⟨ht, e, rfl⟩
  · obtain rfl := (visit_eq_list_iff hy).2 ht
    exact updateSlot_list_eq_ok.2 ⟨(updateSlot_list_eq_ok.1 h).1, rfl⟩
  · obtain rfl := (visit_eq_dictionary_iff hy).2 ht
    exact updateSlot_dictionary_eq_ok.2
      ⟨(updateSlot_dictionary_eq_ok.1 h).1, rfl⟩

/-- An operation that changes nothing here converges with everything that
stays in a container of its kind. -/
theorem converges_of_noop
    {F : Option Value → Except ApplyError (Option Value)}
    (hg : g c = .ok d) (hc : F (some c) = .ok (some c))
    (hd : F (some d) = .ok (some d)) :
    Converges F (optRun g) (optRun g) F (some c) := by
  have hrun : optRun g (some c) = .ok (some d) := by simp [optRun, hg]
  exact (converges_iff hc hrun).2 ⟨some d, hrun, hd⟩

/-- Creating an object and an instruction below it. -/
theorem objectValue_converges_iff (hp : p.type = .objectValue)
    (hinner : col.inner sch = .ok inner)
    (hd : runRoute sch inner (some ⟨next :: rest, op'⟩) c = .ok d)
    (hb : slotRun sch kind col (.update p f n) (some c) = .ok b) :
    Converges (slotRun sch kind col (.update p f n))
        (optRun (runRoute sch inner (some ⟨next :: rest, op'⟩)))
        (optRun (runRoute sch inner (some ⟨next :: rest, op'⟩)))
        (slotRun sch kind col (.update p f n)) (some c)
      ↔ ¬CreatesOver sch kind inner (.update p f n)
          ⟨next :: rest, op'⟩ := by
  obtain ⟨y, hy, hb'⟩ := bind_eq_ok.1 hb
  obtain rfl := (visit_eq_objectValue_iff hy).2 hp
  have hrun : ∀ o, slotRun sch kind col (.update p f n) o
      = updateSlot sch kind col o .objectValue := by
    intro o
    simp [slotRun, hy]
  have hshape := (runRoute_shape hd).1
  by_cases hkind : kind = .dictionaryEntry
  · subst hkind
    obtain ⟨w, hw, rfl⟩ := map_eq_ok.1 hb'
    have hrun' : optRun (runRoute sch inner (some ⟨next :: rest, op'⟩)) (some c)
        = .ok (some d) := by simp [optRun, hd]
    rw [converges_iff hb hrun']
    have hagain : slotRun sch .dictionaryEntry col (.update p f n) (some d)
        = .ok (some w) := by
      rw [hrun]
      simp [updateSlot, hw]
    simp [hagain, optRun, CreatesOver, hp, map_eq_ok,
      runRoute_new hinner hw]
  · have hnoop : ∀ {c : Value}, SameShape c c →
        slotRun sch kind col (.update p f n) (some c) = .ok (some c) := by
      intro c hc
      rw [hrun]
      cases kind with
      | dictionaryEntry => exact absurd rfl hkind
      | listElement => rfl
      | property => cases c <;> first | rfl | exact hc.elim
    have hcc : SameShape c c ∧ SameShape d d := by
      cases c <;> cases d <;> simp_all [SameShape]
    exact iff_of_true (converges_of_noop hd (hnoop hcc.1) (hnoop hcc.2))
      fun h => hkind h.1

/-- Where the nested rule keeps a deeper instruction, the container it goes
into is of the kind the update creates. -/
theorem kept_container (hinner : col.inner sch = .ok inner)
    (hhead : Enters inner c next)
    (hb : slotRun sch kind col (.update p f n) (some c) = .ok b)
    (hp : p.type ≠ .objectValue)
    (hkeep : keepsInner (.update p f n) next = true) :
    (p.type = .list ∧ ∃ l, c = .list l)
      ∨ (p.type = .dictionary ∧ ∃ e, c = .dictionary e) := by
  have htype : (p.type = .list ∧ Elem.isIndex next = true)
      ∨ (p.type = .dictionary ∧ Elem.isIndex next = false) := by
    simp only [keepsInner] at hkeep
    split at hkeep <;> simp_all
  rcases htype with ⟨ht, hi⟩ | ⟨ht, hi⟩
  · obtain ⟨_, l, -, rfl, -⟩ | ⟨_, _, -, -, h⟩ | ⟨_, _, -, -, h⟩ := hhead
    · exact .inl ⟨ht, l, rfl⟩
    · simp [hi] at h
    · simp [hi] at h
  · obtain ⟨_, _, -, -, h⟩ | ⟨t, _, rfl, -⟩ | ⟨_, e, -, rfl, -⟩ := hhead
    · simp [hi] at h
    · -- A dictionary is created in a `Mixed` column, which has no objects.
      obtain ⟨y, hy, hb⟩ := bind_eq_ok.1 hb
      obtain rfl := (visit_eq_dictionary_iff hy).2 ht
      obtain ⟨hcol, -⟩ := updateSlot_dictionary_eq_ok.1 hb
      simp [Column.inner, hcol] at hinner
    · exact .inr ⟨ht, e, rfl⟩

/-- An operation at a slot and an instruction below it, as the nested rule
leaves them. -/
theorem nestedSlot_converges_iff (hop : Op.isSlotOp op = true)
    (hinner : col.inner sch = .ok inner)
    (hd : runRoute sch inner (some ⟨next :: rest, op'⟩) c = .ok d)
    (hb : slotRun sch kind col op (some c) = .ok b) :
    Converges (slotRun sch kind col op) (if keepsInner op next then
          optRun (runRoute sch inner (some ⟨next :: rest, op'⟩)) else .ok)
        (optRun (runRoute sch inner (some ⟨next :: rest, op'⟩)))
        (slotRun sch kind col op) (some c)
      ↔ ¬CreatesOver sch kind inner op ⟨next :: rest, op'⟩ := by
  obtain ⟨hshape, hhead⟩ := runRoute_shape hd
  have hrun : optRun (runRoute sch inner (some ⟨next :: rest, op'⟩)) (some c)
      = .ok (some d) := by simp [optRun, hd]
  cases op with
  | addInteger n =>
    -- There is no integer where a path goes on.
    obtain ⟨-, ⟨h, -⟩ | ⟨i, h, -⟩⟩ := addInteger_eq_ok hb <;>
      (cases h; simp [SameShape] at hshape)
  | clear ct =>
    refine iff_of_true ?_ (by simp [CreatesOver])
    exact (converges_discard_right hb hrun).2 ((clear_after hb).2 (by simp))
  | update p f n =>
    by_cases hp : p.type = .objectValue
    · have hkeep : keepsInner (.update p f n) next = true := by
        simp [keepsInner, hp]
      rw [if_pos hkeep]
      exact objectValue_converges_iff hp hinner hd hb
    have hgood : ¬CreatesOver sch kind inner (.update p f n)
        ⟨next :: rest, op'⟩ := by
      rintro ⟨-, ⟨v, d, m, h, hv⟩, -⟩
      cases h
      exact hp hv
    refine iff_of_true ?_ hgood
    by_cases hkeep : keepsInner (.update p f n) next = true
    · -- The container is of the kind the update creates, so it stays.
      rw [if_pos hkeep]
      have hkind : (p.type = .list ∧ ∃ l, c = .list l)
          ∨ (p.type = .dictionary ∧ ∃ e, c = .dictionary e) :=
        kept_container hinner hhead hb hp hkeep
      refine converges_of_noop hd (slotRun_keeps hb hkind)
        (slotRun_keeps hb ?_)
      rcases hkind with ⟨ht, l, rfl⟩ | ⟨ht, e, rfl⟩
      · cases d <;> simp_all [SameShape]
      · cases d <;> simp_all [SameShape]
    · rw [if_neg hkeep]
      refine (converges_discard_right hb hrun).2 ?_
      rw [slotRun_replaces hshape hp, hb]
      · rintro hl l rfl
        obtain ⟨_, _, _, -, hi⟩ | ⟨_, _, -, h, -⟩ | ⟨_, _, -, h, -⟩ := hhead
        · simp [keepsInner, hl, hi] at hkeep
        · cases h
        · cases h
      · rintro hl e rfl
        obtain ⟨_, _, -, h, -⟩ | ⟨_, _, -, h, -⟩ | ⟨_, _, -, -, hi⟩ := hhead
        · cases h
        · cases h
        · simp [keepsInner, hl, hi] at hkeep
  | _ => cases hop

/-- The square inside a part that always holds a value is the square of
the slot. -/
theorem nested_modify_iff {L : PartialLens ApplyError Value Value}
    {outer : Value → Except ApplyError Value} {keep : Bool}
    (hkind : kind ≠ .dictionaryEntry)
    (houter : ∀ v' c', L.get v' = .ok c' →
      outer v' = L.modify (slotVal sch kind col op) v')
    (hc : L.get v = .ok c) :
    Converges outer (if keep then L.modify g else .ok) (L.modify g) outer v
      ↔ Converges (slotRun sch kind col op) (if keep then optRun g else .ok)
          (optRun g) (slotRun sch kind col op) (some c) := by
  have hsome : Converges (slotRun sch kind col op)
        (if keep then optRun g else .ok) (optRun g) (slotRun sch kind col op)
        (some c)
      ↔ Converges (slotVal sch kind col op) (if keep then g else .ok) g
        (slotVal sch kind col op) c :=
    converges_map_iff (fun _ _ => Option.some.inj) (slotRun_some hkind op)
      (fun _ => rfl) (slotRun_some hkind op) (by intro a; cases keep <;> rfl)
  have hopt : (if keep then g else .ok)
      = runOpt (if keep then some g else none) := by cases keep <;> rfl
  rw [hsome, hopt, ← runOpt_some (slotVal sch kind col op),
    ← PartialLens.converges_modify_opt_iff hc, Option.map_some, runOpt_some,
    runOpt_some]
  apply converges_congr (houter v c hc) rfl
  · intro w _
    cases keep <;> rfl
  · intro w hw
    obtain ⟨c', hc'⟩ := PartialLens.get_of_modify hw
    exact houter w c' hc'

/-- Creating an object over one that an instruction goes into, at the
place where the two meet. -/
def NestedClash (sch : Schema) (place : Place) (v : Value) (op : Op)
    (r : Route) : Prop :=
  match place, v with
  | .collection col, .dictionary _ =>
    ∃ inner, col.inner sch = .ok inner
      ∧ CreatesOver sch .dictionaryEntry inner op r
  | _, _ => False

section

variable (hop : Op.isSlotOp op = true)

include hop

/-- The nested rule at a slot, from the square it leaves. -/
theorem routesTp1_nested (he : e.slot = e'.slot)
    (hinner : enter sch place e'.slot = .ok inner) :
    RoutesTp1 sch place ls rs ⟨[e], op⟩ ⟨e' :: next :: rest, op'⟩ v
      ↔ Converges (leafAt sch place (some ⟨e, op⟩))
          (if keepsInner op next then (childLens place e'.slot).modify
            (runRoute sch inner (some ⟨next :: rest, op'⟩)) else .ok)
          ((childLens place e'.slot).modify
            (runRoute sch inner (some ⟨next :: rest, op'⟩)))
          (leafAt sch place (some ⟨e, op⟩)) v := by
  have hmerge : mergeRoutes ls rs ⟨[e], op⟩ ⟨e' :: next :: rest, op'⟩
      = .ok (some ⟨[e], op⟩, if keepsInner op next then
          some ⟨e' :: next :: rest, op'⟩ else none) := by
    rw [mergeRoutes_leaf_deep, mergeNestedSlot_same hop (sameElement_iff.2 he)]
    cases keepsInner op next <;> rfl
  have hrun : runRoute sch place (some ⟨e' :: next :: rest, op'⟩)
      = (childLens place e'.slot).modify
          (runRoute sch inner (some ⟨next :: rest, op'⟩)) :=
    runRoute_cons hinner (r := ⟨next :: rest, op'⟩) (by simp)
  unfold RoutesTp1
  rw [hmerge]
  have hkept : runRoute sch place (if keepsInner op next then
        some ⟨e' :: next :: rest, op'⟩ else none)
      = if keepsInner op next then (childLens place e'.slot).modify
          (runRoute sch inner (some ⟨next :: rest, op'⟩)) else .ok := by
    split
    · exact hrun
    · rfl
  rw [← hkept, ← hrun]
  constructor
  · rintro ⟨l', r', h, hconv⟩
    cases h
    exact hconv
  · exact fun hconv => ⟨_, _, rfl, hconv⟩

/-- Below a field. -/
theorem nestedTp1_field {t : Table} {f : Bytes → Value} {b : Value} (hk : k.data = k'.data)
    (hx : leafAt sch (.object t) (some ⟨.key k, op⟩) (.object f) = .ok a)
    (hy : runRoute sch (.object t) (some ⟨.key k' :: next :: rest, op'⟩)
      (.object f) = .ok b) :
    RoutesTp1 sch (.object t) ls rs ⟨[.key k], op⟩
      ⟨.key k' :: next :: rest, op'⟩ (.object f) := by
  obtain ⟨inner, c, d, henter, hc, hd, -⟩ := runRoute_cons_eq_ok
    (r := ⟨next :: rest, op'⟩) (e := .key k') (by simp) hy
  rw [routesTp1_nested hop (by simp [slot, hk]) henter]
  obtain ⟨col, hcol, hplace⟩ := bind_eq_ok.1 henter
  replace hcol := Table.column_eq_ok.1 hcol
  have houter : leafAt sch (.object t) (some ⟨.key k, op⟩)
      = (childLens (.object t) (.key k'.data)).modify
          (fun c => onField sch col c op) := by
    rw [fieldRun (hk ▸ hcol), hk]
  rw [houter] at hx ⊢
  obtain ⟨c', w, hc', hw, rfl⟩ := PartialLens.modify_eq_ok.1 hx
  cases hc.symm.trans hc'
  by_cases hsingle : col.collection = .single
  · simp only [onField, hsingle, onProperty_eq] at hw ⊢
    rw [Column.fieldPlace, hsingle] at hplace
    have hslot := (nestedSlot_converges_iff hop hplace hd
      (slotRun_of_slotVal (by simp) hw)).2 fun h => by cases h.1
    exact (nested_modify_iff (by simp) (fun _ _ _ => rfl) hc).2 hslot
  · obtain ⟨⟨ct, rfl⟩, hconst⟩ := clear_of_collection_column hop hsingle hw
    have hover : (childLens (.object t) (.key k'.data)).modify
        (runRoute sch inner (some ⟨next :: rest, op'⟩)) (.object f)
          = .ok (withChild (.object t) (.object f) (.key k'.data) d) :=
      PartialLens.modify_eq_ok.2 ⟨c, d, hc, hd, rfl⟩
    have hget : (childLens (.object t) (.key k'.data)).get (.object f)
        = .ok c := hc
    exact (converges_discard_right hx hover).2
      ((PartialLens.modify_put hget).2 ⟨w, hconst d, rfl⟩)

/-- Below an element of a list. -/
theorem nestedTp1_element {i : UInt32} {l : List Value} {b : Value}
    (hx : leafAt sch (.collection col) (some ⟨.index i, op⟩) (.list l)
      = .ok a) (hy : runRoute sch (.collection col)
      (some ⟨.index i :: next :: rest, op'⟩) (.list l) = .ok b) :
    RoutesTp1 sch (.collection col) ls rs ⟨[.index i], op⟩
      ⟨.index i :: next :: rest, op'⟩ (.list l) := by
  obtain ⟨inner, c, d, henter, hc, hd, -⟩ := runRoute_cons_eq_ok
    (r := ⟨next :: rest, op'⟩) (e := .index i) (by simp) hy
  rw [routesTp1_nested hop rfl henter]
  have houter : ∀ v' c', (childLens (.collection col) (.index i.toNat)).get v'
      = .ok c' → leafAt sch (.collection col) (some ⟨.index i, op⟩) v'
        = (childLens (.collection col) (.index i.toNat)).modify
            (slotVal sch .listElement col op) v' := fun _ _ =>
    elementRun_eq_modify (Op.isArrayOp_of_isSlotOp hop)
  have hget : (childLens (.collection col) (.index i.toNat)).get (.list l)
      = .ok c := hc
  have hw := (houter _ _ hget).symm.trans hx
  obtain ⟨c', w, hc', hw, -⟩ := PartialLens.modify_eq_ok.1 hw
  cases hget.symm.trans hc'
  have hslot := (nestedSlot_converges_iff hop henter hd
    (slotRun_of_slotVal (by simp) hw)).2 fun h => by cases h.1
  exact (nested_modify_iff (by simp) houter hget).2 hslot

/-- Below an entry of a dictionary. -/
theorem nestedTp1_entry_iff {e : Bytes → Option Value} {b : Value} (hk : k.data = k'.data)
    (hx : leafAt sch (.collection col) (some ⟨.key k, op⟩) (.dictionary e)
      = .ok a) (hy : runRoute sch (.collection col)
      (some ⟨.key k' :: next :: rest, op'⟩) (.dictionary e) = .ok b) :
    RoutesTp1 sch (.collection col) ls rs ⟨[.key k], op⟩
        ⟨.key k' :: next :: rest, op'⟩ (.dictionary e)
      ↔ ¬NestedClash sch (.collection col) (.dictionary e) op
          ⟨next :: rest, op'⟩ := by
  obtain ⟨inner, c, d, henter, hc, hd, -⟩ := runRoute_cons_eq_ok
    (r := ⟨next :: rest, op'⟩) (e := .key k') (by simp) hy
  have henter' : col.inner sch = .ok inner := henter
  rw [routesTp1_nested hop (by simp [slot, hk]) henter]
  have hentry : e k'.data = some c := child_key_eq_ok.1 hc
  -- The entry as a slot, and the deeper instruction as one of the slot.
  have hkey : validKey k'.data = true := by
    rw [entryRun] at hx
    obtain ⟨_, w, -, hw, -⟩ := PartialLens.modify_eq_ok.1 hx
    exact hk ▸ validKey_of_ok hw
  have houter : leafAt sch (.collection col) (some ⟨.key k, op⟩)
      = (entryLens k'.data).modify (slotRun sch .dictionaryEntry col op) :=
    entryRun_eq_modify hkey hk.symm
  have hdeep : ∀ g : Value → Except ApplyError Value,
      (childLens (.collection col) (key k').slot).modify g
        = (entryLens k'.data).modify (optRun g) := by
    intro g
    funext v
    cases v with
    | dictionary m =>
      simp only [PartialLens.modify, childLens, child, entryLens, ok_bind,
        slot, optRun]
      cases m k'.data with
      | none => rfl
      | some c => simp only [ok_bind]; cases g c <;> rfl
    | _ => rfl
  rw [houter] at hx ⊢
  obtain ⟨_, w, ⟨⟩, hw, -⟩ := PartialLens.modify_eq_ok.1 hx
  simp only [hentry] at hw
  rw [hdeep]
  have hslot := nestedSlot_converges_iff hop henter' hd hw
  have hget : (entryLens k'.data).get (.dictionary e) = .ok (some c) := by
    simp [entryLens, hentry]
  have hclash : NestedClash sch (.collection col) (.dictionary e) op
      ⟨next :: rest, op'⟩
        ↔ CreatesOver sch .dictionaryEntry inner op ⟨next :: rest, op'⟩ := by
    simp [NestedClash, henter']
  rw [hclash, ← hslot, ← PartialLens.converges_modify_iff hget]
  apply converges_congr rfl rfl
  · intro w hw
    cases keepsInner op next with
    | true => rfl
    | false =>
      obtain ⟨o, ho⟩ := PartialLens.get_of_modify hw
      exact (PartialLens.modify_ok ho).symm
  · exact fun _ _ => rfl

/-- An operation at a slot of any kind against an instruction below it. -/
theorem nestedRoutesTp1_iff {b : Value} (he : e.slot = e'.slot)
    (hx : leafAt sch place (some ⟨e, op⟩) v = .ok a)
    (hy : runRoute sch place (some ⟨e' :: next :: rest, op'⟩) v = .ok b) :
    RoutesTp1 sch place ls rs ⟨[e], op⟩ ⟨e' :: next :: rest, op'⟩ v
      ↔ ¬NestedClash sch place v op ⟨next :: rest, op'⟩ := by
  cases slotsOf hx hy with
  | field k k' =>
    have hk : k.data = k'.data := by simpa [slot] using he
    exact iff_of_true (nestedTp1_field hop hk hx hy) not_false
  | entry k k' =>
    exact nestedTp1_entry_iff hop (by simpa [slot] using he) hx hy
  | element i j =>
    obtain rfl : i = j := UInt32.toNat_inj.1 (by simpa [slot] using he)
    exact iff_of_true (nestedTp1_element hop hx hy) not_false

end

end Below

end BarqSync
