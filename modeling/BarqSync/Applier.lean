/-
The instruction applier (`sync/instruction_applier.cpp`): what executing
one instruction does to the state, and when it is refused.

# Shape

`resolve` walks an instruction's path from the object down, the way
`PathResolver::resolve_field`, `resolve_list_element` and
`resolve_dictionary_element` call one another, and hands the last
element to the leaf handler of the container it ends in: `onField`,
`onListIndex` or `onDictionaryKey`. A leaf handler is the source's
`on_…` override of the instruction's own resolver.

# Slots

`Update` and `Clear` do nearly the same at a field, at a list index and
at a dictionary key. `updateSlot` and `clearSlot` say it once, with the
kind of slot as a parameter; the places where the three differ (a new
embedded object at a dictionary key REPLACES the old one, erasing is for
dictionary entries only) are its case splits.

# Errors

Every refusal of the source (`bad_transaction_log`, an exception of the
core library, a failed assertion) is an `ApplyError`. So is the one
instruction that is carried out and leaves a file no state describes, the
move of a nested collection (`freedCollection`). Schema instructions are
not executed here: the schema is fixed.
-/
import BarqSync.Compare

namespace BarqSync

/-- Why the applier refused an instruction. -/
inductive ApplyError
  | noSuchTable
  | primaryKeyMismatch
  | noSuchObject
  | noSuchField
  | invalidPath
  | linkTargetMissing
  | linkToEmbedded
  | targetTableMismatch
  | typeMismatch
  | nullInNonNullable
  | notEmbeddedLink
  | dictionaryErase
  | notMixed
  | nestedSet
  | invalidKey
  | keyNotFound
  | notAnInteger
  | indexOutOfBounds
  | invalidPriorSize
  | moveToSameLocation
  | freedCollection
  | collectionTypeMismatch
  | collectionTypeMissing
  | schemaInstruction
deriving DecidableEq, Repr

/-- `InstructionApplier::get_object_key`: the type checks a primary key
passes before it is looked up. -/
def checkKey (t : Table) (key : PrimaryKey Bytes) :
    Except ApplyError Unit :=
  match key, t.pk with
  | .globalKey _, none => .ok ()
  | .null, some pk =>
    if pk.nullable then .ok () else .error .primaryKeyMismatch
  | .int _, some pk =>
    if pk.type = .int then .ok () else .error .primaryKeyMismatch
  | .string _, some pk =>
    if pk.type = .string then .ok () else .error .primaryKeyMismatch
  | .objectId _, some pk =>
    if pk.type = .objectId then .ok () else .error .primaryKeyMismatch
  | .uuid _, some pk =>
    if pk.type = .uuid then .ok () else .error .primaryKeyMismatch
  | _, _ => .error .primaryKeyMismatch

-- ===== payloads

/-- What `visit_payload` passes to the visitor. -/
inductive Visit
  | link (table : Bytes) (key : PrimaryKey Bytes)
  | value (m : Mixed)
  | objectValue
  | dictionary
  | list
  | set
  | erased
deriving DecidableEq, Repr

variable (sch : Schema) (col : Column)

/-- `InstructionApplier::visit_payload`: a payload with its references
resolved; a link's target table must exist and not be embedded. -/
def visitPayload : Payload Interned Buffered → Except ApplyError Visit
  | .objectValue => .ok .objectValue
  | .set => .ok .set
  | .list => .ok .list
  | .dictionary => .ok .dictionary
  | .erased => .ok .erased
  | .globalKey _ => .ok (.value .null)
  | .null => .ok (.value .null)
  | .int i => .ok (.value (.int i))
  | .bool b => .ok (.value (.bool b))
  | .string s => .ok (.value (.string s.data))
  | .binary s => .ok (.value (.binary s.data))
  | .timestamp t => .ok (.value (.timestamp t))
  | .float f => .ok (.value (.float f))
  | .double d => .ok (.value (.double d))
  | .decimal d => .ok (.value (.decimal d))
  | .link table target =>
    match sch.tables table.data with
    | none => .error .linkTargetMissing
    | some t =>
      if t.embedded then .error .linkToEmbedded
      else do
        checkKey t target.resolve
        .ok (.link table.data target.resolve)
  | .objectId b => .ok (.value (.objectId b))
  | .uuid b => .ok (.value (.uuid b))

/-- A link stored in a column: any link in a `Mixed` or typed link
column, a link to the column's own target in a link column. -/
def storeLink (table : Bytes) (key : PrimaryKey Bytes) :
    Except ApplyError Value :=
  match col.type with
  | .mixed => .ok (.mixed (.link table key))
  | .typedLink => .ok (.mixed (.link table key))
  | .link =>
    if table = col.target then .ok (.mixed (.link table key))
    else .error .targetTableMismatch
  | _ => .error .typeMismatch

/-- A scalar stored in a column: null needs a nullable column, anything
else a `Mixed` column or one of its own type. -/
def storeMixed (m : Mixed) : Except ApplyError Value :=
  match m.type? with
  | none =>
    if col.nullable then .ok (.mixed m) else .error .nullInNonNullable
  | some t =>
    if col.type = .mixed ∨ t = col.type then .ok (.mixed m)
    else .error .typeMismatch

/-- `create_linked_object`: a new embedded object of the column's target
table. -/
def createLinkedObject : Except ApplyError Value :=
  match col.type, sch.tables col.target with
  | .link, some t =>
    if t.embedded then .ok (.object t.initialFields)
    else .error .notEmbeddedLink
  | _, _ => .error .notEmbeddedLink

/-- The empty collection of a type, where a nested one may be put. -/
def emptyCollection : CollectionType → Except ApplyError Value
  | .list => .ok (.list [])
  | .dictionary => .ok .emptyDictionary
  | .set => .error .nestedSet
  | .single => .error .collectionTypeMissing

/-- `set_collection` and `insert_collection`: only in `Mixed`, and a
value that already is a collection of the type stays as it is. -/
def setCollection (old : Option Value)
    (type : CollectionType) : Except ApplyError Value :=
  if col.type = .mixed then
    match type, old with
    | .list, some (.list l) => .ok (.list l)
    | .dictionary, some (.dictionary d) => .ok (.dictionary d)
    | _, _ => emptyCollection type
  else .error .notMixed

-- ===== slots

/-- Where in a container an update lands. -/
inductive SlotKind
  | property
  | listElement
  | dictionaryEntry
deriving DecidableEq, Repr

/-- `Obj::is_null`. -/
def isNull : Option Value → Bool
  | some (.mixed .null) => col.nullable
  | _ => false

/-- `Update` at a slot that holds `old` (nothing, for an absent
dictionary key). -/
def updateSlot (kind : SlotKind) (col : Column)
    (old : Option Value) : Visit → Except ApplyError (Option Value)
  | .link table key => some <$> storeLink col table key
  | .value m => some <$> storeMixed col m
  | .objectValue =>
    match kind with
    | .property =>
      if isNull col old then some <$> createLinkedObject sch col
      else .ok old
    -- Link lists cannot contain nulls: creation is a no-op there.
    | .listElement => .ok old
    | .dictionaryEntry => some <$> createLinkedObject sch col
  | .erased =>
    match kind with
    | .dictionaryEntry => .ok none
    | _ => .error .dictionaryErase
  | .dictionary => some <$> setCollection col old .dictionary
  | .list => some <$> setCollection col old .list
  | .set => .error .nestedSet

/-- `Clear` at a slot: empty the collection in it and make it one of the
given type, whatever it held. -/
def clearSlot (old : Option Value)
    (type : CollectionType) : Except ApplyError (Option Value) :=
  match old with
  | none => .error .keyNotFound
  | some _ =>
    if col.type = .mixed then some <$> emptyCollection type
    else .error .invalidPath

-- ===== leaf handlers

/-- `Obj::add_int`, wrapping, on a field that is not null. -/
def addInt (v : Value) (n : Int64) : Except ApplyError Value :=
  match v with
  | .mixed (.int i) =>
    if col.type = .int ∨ col.type = .mixed then .ok (.mixed (.int (i + n)))
    else .error .notAnInteger
  | _ => .error .notAnInteger

/-- A slot that always holds something. -/
def slotValue (slot : Except ApplyError (Option Value)) :
    Except ApplyError Value := do
  match ← slot with
  | some v => .ok v
  | none => .error .dictionaryErase

/-- `on_property`: the last path element is a single-valued field. -/
def onProperty (v : Value) :
    PathOp Interned Buffered → Except ApplyError Value
  | .update value _ _ => do
      slotValue (updateSlot sch .property col (some v)
        (← visitPayload sch value))
  | .addInteger n => if isNull col (some v) then .ok v else addInt col v n
  | .clear type => slotValue (clearSlot col (some v) type)
  | _ => .error .invalidPath

/-- `Clear` of a list, dictionary or set column: the type it carries, if
any, must be the column's. -/
def clearColumn (expected : CollectionType) (empty : Value)
    (type : CollectionType) : Except ApplyError Value :=
  if type = .single ∨ type = expected then .ok empty
  else .error .collectionTypeMismatch

/-- The value `SetInsert` and `SetErase` name, if it can be in the set.
`eraseNull` is whether null passes the type check: the source's erase
asks a null for its type. -/
def setElement (eraseNull : Bool)
    (value : Payload Interned Buffered) : Except ApplyError Mixed := do
  match ← visitPayload sch value with
  | .link table key =>
    match col.type with
    | .mixed => .ok (.link table key)
    | .typedLink => .ok (.link table key)
    | .link =>
      if table = col.target then .ok (.link table key)
      else .error .targetTableMismatch
    | _ => .error .typeMismatch
  | .value m =>
    match m.type? with
    | none =>
      if ¬col.nullable then .error .nullInNonNullable
      else if col.type = .mixed ∨ eraseNull then .ok m
      else .error .typeMismatch
    | some t =>
      if col.type = .mixed ∨ t = col.type then .ok m
      else .error .typeMismatch
  | _ => .error .typeMismatch

/-- `Set<T>::insert`. -/
def setInsert (s : List Mixed) (m : Mixed) : List Mixed :=
  Ot.SortedSet.insert (elementLess sch.objLink col.type)
    (elementEqual sch.objLink col.type) s m

/-- `Set<T>::erase`. -/
def setErase (s : List Mixed) (m : Mixed) : List Mixed :=
  Ot.SortedSet.erase (elementLess sch.objLink col.type)
    (elementEqual sch.objLink col.type) s m

/-- `on_set`: the last path element is a set column. -/
def onSet (v : Value) : PathOp Interned Buffered → Except ApplyError Value
  | .clear type => clearColumn .set .emptySet type
  | .setInsert value =>
    match v with
    | .set s => do
        let m ← setElement sch col true value
        .ok (.set (setInsert sch col s m))
    | _ => .error .invalidPath
  | .setErase value =>
    match v with
    | .set s => do
        let m ← setElement sch col false value
        .ok (.set (setErase sch col s m))
    | _ => .error .invalidPath
  | _ => .error .invalidPath

/-- The last path element is a field: `on_list`, `on_dictionary`,
`on_set` or `on_property` by what kind of column it is. -/
def onField (v : Value)
    (op : PathOp Interned Buffered) : Except ApplyError Value :=
  match col.collection with
  | .list =>
    match op with
    | .clear type => clearColumn .list (.list []) type
    | _ => .error .invalidPath
  | .dictionary =>
    match op with
    | .clear type => clearColumn .dictionary .emptyDictionary type
    | _ => .error .invalidPath
  | .set => onSet sch col v op
  | .single => onProperty sch col v op

/-- What `ArrayInsert` puts into a list. -/
def insertElement : Visit → Except ApplyError Value
  | .link table key => storeLink col table key
  | .value m =>
    if col.type = .mixed then .ok (.mixed m) else storeMixed col m
  | .objectValue => createLinkedObject sch col
  | .dictionary => setCollection col none .dictionary
  | .list => setCollection col none .list
  | .set => .error .nestedSet
  | .erased => .error .dictionaryErase

/-- A slot of a list, rewritten by `f`. -/
def onElement (l : List Value) (ndx : Nat)
    (f : Option Value → Except ApplyError (Option Value)) :
    Except ApplyError (List Value) :=
  match l[ndx]? with
  | none => .error .indexOutOfBounds
  | some v => do
      let w ← slotValue (f (some v))
      .ok (l.set ndx w)

/-- A collection nested in a `Mixed`. -/
def Value.nested : Value → Bool
  | .list _ => true
  | .dictionary _ => true
  | _ => false

/-- The element is a nested collection. -/
def nestedAt (l : List Value) (ndx : Nat) : Bool :=
  (l[ndx]?).any Value.nested

/-- `on_list_index`: the last path element is a list index. -/
def onListIndex (l : List Value)
    (ndx : Nat) : PathOp Interned Buffered → Except ApplyError (List Value)
  | .update value _ _ => do
      match ← visitPayload sch value with
      -- The list is not even looked at.
      | .objectValue => .ok l
      | visit => onElement l ndx fun old => updateSlot sch .listElement col old visit
  | .arrayInsert value priorSize =>
    if ndx > priorSize.toNat then .error .indexOutOfBounds
    else if ndx > l.length then .error .indexOutOfBounds
    else if priorSize.toNat ≠ l.length then .error .invalidPriorSize
    else do
      let v ← insertElement sch col (← visitPayload sch value)
      .ok (l.insertIdx ndx v)
  | .arrayMove ndx2 priorSize =>
    if ndx ≥ l.length then .error .indexOutOfBounds
    else if ndx2.toNat ≥ l.length then .error .indexOutOfBounds
    else if ndx = ndx2.toNat then .error .moveToSameLocation
    else if priorSize.toNat ≠ l.length then .error .invalidPriorSize
    -- `Lst<Mixed>::move` puts a null over the element before it stores it
    -- in its new place. A nested collection loses its key by that, and its
    -- arrays are freed; what is stored is the ref to them.
    else if nestedAt l ndx then .error .freedCollection
    else .ok (Ot.moveIdx l ndx ndx2.toNat)
  | .arrayErase priorSize =>
    if ndx ≥ priorSize.toNat then .error .indexOutOfBounds
    else if ndx ≥ l.length then .error .indexOutOfBounds
    else if priorSize.toNat ≠ l.length then .error .invalidPriorSize
    else .ok (l.eraseIdx ndx)
  | .clear type => onElement l ndx fun old => clearSlot col old type
  | _ => .error .invalidPath

/-- `validate_key_value`: a dictionary key may not start with `$` or
contain a dot. -/
def validKey (key : Bytes) : Bool :=
  key.head? != some 0x24 && !key.contains 0x2e

/-- `on_dictionary_key`: the last path element is a dictionary key. -/
def onDictionaryKey (key : Bytes) (old : Option Value) :
    PathOp Interned Buffered → Except ApplyError (Option Value)
  | .update value _ _ => do
      let visit ← visitPayload sch value
      if validKey key then updateSlot sch .dictionaryEntry col old visit
      else .error .invalidKey
  | .clear type =>
    if validKey key then clearSlot col old type else .error .invalidKey
  | _ => .error .invalidPath

-- ===== resolution

/-- Where the resolver stands: in an object of a table, or in a list or
dictionary that belongs to a column. -/
inductive Place
  | object (table : Table)
  | collection (col : Column)

/-- Where an element of a column's collection leads: a nested collection
in a `Mixed` column, an embedded object in a link column. -/
def Column.inner : Except ApplyError Place :=
  match col.type with
  | .mixed => .ok (.collection col)
  | .link =>
    match sch.tables col.target with
    | some t => if t.embedded then .ok (.object t) else .error .invalidPath
    | none => .error .invalidPath
  | _ => .error .invalidPath

/-- Where a field leads when the path goes on. -/
def Column.fieldPlace : Except ApplyError Place :=
  match col.collection with
  | .list => .ok (.collection col)
  | .dictionary => .ok (.collection col)
  | .set => .error .invalidPath
  | .single => col.inner sch

/-- A column by name. -/
def Table.column (t : Table) (name : Bytes) : Except ApplyError Column :=
  match t.columns name with
  | some col => .ok col
  | none => .error .noSuchField

/-- Where a path element leads when the path goes on. -/
def enter : Place → Slot → Except ApplyError Place
  | .object t, .key k => do
      let col ← t.column k
      col.fieldPlace sch
  | .object _, .index _ => .error .invalidPath
  | .collection col, _ => col.inner sch

/-- What a path element names in a container: a field of an object, an
element of a list, an entry of a dictionary. -/
def child : Place → Value → Slot → Except ApplyError Value
  | .object _, .object f, .key k => .ok (f k)
  | .collection _, .list l, .index i =>
    match l[i]? with
    | some c => .ok c
    | none => .error .indexOutOfBounds
  | .collection _, .dictionary d, .key k =>
    match d k with
    | some c => .ok c
    | none => .error .keyNotFound
  | _, _, _ => .error .invalidPath

/-- The container with what a path element names replaced. -/
def withChild : Place → Value → Slot → Value → Value
  | .object _, .object f, .key k, w => .object (Function.update f k w)
  | .collection _, .list l, .index i, w => .list (l.set i w)
  | .collection _, .dictionary d, .key k, w =>
    .dictionary (Function.update d k (some w))
  | _, v, _, _ => v

/-- Execute the operation at the last path element. -/
def resolveLast (op : PathOp Interned Buffered) :
    Place → Value → Slot → Except ApplyError Value
  | .object t, .object f, .key k => do
      let col ← t.column k
      let w ← onField sch col (f k) op
      .ok (.object (Function.update f k w))
  | .collection col, .list l, .index i => do
      let l' ← onListIndex sch col l i op
      .ok (.list l')
  | .collection col, .dictionary d, .key k => do
      let w ← onDictionaryKey sch col k (d k) op
      .ok (.dictionary (Function.update d k w))
  | _, _, _ => .error .invalidPath

/-- `PathResolver::resolve_field`, `resolve_list_element` and
`resolve_dictionary_element`: follow the path into the container and
execute the operation at its last element. -/
def resolve (sch : Schema) (op : PathOp Interned Buffered) (place : Place)
    (v : Value) : List Slot → Except ApplyError Value
  | [] => .error .invalidPath
  | [e] => resolveLast sch op place v e
  | e :: e' :: rest => do
      let inner ← enter sch place e
      let c ← child place v e
      let w ← resolve sch op inner c (e' :: rest)
      .ok (withChild place v e w)

-- ===== instructions

/-- The object an instruction names. -/
def objectRef (table : Interned) (object : PrimaryKey Interned) :
    ObjectRef :=
  (table.data, object.resolve)

/-- The field and the path of a path instruction, as one list. -/
def PathInstruction.fullPath {ρ : Type} (p : PathInstruction Interned ρ) :
    List (PathElement Interned) :=
  .key p.field :: p.path

/-- `get_table` and `get_object_key`: the table of an object
instruction, its primary key checked. -/
def objectTable (ref : ObjectRef) : Except ApplyError Table :=
  match sch.tables ref.1 with
  | none => .error .noSuchTable
  | some t => do
      checkKey t ref.2
      .ok t

/-- `PathResolver::resolve`: a path instruction on the object it names,
which must exist. -/
def applyPath (s : State)
    (p : PathInstruction Interned Buffered) : Except ApplyError State := do
  let ref := objectRef p.table p.object
  let t ← objectTable sch ref
  match s ref with
  | none => .error .noSuchObject
  | some v =>
    let w ← resolve sch p.op (.object t) v
      (p.fullPath.map PathElement.slot)
    .ok (Function.update s ref (some w))

/-- `InstructionApplier::operator()`: one instruction on the state.
Creating an object that exists and erasing one that does not change
nothing. -/
def applyInstr (s : State) : Instr → Except ApplyError State
  | .createObject table object => do
      let ref := objectRef table object
      let t ← objectTable sch ref
      if t.embedded then .error .primaryKeyMismatch
      else
        match s ref with
        | some _ => .ok s
        | none => .ok (Function.update s ref (some (t.newObject ref.2)))
  | .eraseObject table object => do
      let ref := objectRef table object
      let _ ← objectTable sch ref
      .ok (Function.update s ref none)
  | .path p => applyPath sch s p
  | _ => .error .schemaInstruction

end BarqSync
