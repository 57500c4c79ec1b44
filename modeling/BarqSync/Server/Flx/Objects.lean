/-
What the flexible sync server reads from a snapshot of its file: tables,
objects and their values, and the strings it names objects by
(the free functions `flx_*` of `noinst/server/server.cpp`).

# Values and links

A stored link names its target by table and primary key. It is resolved
while the target exists; the target's erasure leaves a tombstone behind,
and the getters of the source hide the link then: a single link, a list
item or a dictionary entry reads as null, and an item of a link list or
link set is not there. `read` is what the getters return. A set of
`Mixed` has no such filter.

# Bootstrappable columns

Not every column is sent or restored. Which columns are is decided by
their type (`flxColumnCanBootstrapValue`) and, for `Mixed`, by what they
hold at the moment (`flxColumnCurrentValueCanBootstrap`).
-/
import BarqSync.State
import Mathlib.Data.Nat.Digits.Defs

namespace BarqSync.Flx

-- ===== tables

/-- A column of a table. `target` is the name of the table a link column
links to and `keyType` the key type of a dictionary column. -/
structure FlxColumn where
  type : DataType
  nullable : Bool
  collection : CollectionType
  target : Bytes
  keyType : DataType
deriving DecidableEq, Repr

/-- A table, its columns in the order of `get_column_keys`. -/
structure FlxTable where
  embedded : Bool
  asymmetric : Bool
  /-- The name of the primary key column. -/
  pk : Option Bytes
  columns : List (Bytes × FlxColumn)
deriving DecidableEq, Repr

/-- The value of a column, of a list item or of a dictionary entry. A
list or dictionary inside a `Mixed` is a nested collection. -/
inductive FlxValue
  | mixed (m : Mixed)
  | object (fields : List (Bytes × FlxValue))
  | list (elems : List FlxValue)
  | dictionary (entries : List (Bytes × FlxValue))
  | set (elems : List Mixed)

/-- The columns of an object with their values, in column order. -/
abbrev FlxFields := List (Bytes × FlxValue)

/-- A snapshot of the server file. Tables are named as in the file, with
the `class_` in front; `objects` is what a loop over a table sees. -/
structure FlxDb where
  tables : List (Bytes × FlxTable)
  objects : List (ObjectRef × FlxFields)

variable (db : FlxDb) (col : FlxColumn) (ref : ObjectRef)

/-- `get_table`. -/
def FlxDb.getTable (name : Bytes) : Option FlxTable :=
  db.tables.lookup name

/-- The stored columns of an object. -/
def FlxDb.stored : Option FlxFields :=
  db.objects.lookup ref

/-- The object exists: it is no tombstone. -/
def FlxDb.has : Bool :=
  (db.stored ref).isSome

/-- The contents of a string literal. -/
def bytes (s : List Char) : Bytes := s.map fun c => c.toNat.toUInt8

/-- `g_class_name_prefix`. -/
def classPrefix : Bytes := bytes ['c', 'l', 'a', 's', 's', '_']

/-- `Group::table_name_to_class_name`. -/
def tableNameToClassName (table : Bytes) : Bytes :=
  if classPrefix.isPrefixOf table then table.drop classPrefix.length
  else table

/-- `Group::class_name_to_table_name`; a class name has at most 57
bytes. -/
def classNameToTableName (cls : Bytes) : Bytes :=
  classPrefix ++ cls.take 57

-- ===== object keys

/-- An integer in decimal. -/
def decimal (n : Nat) : Bytes :=
  if n = 0 then [48]
  else (Nat.digits 10 n).reverse.map fun d => (48 + d).toUInt8

/-- A signed integer in decimal. -/
def signedDecimal (i : Int) : Bytes :=
  if i < 0 then 45 :: decimal i.natAbs else decimal i.natAbs

/-- One hexadecimal digit. -/
def hexDigit (d : Nat) : UInt8 :=
  if d < 10 then (48 + d).toUInt8 else (87 + d).toUInt8

/-- A word in hexadecimal, at least four digits long (`std::setw(4)`). -/
def hexWord (n : Nat) : Bytes :=
  let digits := (Nat.digits 16 n).reverse.map hexDigit
  List.replicate (4 - digits.length) 48 ++ digits

/-- Bytes in hexadecimal. -/
def hexBytes (bs : Bytes) : Bytes :=
  bs.flatMap fun b => [hexDigit (b.toNat / 16), hexDigit (b.toNat % 16)]

/-- `UUID::to_string`: dashes after bytes 4, 6, 8 and 10. -/
def uuidString (bs : Bytes) : Bytes :=
  hexBytes (bs.take 4) ++ 45 :: hexBytes ((bs.drop 4).take 2)
    ++ 45 :: hexBytes ((bs.drop 6).take 2)
    ++ 45 :: hexBytes ((bs.drop 8).take 2) ++ 45 :: hexBytes (bs.drop 10)

/-- `GlobalKey::to_string`. -/
def globalKeyString (key : GlobalKey) : Bytes :=
  123 :: hexWord key.hi.toNat ++ 45 :: hexWord key.lo.toNat ++ [125]

/-- `flx_primary_key_part`. -/
def flxPrimaryKeyPart : PrimaryKey Bytes → Bytes
  | .null => bytes ['n', 'u', 'l', 'l']
  | .int i => bytes ['i', 'n', 't', ':'] ++ signedDecimal i.toInt
  | .string s => bytes ['s', 't', 'r', 'i', 'n', 'g', ':']
      ++ decimal s.length ++ 58 :: s
  | .globalKey k => bytes ['g', 'l', 'o', 'b', 'a', 'l', ':']
      ++ globalKeyString k
  | .objectId id => bytes ['o', 'b', 'j', 'e', 'c', 't', 'i', 'd', ':']
      ++ hexBytes id
  | .uuid id => bytes ['u', 'u', 'i', 'd', ':'] ++ uuidString id

/-- `flx_visible_object_key`: the name a session knows an object by. -/
def flxVisibleObjectKey : Bytes :=
  ref.1 ++ 9 :: flxPrimaryKeyPart ref.2

-- ===== reading values

/-- A `Mixed` as the getters return it: null for an unresolved link. -/
def FlxDb.readMixed : Mixed → Mixed
  | .link table key =>
    if db.has (table, key) then .link table key else .null
  | m => m

/-- Whether an item of a link collection is there. -/
def FlxDb.resolved : Mixed → Bool
  | .link table key => db.has (table, key)
  | _ => true

/-- The same for an item that may be an embedded object. -/
def FlxDb.resolvedItem : FlxValue → Bool
  | .mixed m => db.resolved m
  | _ => true

mutual

/-- What the getters return for a value of a column. -/
def FlxDb.read (db : FlxDb) (col : FlxColumn) : FlxValue → FlxValue
  | .mixed m => .mixed (db.readMixed m)
  | .object fields => .object (db.readFields (db.getTable col.target) fields)
  | .list elems => .list (db.readList col elems)
  | .dictionary entries => .dictionary (db.readEntries col entries)
  | .set elems =>
    .set (if col.type = .link then elems.filter db.resolved else elems)

/-- The items of a list: a link list has no unresolved items. -/
def FlxDb.readList (db : FlxDb) (col : FlxColumn) :
    List FlxValue → List FlxValue
  | [] => []
  | v :: vs =>
    if col.type = .link ∧ db.resolvedItem v = false
    then db.readList col vs
    else db.read col v :: db.readList col vs

/-- The entries of a dictionary. -/
def FlxDb.readEntries (db : FlxDb) (col : FlxColumn) :
    List (Bytes × FlxValue) → List (Bytes × FlxValue)
  | [] => []
  | (key, v) :: entries =>
    (key, db.read col v) :: db.readEntries col entries

/-- The columns of an object of a table. -/
def FlxDb.readFields (db : FlxDb) (table : Option FlxTable) :
    FlxFields → FlxFields
  | [] => []
  | (name, v) :: fields =>
    (name, ((table.bind (·.columns.lookup name)).elim v
      fun col => db.read col v)) :: db.readFields table fields

end

/-- `flx_find_object`: the object with what its getters return. -/
def FlxDb.findObject : Option FlxFields :=
  (db.stored ref).map (db.readFields (db.getTable ref.1))

-- ===== bootstrappable columns

/-- `flx_concrete_data_type_can_bootstrap_payload`. -/
def flxConcreteDataTypeCanBootstrapPayload : DataType → Bool
  | .mixed => false
  | .link => false
  | .typedLink => false
  | _ => true

/-- `flx_data_type_can_bootstrap_payload`. -/
def flxDataTypeCanBootstrapPayload (type : DataType) : Bool :=
  type = .mixed || flxConcreteDataTypeCanBootstrapPayload type

/-- `flx_typed_link_target_table`. -/
def FlxDb.typedLinkTargetTable (table : Bytes) : Option FlxTable :=
  (db.getTable table).filter fun t => !t.embedded && !t.asymmetric

/-- `flx_mixed_value_can_bootstrap_payload`. An unresolved link has a
tombstone, and it is asked for only in a table with a primary key. -/
def FlxDb.mixedValueCanBootstrapPayload : FlxValue → Bool
  | .mixed (.link table key) =>
    (db.typedLinkTargetTable table).any fun t =>
      db.has (table, key) || t.pk.isSome
  | .mixed _ => true
  | _ => false

/-- `flx_column_has_supported_link_target`. -/
def FlxDb.hasSupportedLinkTarget : Bool :=
  col.type = .link && (db.getTable col.target).any fun t =>
    !t.embedded && !t.asymmetric

/-- `flx_column_has_embedded_link_target`. -/
def FlxDb.hasEmbeddedLinkTarget : Bool :=
  col.type = .link && (db.getTable col.target).any fun t => t.embedded

/-- `flx_column_can_bootstrap_scalar_value`. -/
def FlxDb.canBootstrapScalarValue : Bool :=
  col.collection = .single &&
    if col.type = .link
    then db.hasSupportedLinkTarget col || db.hasEmbeddedLinkTarget col
    else flxDataTypeCanBootstrapPayload col.type

/-- `flx_column_can_bootstrap_list_value`. -/
def FlxDb.canBootstrapListValue : Bool :=
  col.collection = .list && (flxDataTypeCanBootstrapPayload col.type
    || db.hasSupportedLinkTarget col || db.hasEmbeddedLinkTarget col)

/-- `flx_column_can_bootstrap_set_value`. -/
def FlxDb.canBootstrapSetValue : Bool :=
  col.collection = .set && (flxDataTypeCanBootstrapPayload col.type
    || db.hasSupportedLinkTarget col)

/-- `flx_column_can_bootstrap_dictionary_value`. -/
def FlxDb.canBootstrapDictionaryValue : Bool :=
  col.collection = .dictionary && col.keyType = .string
    && (flxDataTypeCanBootstrapPayload col.type
      || db.hasSupportedLinkTarget col || db.hasEmbeddedLinkTarget col)

/-- `flx_column_can_bootstrap_value`. -/
def FlxDb.canBootstrapValue : Bool :=
  db.canBootstrapScalarValue col || db.canBootstrapListValue col
    || db.canBootstrapSetValue col || db.canBootstrapDictionaryValue col

/-- `flx_column_current_value_can_bootstrap`. -/
def FlxDb.currentValueCanBootstrap (v : FlxValue) : Bool :=
  col.type ≠ .mixed ||
    match col.collection, v with
    | .list, .list elems => elems.all db.mixedValueCanBootstrapPayload
    | .set, .set elems =>
      elems.all fun m => db.mixedValueCanBootstrapPayload (.mixed m)
    | .dictionary, .dictionary entries =>
      entries.all fun e => db.mixedValueCanBootstrapPayload e.2
    | _, v => db.mixedValueCanBootstrapPayload v

/-- The columns that are sent and restored: all but the primary key that
are bootstrappable with the values they have. -/
def FlxDb.bootstrapColumn (table : FlxTable) (name : Bytes)
    (v : FlxValue) : Option FlxColumn :=
  (table.columns.lookup name).filter fun col =>
    table.pk ≠ some name && db.canBootstrapValue col
      && db.currentValueCanBootstrap col v

end BarqSync.Flx
