/-
The instructions a flexible sync session sends: the schema of a table, an
object with its bootstrappable columns, and an erasure (`flx_add_schema`,
`flx_add_object` and `flx_add_erase_object` of
`noinst/server/server.cpp`).

# Columns

Every column is sent whole. A collection is cleared and filled again, a
single value or an embedded object is set, so what a column's
instructions leave behind does not depend on what was there.
`fieldChanges` keeps them apart by column.
-/
import BarqSync.Server.Flx.Objects

namespace BarqSync.Flx

/-- An instruction with its strings resolved. -/
abbrev FlxInstr := Instruction Bytes Bytes

-- ===== payloads

/-- `flx_payload_type`. -/
def flxPayloadType : DataType → PayloadType
  | .int => .int
  | .bool => .bool
  | .string => .string
  | .binary => .binary
  | .timestamp => .timestamp
  | .float => .float
  | .double => .double
  | .decimal => .decimal
  | .objectId => .objectId
  | .uuid => .uuid
  | .link => .link
  | .typedLink => .link
  | .mixed => .null

/-- `flx_link_payload`: an unresolved link is sent by its tombstone's
primary key. -/
def FlxDb.linkPayload (db : FlxDb) (table : Bytes)
    (key : PrimaryKey Bytes) : Payload Bytes Bytes :=
  if (db.typedLinkTargetTable table).any fun t =>
      db.has (table, key) || t.pk.isSome
  then .link (tableNameToClassName table) key
  else .null

/-- `flx_payload`. -/
def FlxDb.payload (db : FlxDb) : Mixed → Payload Bytes Bytes
  | .null => .null
  | .int i => .int i
  | .bool b => .bool b
  | .string s => .string s
  | .binary b => .binary b
  | .timestamp t => .timestamp t
  | .float bits => .float bits
  | .double bits => .double bits
  | .decimal d => .decimal d
  | .link table key => db.linkPayload table key
  | .objectId id => .objectId id
  | .uuid id => .uuid id

-- ===== schema

/-- `flx_add_table`. -/
def flxAddTable (name : Bytes) (table : FlxTable) : FlxInstr :=
  .addTable (tableNameToClassName name) <|
    if table.embedded then .embedded
    else
      (table.pk.bind fun pk => (table.columns.lookup pk).map (pk, ·)).elim
        (.topLevel [] .globalKey false table.asymmetric)
        fun pk => .topLevel pk.1 (flxPayloadType pk.2.type) pk.2.nullable
          table.asymmetric

/-- The AddColumn instruction of `flx_add_schema_impl`. -/
def FlxDb.addColumn (db : FlxDb) (table name : Bytes) (col : FlxColumn) :
    FlxInstr :=
  .addColumn (tableNameToClassName table) name (flxPayloadType col.type)
    col.nullable col.collection
    (if db.hasEmbeddedLinkTarget col || db.hasSupportedLinkTarget col
      then tableNameToClassName col.target else [])
    (if col.collection = .dictionary then flxPayloadType col.keyType
      else .null)

/-- `flx_add_schema_impl`. `visiting` grows by a table of the snapshot on
every level, so that `fuel` need not exceed their number. -/
def FlxDb.addSchemaImpl (db : FlxDb) :
    Nat → List Bytes → Bytes → FlxTable → List FlxInstr
  | 0, _, name, table => [flxAddTable name table]
  | fuel + 1, visiting, name, table =>
    flxAddTable name table ::
      if name ∈ visiting then []
      else
        (table.columns.filter fun c =>
          table.pk ≠ some c.1 && db.canBootstrapValue c.2).flatMap
        fun c =>
          (if db.hasEmbeddedLinkTarget c.2 then
            (db.getTable c.2.target).elim []
              (db.addSchemaImpl fuel (name :: visiting) c.2.target)
          else if db.hasSupportedLinkTarget c.2 && c.2.target ≠ name then
            (db.getTable c.2.target).elim []
              fun target => [flxAddTable c.2.target target]
          else []) ++ [db.addColumn name c.1 c.2]

/-- `flx_add_schema`. -/
def FlxDb.addSchema (db : FlxDb) (name : Bytes) : List FlxInstr :=
  (db.getTable name).elim []
    (db.addSchemaImpl (db.tables.length + 1) [] name)

-- ===== objects

/-- The column of an object that instructions are made for. -/
structure FlxField where
  table : Bytes
  object : PrimaryKey Bytes
  field : Bytes

/-- An instruction on the column or below it. -/
def FlxField.instr (f : FlxField) (path : List (PathElement Bytes))
    (op : PathOp Bytes Bytes) : FlxInstr :=
  .path ⟨f.table, f.object, f.field, path, op⟩

/-- `flx_add_update`. -/
def FlxField.addUpdate (f : FlxField) (path : List (PathElement Bytes))
    (payload : Payload Bytes Bytes) : FlxInstr :=
  f.instr path (.update payload false 0)

mutual

/-- A column of an object, by the kind of its value: `flx_add_list`,
`flx_add_set`, `flx_add_dictionary`, `flx_add_embedded_object` or one
update. -/
def FlxDb.addValue (db : FlxDb) (f : FlxField) (col : FlxColumn)
    (path : List (PathElement Bytes)) : FlxValue → List FlxInstr
  | .mixed m => [f.addUpdate path (db.payload m)]
  | .object fields =>
    f.addUpdate path .objectValue
      :: db.addEmbeddedValues f (db.getTable col.target) path fields
  | .list elems =>
    f.instr path (.clear .list) :: db.addListItems f col path 0 elems
  | .dictionary entries =>
    f.instr path (.clear .dictionary) :: db.addEntries f col path entries
  | .set elems =>
    f.instr path (.clear .set)
      :: elems.map fun m => f.instr path (.setInsert (db.payload m))

/-- The items of a list, from an index on. -/
def FlxDb.addListItems (db : FlxDb) (f : FlxField) (col : FlxColumn)
    (path : List (PathElement Bytes)) (i : UInt32) :
    List FlxValue → List FlxInstr
  | [] => []
  | .mixed m :: elems =>
    f.instr (path ++ [.index i]) (.arrayInsert (db.payload m) i)
      :: db.addListItems f col path (i + 1) elems
  | .object fields :: elems =>
    f.instr (path ++ [.index i]) (.arrayInsert .objectValue i)
      :: db.addEmbeddedValues f (db.getTable col.target)
          (path ++ [.index i]) fields
      ++ db.addListItems f col path (i + 1) elems
  | _ :: elems => db.addListItems f col path (i + 1) elems

/-- The entries of a dictionary. -/
def FlxDb.addEntries (db : FlxDb) (f : FlxField) (col : FlxColumn)
    (path : List (PathElement Bytes)) :
    List (Bytes × FlxValue) → List FlxInstr
  | [] => []
  | (key, .mixed m) :: entries =>
    f.addUpdate (path ++ [.key key]) (db.payload m)
      :: db.addEntries f col path entries
  | (key, .object fields) :: entries =>
    f.addUpdate (path ++ [.key key]) .objectValue
      :: db.addEmbeddedValues f (db.getTable col.target)
          (path ++ [.key key]) fields
      ++ db.addEntries f col path entries
  | _ :: entries => db.addEntries f col path entries

/-- `flx_add_embedded_values`. -/
def FlxDb.addEmbeddedValues (db : FlxDb) (f : FlxField)
    (table : Option FlxTable) (path : List (PathElement Bytes)) :
    FlxFields → List FlxInstr
  | [] => []
  | (name, v) :: fields =>
    (table.bind fun t => db.bootstrapColumn t name v).elim []
        (fun col => db.addValue f col (path ++ [.key name]) v)
      ++ db.addEmbeddedValues f table path fields

end

/-- The instructions of `flx_add_object` after the first, by column. -/
def FlxDb.fieldChanges (db : FlxDb) (ref : ObjectRef) (table : FlxTable)
    (fields : FlxFields) : List (Bytes × List FlxInstr) :=
  fields.filterMap fun e =>
    (db.bootstrapColumn table e.1 e.2).map fun col =>
      (e.1, db.addValue ⟨tableNameToClassName ref.1, ref.2, e.1⟩ col []
        e.2)

/-- The object as it is sent, if it exists. -/
def FlxDb.image (db : FlxDb) (ref : ObjectRef) :
    Option (List (Bytes × List FlxInstr)) :=
  (db.getTable ref.1).bind fun table =>
    (db.findObject ref).map (db.fieldChanges ref table)

/-- `flx_add_object`. -/
def flxAddObject (ref : ObjectRef) (changes : List (Bytes × List FlxInstr)) :
    List FlxInstr :=
  .createObject (tableNameToClassName ref.1) ref.2 :: changes.flatMap (·.2)

/-- `flx_add_erase_object`. -/
def flxAddEraseObject (ref : ObjectRef) : FlxInstr :=
  .eraseObject (tableNameToClassName ref.1) ref.2

-- ===== dependencies

/-- The links a value holds, those of nested collections and embedded
objects apart. -/
def FlxValue.links : FlxValue → List ObjectRef
  | .mixed (.link table key) => [(table, key)]
  | .list elems => elems.filterMap fun
      | .mixed (.link table key) => some (table, key)
      | _ => none
  | .dictionary entries => entries.filterMap fun
      | (_, .mixed (.link table key)) => some (table, key)
      | _ => none
  | .set elems => elems.filterMap fun
      | .link table key => some (table, key)
      | _ => none
  | _ => []

/-- The targets `append_flx_bootstrap_object_with_dependencies` looks at
before it appends an object, in that order. -/
def FlxDb.dependencies (db : FlxDb) (table : FlxTable)
    (fields : FlxFields) : List ObjectRef :=
  fields.flatMap fun e =>
    (table.columns.lookup e.1).elim [] fun col =>
      if col.type = .mixed then
        if db.currentValueCanBootstrap col e.2 then
          e.2.links.filter fun ref =>
            (db.typedLinkTargetTable ref.1).isSome && db.has ref
        else []
      else if db.hasSupportedLinkTarget col then e.2.links.filter db.has
      else []

end BarqSync.Flx
