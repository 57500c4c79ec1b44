/-
The database state that instructions act on: a fixed schema and, per
table, the objects it holds by primary key.

# Values

A field holds a scalar, an embedded object, a list, a dictionary or a
set, and lists, dictionaries and embedded objects nest without bound
(`Value`). The kind of a list, dictionary or set COLUMN is part of the
schema; a list or dictionary may also sit inside a `Mixed` value at any
depth. Objects and dictionaries are functions of the field name or key,
so that two states are equal exactly when they read the same everywhere.

# Sets

A set is the vector of its elements, in the order in which it keeps them
(`Compare` has the comparison).
-/
import BarqSync.Instructions

namespace BarqSync

-- ===== schema

/-- `DataType`: the type of a column. -/
inductive DataType
  | int
  | bool
  | string
  | binary
  | mixed
  | timestamp
  | float
  | double
  | decimal
  | link
  | typedLink
  | objectId
  | uuid
deriving DecidableEq, Repr

/-- A column: its element type, whether elements may be null, what kind
of collection it is, and for link columns the target table. -/
structure Column where
  type : DataType
  nullable : Bool
  collection : CollectionType
  target : Bytes
deriving DecidableEq, Repr

/-- The primary key column of a table. -/
structure PrimaryKeyColumn where
  name : Bytes
  type : DataType
  nullable : Bool
deriving DecidableEq, Repr

/-- A table, by its columns' names. The primary key column is not among
them: an update of it, which gives the object another key, is not
modelled. -/
structure Table where
  embedded : Bool
  pk : Option PrimaryKeyColumn
  columns : Bytes → Option Column
  pk_apart : ∀ key ∈ pk, columns key.name = none

/-- A value that is not a collection: what `Mixed` holds besides nested
lists and dictionaries. -/
inductive Mixed
  | null
  | int (i : Int64)
  | bool (b : Bool)
  | string (s : Bytes)
  | binary (b : Bytes)
  | timestamp (t : Timestamp)
  | float (bits : UInt32)
  | double (bits : UInt64)
  | decimal (d : Decimal128)
  | link (table : Bytes) (key : PrimaryKey Bytes)
  | objectId (id : Bytes)
  | uuid (id : Bytes)
deriving DecidableEq, Repr

/-- `Mixed::get_type`, which has no answer for null. -/
def Mixed.type? : Mixed → Option DataType
  | .null => none
  | .int _ => some .int
  | .bool _ => some .bool
  | .string _ => some .string
  | .binary _ => some .binary
  | .timestamp _ => some .timestamp
  | .float _ => some .float
  | .double _ => some .double
  | .decimal _ => some .decimal
  | .link _ _ => some .typedLink
  | .objectId _ => some .objectId
  | .uuid _ => some .uuid

/-- An object: the class it belongs to and its primary key. -/
abbrev ObjectRef := Bytes × PrimaryKey Bytes

/-- The schema: the tables by class name, and the table key and object key
under which an object is stored, by which links compare. -/
structure Schema where
  tables : Bytes → Option Table
  objLink : ObjectRef → ℤ × ℤ

-- ===== values

/-- What a field, list element or dictionary entry holds. -/
inductive Value
  | mixed (m : Mixed)
  | object (fields : Bytes → Value)
  | list (elems : List Value)
  | dictionary (entries : Bytes → Option Value)
  | set (elems : List Mixed)

/-- The dictionary with no entries. -/
def Value.emptyDictionary : Value := .dictionary fun _ => none

/-- The set with no elements. -/
def Value.emptySet : Value := .set []

/-- The value a non-nullable column starts with. -/
def DataType.zero : DataType → Mixed
  | .int => .int 0
  | .bool => .bool false
  | .string => .string []
  | .binary => .binary []
  | .timestamp => .timestamp ⟨0, 0⟩
  | .float => .float 0
  | .double => .double 0
  | .decimal => .decimal ⟨0, 0x3040000000000000⟩
  | .objectId => .objectId (List.replicate 12 0)
  | .uuid => .uuid (List.replicate 16 0)
  | .mixed => .null
  | .link => .null
  | .typedLink => .null

/-- What a column holds in a new object. -/
def Column.initial (col : Column) : Value :=
  match col.collection with
  | .list => .list []
  | .dictionary => .emptyDictionary
  | .set => .emptySet
  | .single => if col.nullable then .mixed .null else .mixed col.type.zero

/-- The fields of a new object. -/
def Table.initialFields (t : Table) (name : Bytes) : Value :=
  match t.columns name with
  | some col => col.initial
  | none => .mixed .null

/-- A primary key as the value of the primary key column. -/
def PrimaryKey.toMixed : PrimaryKey Bytes → Mixed
  | .null => .null
  | .int i => .int i
  | .globalKey _ => .null
  | .string s => .string s
  | .objectId b => .objectId b
  | .uuid b => .uuid b

/-- The fields of an object created with a primary key. -/
def Table.newObject (t : Table) (key : PrimaryKey Bytes) : Value :=
  match t.pk with
  | some pk =>
    .object (Function.update t.initialFields pk.name (.mixed key.toMixed))
  | none => .object t.initialFields

/-- The objects of the database. -/
abbrev State := ObjectRef → Option Value

end BarqSync
