/-
The instruction set of a changeset (`sync/instructions.hpp`): payloads,
primary keys, paths and the fourteen instruction types, with the field
widths of the source.

# Strings

An instruction never holds a string. It holds an `InternString`, an
index into its changeset's intern table, or a `StringBufferRange`, a
slice of its changeset's string buffer, and the changeset resolves
both. Every type here is therefore generic in the two reference types:
`σ` stands for intern strings and `ρ` for buffer ranges. The codec works
at the bare references; the transformer and the applier work at
`Interned` and `Buffered`, a reference together with the bytes its own
changeset resolves it to, so that the rules that compare contents and
the one rule that compares references can both be written down.

# Paths

The source's path instructions are one base class (`PathInstruction`:
table, object, field and path) with eight derived classes. The model
keeps that split: `PathInstruction` holds the base and an operation
`PathOp` holds what the derived class adds.
-/
import Mathlib.Algebra.Group.Nat.Defs
import Mathlib.Data.List.Basic
import Mathlib.Logic.Basic

namespace BarqSync

/-- String and binary contents are byte strings. -/
abbrev Bytes := List UInt8

-- ===== payloads

/-- `Instruction::Payload::Type`, in the order of its wire values
(−6 … 11). -/
inductive PayloadType
  | set
  | list
  | erased
  | dictionary
  | objectValue
  | globalKey
  | null
  | int
  | bool
  | string
  | binary
  | timestamp
  | float
  | double
  | decimal
  | link
  | objectId
  | uuid
deriving DecidableEq, Repr

/-- `Instruction::CollectionType`. -/
inductive CollectionType
  | single
  | list
  | dictionary
  | set
deriving DecidableEq, Repr

/-- `GlobalKey`: two 64-bit words. -/
structure GlobalKey where
  hi : UInt64
  lo : UInt64
deriving DecidableEq, Repr

/-- `Decimal128`: the two words of an IEEE 754 decimal128 in binary
integer encoding, `w1` the high one. -/
structure Decimal128 where
  w0 : UInt64
  w1 : UInt64
deriving DecidableEq, Repr

/-- `Timestamp`: seconds and nanoseconds since the epoch. -/
structure Timestamp where
  seconds : Int64
  nanoseconds : Int32
deriving DecidableEq, Repr

/-- `Instruction::PrimaryKey`: the variant of the six key types. -/
inductive PrimaryKey (σ : Type)
  | null
  | int (value : Int64)
  | globalKey (value : GlobalKey)
  | string (value : σ)
  | objectId (value : Bytes)
  | uuid (value : Bytes)
deriving DecidableEq, Repr

/-- `Instruction::Payload`: a type tag with the datum it selects.
Floats and doubles are kept as their bit patterns. -/
inductive Payload (σ ρ : Type)
  | set
  | list
  | erased
  | dictionary
  | objectValue
  | globalKey (key : GlobalKey)
  | null
  | int (integer : Int64)
  | bool (boolean : Bool)
  | string (str : ρ)
  | binary (binary : ρ)
  | timestamp (timestamp : Timestamp)
  | float (fnum : UInt32)
  | double (dnum : UInt64)
  | decimal (decimal : Decimal128)
  | link (targetTable : σ) (target : PrimaryKey σ)
  | objectId (objectId : Bytes)
  | uuid (uuid : Bytes)
deriving DecidableEq, Repr

variable {σ ρ : Type}

/-- `Payload::type`. -/
def Payload.type : Payload σ ρ → PayloadType
  | .set => .set
  | .list => .list
  | .erased => .erased
  | .dictionary => .dictionary
  | .objectValue => .objectValue
  | .globalKey _ => .globalKey
  | .null => .null
  | .int _ => .int
  | .bool _ => .bool
  | .string _ => .string
  | .binary _ => .binary
  | .timestamp _ => .timestamp
  | .float _ => .float
  | .double _ => .double
  | .decimal _ => .decimal
  | .link _ _ => .link
  | .objectId _ => .objectId
  | .uuid _ => .uuid

-- ===== paths

/-- `Instruction::Path::Element`: a field name or dictionary key, or a
list index. -/
inductive PathElement (σ : Type)
  | key (name : σ)
  | index (ndx : UInt32)
deriving DecidableEq, Repr

/-- What each class derived from `PathInstruction` adds to the base.
The source's `Update` keeps `is_default` and `prior_size` in a union
and reads `prior_size` exactly when its path ends in an index; here
they are two fields and only the one the source reads is read. -/
inductive PathOp (σ ρ : Type)
  | update (value : Payload σ ρ) (isDefault : Bool) (priorSize : UInt32)
  | addInteger (value : Int64)
  | arrayInsert (value : Payload σ ρ) (priorSize : UInt32)
  | arrayMove (ndx2 : UInt32) (priorSize : UInt32)
  | arrayErase (priorSize : UInt32)
  | clear (collectionType : CollectionType)
  | setInsert (value : Payload σ ρ)
  | setErase (value : Payload σ ρ)
deriving DecidableEq, Repr

/-- `Instruction::PathInstruction` with the operation of the derived
class. -/
structure PathInstruction (σ ρ : Type) where
  table : σ
  object : PrimaryKey σ
  field : σ
  path : List (PathElement σ)
  op : PathOp σ ρ
deriving DecidableEq, Repr

/-- `AddTable::type`: the variant of top-level and embedded tables. -/
inductive AddTableType (σ : Type)
  | topLevel (pkField : σ) (pkType : PayloadType) (pkNullable : Bool)
      (isAsymmetric : Bool)
  | embedded
deriving DecidableEq, Repr

/-- The fourteen instruction types; the eight path instructions share
one constructor. -/
inductive Instruction (σ ρ : Type)
  | addTable (table : σ) (type : AddTableType σ)
  | eraseTable (table : σ)
  | createObject (table : σ) (object : PrimaryKey σ)
  | eraseObject (table : σ) (object : PrimaryKey σ)
  | addColumn (table field : σ) (type : PayloadType) (nullable : Bool)
      (collectionType : CollectionType) (linkTargetTable : σ)
      (keyType : PayloadType)
  | eraseColumn (table field : σ)
  | path (instr : PathInstruction σ ρ)
deriving DecidableEq, Repr

-- ===== resolved references

/-- `StringBufferRange`: a slice of a changeset's string buffer. -/
structure StringBufferRange where
  offset : UInt32
  size : UInt32
deriving DecidableEq, Repr

/-- An `InternString` together with the bytes its changeset's intern
table gives it. -/
structure Interned where
  value : UInt32
  data : Bytes
deriving DecidableEq, Repr

/-- A `StringBufferRange` together with the bytes it selects in its
changeset's string buffer. -/
structure Buffered where
  range : StringBufferRange
  data : Bytes
deriving DecidableEq, Repr

/-- The instructions the transformer and the applier see. -/
abbrev Instr := Instruction Interned Buffered

/-- `Changeset::get_key`: a primary key with its string resolved. -/
def PrimaryKey.resolve : PrimaryKey Interned → PrimaryKey Bytes
  | .null => .null
  | .int i => .int i
  | .globalKey k => .globalKey k
  | .string s => .string s.data
  | .objectId b => .objectId b
  | .uuid b => .uuid b

/-- A path element with its string resolved: the slot of a container
that it names. -/
inductive Slot
  | key (name : Bytes)
  | index (ndx : Nat)
deriving DecidableEq, Repr

/-- The slot an element names. -/
def PathElement.slot : PathElement Interned → Slot
  | .key s => .key s.data
  | .index n => .index n.toNat

end BarqSync
