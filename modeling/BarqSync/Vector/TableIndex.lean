/-
The vector indexes of a table (table.cpp, index_vector.cpp): how one is
added to a column, and how the accessors are made from what is persisted.

# Persisted

Each column has a slot with the ref of its index, and attributes in the
spec. A slot without an index is zero. Which kind of index the slot has is
said by the attributes alone. What a ref of a vector index refers to is
its configuration and its graph.

# Building

A vector has the dimension that was declared, or that of the first vector
otherwise. The first pass over the objects only looks for a vector of this
dimension. The later ones admit vectors, and throw on one of another
dimension if it was declared. What the graph is made of is the admitted
vectors; the arithmetic on their elements is a parameter.

# State

A call returns the table also when it throws. A new index has a ref that
was not used before.
-/
import Mathlib.Logic.Function.Basic
import Mathlib.Algebra.Ring.Nat

namespace BarqSync.Vector

-- ===== configurations

/-- `VectorMetric`, which an integer was cast to. -/
inductive VectorMetric
  | innerProduct
  | l2
  | cosine
  | other (value : ℕ)
deriving DecidableEq, Repr

inductive VectorEncoding
  | float32
  | sq8
  | other (value : ℕ)
deriving DecidableEq, Repr

structure VectorIndexConfig where
  metric : VectorMetric := .innerProduct
  encoding : VectorEncoding := .float32
  dimensions : ℕ := 0
  m : ℕ := 16
  efConstruction : ℕ := 200
  efSearch : ℕ := 0
  buildThreads : ℕ := 0
deriving DecidableEq, Repr

/-- `vector_config_compatible`. -/
def vectorConfigCompatible (a b : VectorIndexConfig) : Bool :=
  a.metric = b.metric ∧ a.encoding = b.encoding
    ∧ a.dimensions = b.dimensions ∧ a.m = b.m
    ∧ a.efConstruction = b.efConstruction

/-- What is thrown. -/
inductive IndexError
  | invalidColumnKey
  | invalidMetric
  | invalidEncoding
  | mTooSmall
  | efConstructionZero
  | notFloatList (column : String)
  | differentConfiguration (column : String)
  | wrongDimension (expected length : ℕ)
deriving DecidableEq, Repr

/-- `validate_vector_config`. -/
def validateVectorConfig (config : VectorIndexConfig) :
    Except IndexError Unit :=
  if config.metric ≠ .innerProduct ∧ config.metric ≠ .l2
      ∧ config.metric ≠ .cosine then .error .invalidMetric
  else if config.encoding ≠ .float32 ∧ config.encoding ≠ .sq8 then
    .error .invalidEncoding
  else if config.m < 2 then .error .mTooSmall
  else if config.efConstruction = 0 then .error .efConstructionZero
  else .ok ()

-- ===== building

/-- The arithmetic of vectors. -/
structure VectorMath (F : Type) where
  normalize : List F → List F
  isFinite : F → Bool
  /-- The parameters of the quantization. -/
  learn : List (List F) → List F

/-- What an index persists of its graph. -/
structure Graph (F : Type) where
  dim : ℕ := 0
  dimDeclared : Bool := false
  qparams : List F := []
  /-- Keys and vectors, in the order of their ids. -/
  elements : List (ℕ × List F) := []

section Building

variable {F : Type} (vm : VectorMath F)

/-- The first pass: the dimension, and whether a vector has it. -/
def findDim : ℕ → List (ℕ × List F) → ℕ × Bool
  | d, [] => (d, false)
  | d, row :: rows =>
    if row.2.length = 0 then findDim d rows
    else
      let d := if d = 0 then row.2.length else d
      if row.2.length = d then (d, true) else findDim d rows

def admitVectorDim (size d : ℕ) (declared : Bool) :
    Except IndexError Bool :=
  if size = d then .ok true
  else if size ≠ 0 ∧ declared then .error (.wrongDimension d size)
  else .ok false

/-- The vectors that a pass admits, without those that cannot be
indexed. -/
def admitRows (metric : VectorMetric) (d : ℕ) (declared : Bool) :
    List (ℕ × List F) → Except IndexError (List (ℕ × List F))
  | [] => .ok []
  | row :: rows =>
    (admitVectorDim row.2.length d declared).bind fun admitted =>
      (admitRows metric d declared rows).map fun rest =>
        let v := if metric = .cosine then vm.normalize row.2 else row.2
        if admitted ∧ v.all vm.isFinite then (row.1, v) :: rest else rest

/-- The graph, from the pass that learns the quantization and the one that
feeds the builder. -/
def build (config : VectorIndexConfig) (d : ℕ)
    (rows : List (ℕ × List F)) : Except IndexError (Graph F) :=
  let pass := admitRows vm config.metric d (0 < config.dimensions) rows
  (if config.encoding = .sq8 then pass else .ok []).bind fun learned =>
    pass.map fun elements =>
      { dim := d
        dimDeclared := 0 < config.dimensions
        qparams := if config.encoding = .sq8 then
          vm.learn (learned.map Prod.snd) else []
        elements := elements }

/-- `do_rebuild`, with what is persisted also when it throws. -/
def doRebuild (config : VectorIndexConfig) (rows : List (ℕ × List F)) :
    Except IndexError Unit × Graph F :=
  let found := findDim config.dimensions rows
  if found.1 = 0 then (.ok (), {})
  else
    let empty : Graph F :=
      { dim := found.1, dimDeclared := 0 < config.dimensions }
    if found.2 then
      let built := build vm config found.1 rows
      (built.map fun _ => (), built.toOption.getD empty)
    else (.ok (), empty)

end Building

-- ===== the table

inductive ColumnType
  | float
  | other (code : ℕ)
deriving DecidableEq, Repr

structure ColKey where
  index : ℕ
  type : ColumnType
  isList : Bool
  tag : ℕ
deriving DecidableEq, Repr

/-- `ColKey()`. -/
def ColKey.null : ColKey := ⟨2 ^ 16 - 1, .other 63, true, 2 ^ 30 - 1⟩

/-- The attributes that say what the slot of a column has. -/
structure ColumnAttr where
  fullTextIndexed : Bool := false
  vectorIndexed : Bool := false
deriving DecidableEq, Repr

/-- The accessor of a `StringIndex`. -/
structure StringIndex where
  ref : ℕ
  fulltext : Bool
deriving DecidableEq, Repr

/-- The accessor of a `VectorIndex`. -/
structure VectorIndex where
  ref : ℕ
  config : VectorIndexConfig
deriving DecidableEq, Repr

structure Table (F : Type) where
  leafNdx2colkey : List ColKey
  leafNdx2specNdx : List ℕ
  columnNames : List String
  attrs : List ColumnAttr
  /-- The list of each object in a column, with its key. -/
  lists : ℕ → List (ℕ × List F)
  indexRefs : List ℕ
  indexAccessors : List (Option StringIndex)
  vectorIndexAccessors : List (Option VectorIndex)
  hasAnyVectorIndex : Bool
  /-- What the refs of vector indexes refer to. -/
  persisted : ℕ → Option (VectorIndexConfig × Graph F)
  /-- The ref of the next index that is created. -/
  nextRef : ℕ

namespace Table

variable {F : Type} (t : Table F)

def validColumn (colKey : ColKey) : Bool :=
  colKey ≠ .null ∧ t.leafNdx2colkey[colKey.index]? = some colKey

def specNdx (colNdx : ℕ) : ℕ := t.leafNdx2specNdx.getD colNdx 0

def getColumnAttr (colNdx : ℕ) : ColumnAttr :=
  t.attrs.getD (t.specNdx colNdx) {}

def getColumnName (colNdx : ℕ) : String :=
  t.columnNames.getD (t.specNdx colNdx) ""

def getAsRef (colNdx : ℕ) : ℕ := t.indexRefs.getD colNdx 0

/-- `get_vector_index`. -/
def vectorIndex (colNdx : ℕ) : Option VectorIndex :=
  (t.vectorIndexAccessors[colNdx]?).join

-- ----- accessors

/-- The string index that a refresh leaves on a column. -/
def refreshedIndex (colNdx : ℕ) : Option StringIndex :=
  if t.getAsRef colNdx = 0 then none
  else if (t.getColumnAttr colNdx).vectorIndexed then none
  else some ⟨t.getAsRef colNdx, (t.getColumnAttr colNdx).fullTextIndexed⟩

/-- The vector index that a refresh leaves on a column. The accessor that
is there, or a new one, reads what is persisted. -/
def refreshedVectorIndex (colNdx : ℕ) : Option VectorIndex :=
  if t.getAsRef colNdx = 0 ∨ !(t.getColumnAttr colNdx).vectorIndexed then
    none
  else (t.persisted (t.getAsRef colNdx)).map fun blob =>
    ⟨t.getAsRef colNdx, blob.1⟩

/-- `refresh_index_accessors` and `refresh_vector_index_accessors`. -/
def refreshIndexAccessors : Table F :=
  let columns := List.range t.leafNdx2colkey.length
  { t with
    indexAccessors := columns.map t.refreshedIndex
    vectorIndexAccessors := columns.map t.refreshedVectorIndex
    hasAnyVectorIndex := columns.any fun colNdx =>
      (t.refreshedVectorIndex colNdx).isSome }

-- ----- adding an index

/-- `resize` to at least some size. -/
def resizedAccessors (colNdx : ℕ) : List (Option VectorIndex) :=
  t.vectorIndexAccessors
    ++ List.replicate (colNdx + 1 - t.vectorIndexAccessors.length) none

/-- The ref of a new index is in the slot, and its graph as it is built or
as the build left it. -/
def published (colNdx : ℕ) (config : VectorIndexConfig) (graph : Graph F) :
    Table F :=
  { t with
    vectorIndexAccessors := t.resizedAccessors colNdx
    indexRefs := t.indexRefs.set colNdx t.nextRef
    persisted := Function.update t.persisted t.nextRef
      (some (config, graph))
    nextRef := t.nextRef + 1 }

/-- `do_add_vector_index`. -/
def doAddVectorIndex (vm : VectorMath F) (colNdx : ℕ)
    (config : VectorIndexConfig) : Except IndexError Unit × Table F :=
  if (t.vectorIndex colNdx).isSome then (.ok (), t)
  else
    let built := doRebuild vm config (t.lists colNdx)
    let published := t.published colNdx config built.2
    (built.1, if built.1.isOk then
      { published with
        vectorIndexAccessors := published.vectorIndexAccessors.set colNdx
          (some ⟨t.nextRef, config⟩)
        hasAnyVectorIndex := true }
      else published)

/-- The attribute is set in the spec. -/
def withVectorAttr (colNdx : ℕ) : Table F :=
  let attr := { t.getColumnAttr colNdx with vectorIndexed := true }
  { t with attrs := t.attrs.set (t.specNdx colNdx) attr }

/-- `set_ef_search`, also of what is persisted. -/
def setEfSearch (colNdx : ℕ) (index : VectorIndex) (efSearch : ℕ) :
    Table F :=
  let config := { index.config with efSearch := efSearch }
  { t with
    vectorIndexAccessors := t.vectorIndexAccessors.set colNdx
      (some { index with config := config })
    persisted := Function.update t.persisted index.ref
      ((t.persisted index.ref).map fun blob => (config, blob.2)) }

/-- The column has the attribute already. -/
def reconcile (colNdx : ℕ) (config : VectorIndexConfig) :
    Except IndexError Unit × Table F :=
  (t.vectorIndex colNdx).elim (.ok (), t) fun existing =>
    if !vectorConfigCompatible existing.config config then
      (.error (.differentConfiguration (t.getColumnName colNdx)), t)
    else if existing.config.efSearch ≠ config.efSearch then
      (.ok (), t.setEfSearch colNdx existing config.efSearch)
    else (.ok (), t)

def addVectorIndex (vm : VectorMath F) (colKey : ColKey)
    (config : VectorIndexConfig) : Except IndexError Unit × Table F :=
  if !t.validColumn colKey then (.error .invalidColumnKey, t)
  else if !(validateVectorConfig config).isOk then
    (validateVectorConfig config, t)
  else if !(colKey.isList ∧ colKey.type = .float) then
    (.error (.notFloatList (t.getColumnName colKey.index)), t)
  else if (t.getColumnAttr colKey.index).vectorIndexed then
    t.reconcile colKey.index config
  else
    let out := t.doAddVectorIndex vm colKey.index config
    (out.1, if out.1.isOk then out.2.withVectorAttr colKey.index else out.2)

end Table

end BarqSync.Vector
