/-
`TransformerImpl::merge_instructions`: two concurrent instructions, from
the comparison of their paths to the rule that applies.

# Routes

A path instruction is its object and a ROUTE, the path from the object
on (field first) with the operation at its end. Instructions on
different objects pass each other; on one object only the routes matter.
Routes of different length meet in the nested rule of the shorter one,
routes of the same length in the regular rule. The source runs the
regular rule after the nested one too, but every regular rule between
two path instructions tests for paths of equal length.

# Everything else

Object and schema instructions have rules of their own. One of them,
`Merge<AddColumn, EraseTable>`, puts a new instruction in front of the
erasure; the strings of that instruction are interned in the changeset
it goes to, and `Side.adopt` is that interning.
-/
import BarqSync.Applier
import BarqSync.Transform.Rules

namespace BarqSync

-- ===== routes

/-- What a path instruction does inside its object. -/
structure Route where
  path : List Elem
  op : Op
deriving DecidableEq, Repr

/-- `same_container` and `is_container_prefix_of`: the elements of the
shorter path up to its last one are those of the other path. -/
def sameContainer (l r : List Elem) : Bool :=
  (l.dropLast.zip r).all fun e => sameElement e.1 e.2

/-- The route with its last element and operation replaced. -/
def Route.withLeaf (path : List Elem) (l : Leaf) : Route :=
  ⟨path.dropLast ++ [l.elem], l.op⟩

/-- `merge_nested`: the outer route is shorter than the inner one. -/
def mergeNested (outer inner : Route) :
    Except MergeError (Route × Option Route) :=
  let depth := outer.path.length - 1
  match outer.path.getLast?, inner.path[depth]?, inner.path[depth + 1]? with
  | some last, some elem, some next =>
    if sameContainer outer.path inner.path then do
      let (o, e) ← mergeNestedSlot ⟨last, outer.op⟩ elem next
      .ok (.withLeaf outer.path o,
        e.map fun e => ⟨inner.path.set depth e, inner.op⟩)
    else .ok (outer, some inner)
  | _, _, _ => .ok (outer, some inner)

/-- Two routes in one object. -/
def mergeRoutes (ls rs : Discriminant) (l r : Route) :
    Except MergeError (Option Route × Option Route) :=
  if l.path.length < r.path.length then do
    let (o, i) ← mergeNested l r
    .ok (some o, i)
  else if r.path.length < l.path.length then do
    let (o, i) ← mergeNested r l
    .ok (i, some o)
  else
    match l.path.getLast?, r.path.getLast? with
    | some el, some er =>
      if sameContainer l.path r.path then do
        let (l', r') ← mergeSlots ls rs ⟨el, l.op⟩ ⟨er, r.op⟩
        .ok (l'.map (.withLeaf l.path), r'.map (.withLeaf r.path))
      else .ok (some l, some r)
    | _, _ => .ok (some l, some r)

-- ===== instructions

/-- What a side of a merge contributes besides its instruction. -/
structure Side where
  timestamp : Discriminant
  adopt : Bytes → Interned

/-- What `merge_instructions` leaves of the two instructions, and what
it puts in front of them. -/
structure Outcome where
  left : Option Instr
  right : Option Instr
  leftPrepend : List Instr := []
  rightPrepend : List Instr := []
deriving DecidableEq

/-- Both sides unchanged. -/
def Outcome.keep (l r : Instr) : Outcome := ⟨some l, some r, [], []⟩

/-- The outcome seen from the other side. -/
def Outcome.swap (o : Outcome) : Outcome :=
  ⟨o.right, o.left, o.rightPrepend, o.leftPrepend⟩

/-- The route of a path instruction. -/
def PathInstruction.route (p : PathInstruction Interned Buffered) : Route :=
  ⟨p.fullPath, p.op⟩

/-- The instruction with another route through the same field. -/
def PathInstruction.withRoute (p : PathInstruction Interned Buffered)
    (r : Route) : PathInstruction Interned Buffered :=
  { p with path := r.path.tail, op := r.op }

/-- `same_object`. -/
def sameObject (t : Interned) (k : PrimaryKey Interned) (t' : Interned)
    (k' : PrimaryKey Interned) : Bool :=
  sameString t t' && sameKey k k'

/-- Two path instructions. -/
def mergePaths (ls rs : Discriminant)
    (l r : PathInstruction Interned Buffered) :
    Except MergeError Outcome :=
  if sameObject l.table l.object r.table r.object then do
    let (l', r') ← mergeRoutes ls rs l.route r.route
    .ok ⟨l'.map fun p => .path (l.withRoute p),
      r'.map fun p => .path (r.withRoute p), [], []⟩
  else .ok (.keep (.path l) (.path r))

/-- `Merge<AddTable, AddTable>` on the same table: the specifications
must agree. -/
def checkAddTable (l r : AddTableType Interned) : Except MergeError Unit :=
  match l, r with
  | .topLevel f t n a, .topLevel f' t' n' a' => do
      checkMerge (sameString f f') "Schema mismatch: primary key"
      checkMerge (t == t') "Schema mismatch: primary key type"
      checkMerge (n == n') "Schema mismatch: primary key nullability"
      checkMerge (a == a') "Schema mismatch: asymmetric"
  | .embedded, .embedded => .ok ()
  | .topLevel .., .embedded =>
    .error (.badMerge "Schema mismatch: primary key on one side")
  | .embedded, .topLevel .. =>
    .error (.badMerge "Schema mismatch: embedded on one side")

/-- `EraseTable` on the left against anything: the nested rule, the
regular rules, and the link column rule. -/
def mergeEraseTable (ls : Side) (table : Interned) (r : Instr) :
    Outcome :=
  let l : Instr := .eraseTable table
  let discardRight (t : Interned) : Outcome :=
    ⟨some l, if sameString table t then none else some r, [], []⟩
  match r with
  | .addTable t _ => discardRight t
  | .eraseTable t =>
    if sameString table t then ⟨none, none, [], []⟩ else .keep l r
  | .createObject t _ => discardRight t
  | .eraseObject t _ => discardRight t
  | .eraseColumn t _ => discardRight t
  | .path p => discardRight p.table
  | .addColumn t f type _ _ target _ =>
    if sameString table t then ⟨some l, none, [], []⟩
    else if type = .link ∧ sameString target table then
      ⟨some l, none, [.eraseColumn (ls.adopt t.data) (ls.adopt f.data)],
        []⟩
    else .keep l r

/-- `EraseColumn` on the left against anything but `EraseTable`. -/
def mergeEraseColumn (table field : Interned) (r : Instr) : Outcome :=
  let l : Instr := .eraseColumn table field
  let sameColumn (t f : Interned) : Bool :=
    sameString table t && sameString field f
  match r with
  | .addColumn t f _ _ _ _ _ =>
    if sameColumn t f then ⟨some l, none, [], []⟩ else .keep l r
  | .eraseColumn t f =>
    if sameColumn t f then ⟨none, none, [], []⟩ else .keep l r
  | .path p =>
    match p.op with
    | .update .. =>
      if sameColumn p.table p.field then ⟨some l, none, [], []⟩
      else .keep l r
    | _ => .keep l r
  | _ => .keep l r

/-- `EraseObject` on the left against an object or path instruction. -/
def mergeEraseObject (ls rs : Discriminant) (table : Interned)
    (object : PrimaryKey Interned) (r : Instr) : Outcome :=
  let l : Instr := .eraseObject table object
  match r with
  | .createObject t k =>
    if sameObject table object t k then ⟨some l, none, [], []⟩
    else .keep l r
  | .eraseObject t k =>
    if sameObject table object t k then
      if rs.lt ls then ⟨some l, none, [], []⟩ else ⟨none, some r, [], []⟩
    else .keep l r
  | .path p =>
    if sameObject table object p.table p.object then
      ⟨some l, none, [], []⟩
    else .keep l r
  | _ => .keep l r

/-- `merge_instructions`: the left instruction of the major side, the
right one of the minor side. Pairs that are not listed pass each
other. -/
def mergeInstructions (ls rs : Side) (l r : Instr) :
    Except MergeError Outcome :=
  match l, r with
  | .path p, .path q => mergePaths ls.timestamp rs.timestamp p q
  | .addTable t s, .addTable t' s' =>
    if sameString t t' then do
      checkAddTable s s'
      .ok ⟨none, none, [], []⟩
    else .ok (.keep l r)
  | .addColumn t f type n ct target _, .addColumn t' f' type' n' ct' target' _ =>
    if sameString t t' && sameString f f' then do
      checkMerge (type == type') "Schema mismatch: property type"
      checkMerge (n == n') "Schema mismatch: property nullability"
      checkMerge (ct == ct') "Schema mismatch: collection type"
      checkMerge (type != .link || sameString target target')
        "Schema mismatch: link target"
      .ok ⟨none, none, [], []⟩
    else .ok (.keep l r)
  | .eraseTable t, _ => .ok (mergeEraseTable ls t r)
  | _, .eraseTable t => .ok (mergeEraseTable rs t l).swap
  | .eraseColumn t f, _ => .ok (mergeEraseColumn t f r)
  | _, .eraseColumn t f => .ok (mergeEraseColumn t f l).swap
  | .eraseObject t k, _ =>
    .ok (mergeEraseObject ls.timestamp rs.timestamp t k r)
  | _, .eraseObject t k =>
    .ok (mergeEraseObject rs.timestamp ls.timestamp t k l).swap
  | _, _ => .ok (.keep l r)

end BarqSync
