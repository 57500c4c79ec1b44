/-
The merge rules (`sync/transform.cpp`): what becomes of two concurrent
instructions when each is rewritten to run after the other.

# Layers

Two path instructions conflict only inside one container. The rules are
therefore written at the SLOT level: two operations, each with the last
element of its path, in a container they share (`mergeSlots`), and an
operation at a slot against an instruction whose path goes on below that
container (`mergeNestedSlot`). `Transform/Merge.lean` decides which
container two paths share and carries the result back into the paths.

The source tests `same_path` or `same_container` in each rule.
`same_path` is `same_container` with equal last elements, so the test
the rules keep here is `sameElement`.

# Sides

`left` and `right` are the source's. A rule is written for the order of
instruction types the source writes it for, the higher type on the left;
`mergeSlots` swaps the arguments otherwise, as `Merge<A, B>` does. A
discarded instruction is `none`.
-/
import BarqSync.Compare

namespace BarqSync

/-- Operations and path elements as the transformer sees them. -/
abbrev Op := PathOp Interned Buffered
abbrev Elem := PathElement Interned

/-- `TransformError` (a `bad_merge` with its message) or a failed
assertion. -/
inductive MergeError
  | badMerge (message : String)
  | assertion (condition : String)
deriving DecidableEq, Repr

/-- `Discriminant`: what orders two changesets in a conflict. -/
structure Discriminant where
  timestamp : Nat
  clientFileIdent : Nat
deriving DecidableEq, Repr

/-- `Discriminant::operator<`. -/
def Discriminant.lt (a b : Discriminant) : Bool :=
  if a.timestamp = b.timestamp then a.clientFileIdent < b.clientFileIdent
  else a.timestamp < b.timestamp

-- ===== comparisons

/-- `MergeUtils::same_string`. -/
def sameString (l r : Interned) : Bool := l.data == r.data

/-- `MergeUtils::same_key`. -/
def sameKey (l r : PrimaryKey Interned) : Bool := l.resolve == r.resolve

/-- `MergeUtils::same_path_element`. -/
def sameElement (l r : Elem) : Bool :=
  match l, r with
  | .index i, .index j => i == j
  | .key s, .key t => sameString s t
  | _, _ => false

/-- Two path elements are the same for the transformer exactly when the
applier takes them to the same place. -/
theorem sameElement_iff {e e' : Elem} :
    sameElement e e' = true ↔ e.slot = e'.slot := by
  cases e <;> cases e' <;>
    simp [sameElement, sameString, PathElement.slot, UInt32.toNat_inj]

theorem sameElement_comm {e e' : Elem} :
    sameElement e e' = sameElement e' e := by
  rw [Bool.eq_iff_iff, sameElement_iff, sameElement_iff, eq_comm]

/-- `MergeUtils::same_payload`: payloads compared by content, each
string and link resolved in its own changeset. -/
def samePayload (l r : Payload Interned Buffered) : Bool :=
  match l, r with
  | .null, .null => true
  | .erased, .erased => true
  | .set, .set => true
  | .list, .list => true
  | .dictionary, .dictionary => true
  | .objectValue, .objectValue => true
  | .globalKey a, .globalKey b => a == b
  | .int a, .int b => a == b
  | .bool a, .bool b => a == b
  | .string a, .string b => a.data == b.data
  | .binary a, .binary b => a.data == b.data
  | .timestamp a, .timestamp b => a == b
  | .float a, .float b => (floatKey a).ieeeEq (floatKey b)
  | .double a, .double b => (doubleKey a).ieeeEq (doubleKey b)
  | .decimal a, .decimal b => a.equal b
  | .link t k, .link t' k' => sameKey k k' && sameString t t'
  | .objectId a, .objectId b => a == b
  | .uuid a, .uuid b => a == b
  | _, _ => false

/-- `Instruction::PrimaryKey::operator==`: the variant's own equality, an
intern string by its index. -/
def PrimaryKey.rawEq : PrimaryKey Interned → PrimaryKey Interned → Bool
  | .null, .null => true
  | .int a, .int b => a == b
  | .globalKey a, .globalKey b => a == b
  | .string a, .string b => a.value == b.value
  | .objectId a, .objectId b => a == b
  | .uuid a, .uuid b => a == b
  | _, _ => false

/-- `Payload::operator==`: payloads compared by representation, a string
by its range and a link by its intern indexes. -/
def Payload.rawEq (l r : Payload Interned Buffered) : Bool :=
  match l, r with
  | .null, .null => true
  | .erased, .erased => true
  | .set, .set => true
  | .list, .list => true
  | .dictionary, .dictionary => true
  | .objectValue, .objectValue => true
  | .globalKey a, .globalKey b => a == b
  | .int a, .int b => a == b
  | .bool a, .bool b => a == b
  | .string a, .string b => a.range == b.range
  | .binary a, .binary b => a.range == b.range
  | .timestamp a, .timestamp b => a == b
  | .float a, .float b => (floatKey a).ieeeEq (floatKey b)
  | .double a, .double b => (doubleKey a).ieeeEq (doubleKey b)
  | .decimal a, .decimal b => a.equal b
  | .link t k, .link t' k' => k.rawEq k' && t.value == t'.value
  | .objectId a, .objectId b => a == b
  | .uuid a, .uuid b => a == b
  | _, _ => false

-- ===== slot rules

/-- An operation with the last element of its path: what a rule reads
and rewrites of a path instruction. -/
structure Leaf where
  elem : Elem
  op : Op
deriving DecidableEq, Repr

/-- What is left of the two sides after a rule. -/
abbrev Merged := Except MergeError (Option Leaf × Option Leaf)

/-- Whether a path element is a list index. -/
def Elem.isIndex : Elem → Bool
  | .index _ => true
  | .key _ => false

/-- `is_array_update`: the path ends in an index. -/
def Leaf.isArrayUpdate (l : Leaf) : Bool := Elem.isIndex l.elem

/-- No rule applies. -/
def keepBoth (l r : Leaf) : Merged := .ok (some l, some r)

/-- Discard the side with the lower timestamp. -/
def discardOlder (ls rs : Discriminant) (l r : Leaf) : Merged :=
  if ls.lt rs then .ok (none, some r) else .ok (some l, none)

/-- `bad_merge` unless the condition holds. -/
def checkMerge (condition : Bool) (message : String) :
    Except MergeError Unit :=
  if condition then .ok () else .error (.badMerge message)

/-- `Merge<Update, Update>`. -/
def mergeUpdateUpdate (ls rs : Discriminant) (l r : Leaf)
    (lv : Payload Interned Buffered) (ld : Bool) (lp : UInt32)
    (rv : Payload Interned Buffered) (rd : Bool) (rp : UInt32) : Merged :=
  if sameElement l.elem r.elem then do
    checkMerge (l.isArrayUpdate == r.isArrayUpdate)
      "Merge error: left.is_array_update() == right.is_array_update()"
    checkMerge (!l.isArrayUpdate || lp == rp)
      "Merge error: left.prior_size == right.prior_size"
    let leftIsDefault := !l.isArrayUpdate && ld
    let rightIsDefault := !l.isArrayUpdate && rd
    -- Embedded object creation always loses to a value.
    if lv.type ≠ rv.type ∧ lv.type = .objectValue then .ok (none, some r)
    else if lv.type ≠ rv.type ∧ rv.type = .objectValue then
      .ok (some l, none)
    -- Two creations of the same kind of collection are idempotent.
    else if lv.type = rv.type ∧ (lv.type = .list ∨ lv.type = .dictionary)
      then keepBoth l r
    else if leftIsDefault = rightIsDefault then discardOlder ls rs l r
    else if leftIsDefault then .ok (none, some r)
    else .ok (some l, none)
  else keepBoth l r

/-- `Merge<AddInteger, Update>`. -/
def mergeAddIntegerUpdate (ls rs : Discriminant) (l r : Leaf)
    (n : Int64) (rv : Payload Interned Buffered) (rd : Bool)
    (rp : UInt32) : Merged :=
  if sameElement l.elem r.elem then
    let rightIsDefault := !r.isArrayUpdate && rd
    if rs.lt ls || rightIsDefault then
      match rv with
      | .null => keepBoth l r
      -- Wrapping add to the payload of the update.
      | .int i => .ok (some l, some { r with op := .update (.int (i + n)) rd rp })
      | _ => .ok (none, some r)
    else .ok (none, some r)
  else keepBoth l r

/-- `Merge<Clear, Update>`. -/
def mergeClearUpdate (ls rs : Discriminant) (l r : Leaf)
    (ct : CollectionType) (rv : Payload Interned Buffered) : Merged :=
  if sameElement l.elem r.elem then
    if rv.type = .set then
      .error (.assertion "right.value.type != Type::Set")
    else if ct = .list ∧ rv.type = .list then keepBoth l r
    else if ct = .dictionary ∧ rv.type = .dictionary then keepBoth l r
    else discardOlder ls rs l r
  else keepBoth l r

/-- `Merge<ArrayInsert, Update>`: `i`, `n` are the insertion's index and
prior size, `j`, `m` the update's. -/
def mergeArrayInsertUpdate (l : Leaf) (i n : UInt32)
    (rv : Payload Interned Buffered) (rd : Bool) (j m : UInt32) :
    Merged := do
  checkMerge (n == m) "Merge error: left.prior_size == right.prior_size"
  checkMerge (i ≤ n) "Merge error: left.index() <= left.prior_size"
  checkMerge (j < m) "Merge error: right.index() < right.prior_size"
  let j' := if j ≥ i then j + 1 else j
  keepBoth l ⟨.index j', .update rv rd (m + 1)⟩

/-- `MergeUtils::merge_get_vs_move`: where a move takes an index. -/
def mergeGetVsMove (get moveFrom moveTo : UInt32) : UInt32 :=
  if get = moveFrom then moveTo
  else
    let get := if get > moveFrom then get - 1 else get
    if get ≥ moveTo then get + 1 else get

/-- `Merge<ArrayMove, Update>`. -/
def mergeArrayMoveUpdate (l : Leaf) (i k n : UInt32)
    (rv : Payload Interned Buffered) (rd : Bool) (j m : UInt32) :
    Merged := do
  checkMerge (i < n) "Merge error: left.index() < left.prior_size"
  checkMerge (j < m) "Merge error: right.index() < right.prior_size"
  keepBoth l ⟨.index (mergeGetVsMove j i k), .update rv rd m⟩

/-- `Merge<ArrayErase, Update>`. -/
def mergeArrayEraseUpdate (l : Leaf) (i n : UInt32)
    (rv : Payload Interned Buffered) (rd : Bool) (j m : UInt32) :
    Merged := do
  checkMerge (n == m) "Merge error: left.prior_size == right.prior_size"
  checkMerge (i < n) "Merge error: left.index() < left.prior_size"
  checkMerge (j < m) "Merge error: right.index() < right.prior_size"
  if i = j then .ok (some l, none)
  else
    let j' := if j > i then j - 1 else j
    keepBoth l ⟨.index j', .update rv rd (m - 1)⟩

/-- Left removal vs right removal, of different elements. -/
def removalVsRemoval (i j : UInt32) : UInt32 × UInt32 :=
  if i < j then (i, j - 1) else (i - 1, j)

/-- An insertion at `k` on one side vs a removal at `j` on the other. -/
def insertionVsRemoval (k j : UInt32) : UInt32 × UInt32 :=
  if k > j then (k - 1, j) else (k, j + 1)

/-- Left insertion vs right insertion; at the same position `leftFirst`
decides the order. -/
def insertionVsInsertion (leftFirst : Bool) (k h : UInt32) :
    UInt32 × UInt32 :=
  if k < h then (k, h + 1)
  else if k > h then (k + 1, h)
  else if leftFirst then (k, h + 1)
  else (k + 1, h)

/-- `Merge<ArrayInsert, ArrayInsert>`. -/
def mergeArrayInsertArrayInsert (ls rs : Discriminant)
    (lv : Payload Interned Buffered) (i n : UInt32)
    (rv : Payload Interned Buffered) (j m : UInt32) : Merged := do
  checkMerge (n == m) "Exception: left.prior_size == right.prior_size"
  let s := insertionVsInsertion (ls.lt rs) i j
  keepBoth ⟨.index s.1, .arrayInsert lv (n + 1)⟩
    ⟨.index s.2, .arrayInsert rv (m + 1)⟩

/-- `Merge<ArrayMove, ArrayInsert>`: a move from `i` to `k` against an
insertion at `j`. Here the older of two elements at one position comes
LAST. -/
def mergeArrayMoveArrayInsert (ls rs : Discriminant)
    (i k n : UInt32) (rv : Payload Interned Buffered) (j m : UInt32) :
    Merged :=
  let e := insertionVsRemoval j i
  let s := insertionVsInsertion (!ls.lt rs) k e.1
  keepBoth ⟨.index e.2, .arrayMove s.1 (n + 1)⟩
    ⟨.index s.2, .arrayInsert rv m⟩

/-- `Merge<ArrayErase, ArrayInsert>`. -/
def mergeArrayEraseArrayInsert (i n : UInt32)
    (rv : Payload Interned Buffered) (j m : UInt32) : Merged := do
  checkMerge (n == m) "Merge error: left.prior_size == right.prior_size"
  checkMerge (i < n) "Merge error: left.index() < left.prior_size"
  checkMerge (j ≤ m) "Merge error: right.index() <= right.prior_size"
  let e := insertionVsRemoval j i
  keepBoth ⟨.index e.2, .arrayErase (n + 1)⟩
    ⟨.index e.1, .arrayInsert rv (m - 1)⟩

/-- `Merge<ArrayMove, ArrayMove>`: a move from `i` to `k` against a move
from `j` to `h`. -/
def mergeArrayMoveArrayMove (ls rs : Discriminant)
    (i k n j h m : UInt32) : Merged := do
  checkMerge (n == m) "Merge error: left.prior_size == right.prior_size"
  checkMerge (i < n) "Merge error: left.index() < left.prior_size"
  checkMerge (j < m) "Merge error: right.index() < right.prior_size"
  checkMerge (k < n) "Merge error: left.ndx_2 < left.prior_size"
  checkMerge (h < m) "Merge error: right.ndx_2 < right.prior_size"
  if i = j then
    -- Two movements of the same element: the later one counts.
    if ls.lt rs then
      .ok (none, if k = h then none else some ⟨.index k, .arrayMove h m⟩)
    else
      .ok (if h = k then none else some ⟨.index h, .arrayMove k n⟩, none)
  else
    let e := removalVsRemoval i j
    let a := insertionVsRemoval k e.2
    let b := insertionVsRemoval h e.1
    let s := insertionVsInsertion (ls.lt rs) a.1 b.1
    .ok (if b.2 = s.1 then none else some ⟨.index b.2, .arrayMove s.1 n⟩,
      if a.2 = s.2 then none else some ⟨.index a.2, .arrayMove s.2 m⟩)

/-- `Merge<ArrayErase, ArrayMove>`: an erasure at `i` against a move from
`j` to `h`. -/
def mergeArrayEraseArrayMove (i n j h m : UInt32) : Merged := do
  checkMerge (n == m) "Merge error: left.prior_size == right.prior_size"
  checkMerge (i < n) "Merge error: left.index() < left.prior_size"
  checkMerge (j < m) "Merge error: right.index() < right.prior_size"
  if i = j then .ok (some ⟨.index h, .arrayErase n⟩, none)
  else
    let e := removalVsRemoval i j
    let s := insertionVsRemoval h e.1
    .ok (some ⟨.index s.2, .arrayErase n⟩,
      if e.2 = s.1 then none else some ⟨.index e.2, .arrayMove s.1 (m - 1)⟩)

/-- `Merge<ArrayErase, ArrayErase>`. -/
def mergeArrayEraseArrayErase (i n j m : UInt32) : Merged := do
  checkMerge (n == m) "Merge error: left.prior_size == right.prior_size"
  checkMerge (i < n) "Merge error: left.index() < left.prior_size"
  checkMerge (j < m) "Merge error: right.index() < right.prior_size"
  if i = j then .ok (none, none)
  else
    let e := removalVsRemoval i j
    keepBoth ⟨.index e.1, .arrayErase (n - 1)⟩
      ⟨.index e.2, .arrayErase (m - 1)⟩

/-- The two list indexes an array rule compares; the source takes them
out of the paths after asserting that they are there. -/
def withIndexes (l r : Leaf) (rule : UInt32 → UInt32 → Merged) : Merged :=
  match l.elem, r.elem with
  | .index i, .index j => rule i j
  | _, _ => .error (.assertion "right.is_array_update()")

/-- The rules, for the order of instruction types the source writes them
in. Pairs that are not listed are `DEFINE_MERGE_NOOP`. -/
def mergeOrdered (ls rs : Discriminant) (l r : Leaf) : Merged :=
  match l.op, r.op with
  | .update lv ld lp, .update rv rd rp =>
    mergeUpdateUpdate ls rs l r lv ld lp rv rd rp
  | .addInteger n, .update rv rd rp =>
    mergeAddIntegerUpdate ls rs l r n rv rd rp
  | .arrayInsert _ n, .update rv rd m =>
    withIndexes l r fun i j => mergeArrayInsertUpdate l i n rv rd j m
  | .arrayMove k n, .update rv rd m =>
    withIndexes l r fun i j => mergeArrayMoveUpdate l i k n rv rd j m
  | .arrayErase n, .update rv rd m =>
    withIndexes l r fun i j => mergeArrayEraseUpdate l i n rv rd j m
  | .clear ct, .update rv _ _ => mergeClearUpdate ls rs l r ct rv
  | .clear _, .addInteger _ =>
    if sameElement l.elem r.elem then .ok (some l, none) else keepBoth l r
  | .arrayInsert lv n, .arrayInsert rv m =>
    withIndexes l r fun i j =>
      mergeArrayInsertArrayInsert ls rs lv i n rv j m
  | .arrayMove k n, .arrayInsert rv m =>
    withIndexes l r fun i j =>
      mergeArrayMoveArrayInsert ls rs i k n rv j m
  | .arrayErase n, .arrayInsert rv m =>
    withIndexes l r fun i j => mergeArrayEraseArrayInsert i n rv j m
  | .arrayMove k n, .arrayMove h m =>
    withIndexes l r fun i j => mergeArrayMoveArrayMove ls rs i k n j h m
  | .arrayErase n, .arrayMove h m =>
    withIndexes l r fun i j => mergeArrayEraseArrayMove i n j h m
  | .arrayErase n, .arrayErase m =>
    withIndexes l r fun i j => mergeArrayEraseArrayErase i n j m
  | .clear _, .clear _ =>
    if sameElement l.elem r.elem then discardOlder ls rs l r
    else keepBoth l r
  | .setInsert _, .clear _ =>
    if sameElement l.elem r.elem then .ok (none, some r) else keepBoth l r
  | .setErase _, .clear _ =>
    if sameElement l.elem r.elem then .ok (none, some r) else keepBoth l r
  | .setInsert lv, .setInsert rv =>
    if sameElement l.elem r.elem ∧ samePayload lv rv then
      discardOlder ls rs l r
    else keepBoth l r
  | .setErase lv, .setInsert rv =>
    if sameElement l.elem r.elem ∧ samePayload lv rv then
      discardOlder ls rs l r
    else keepBoth l r
  -- The one rule that compares representations.
  | .setErase lv, .setErase rv =>
    if sameElement l.elem r.elem ∧ lv.rawEq rv then discardOlder ls rs l r
    else keepBoth l r
  | _, _ => keepBoth l r

/-- The value of an operation's type in `Instruction::Type`. -/
def opType : Op → Nat
  | .update .. => 4
  | .addInteger .. => 5
  | .arrayInsert .. => 8
  | .arrayMove .. => 9
  | .arrayErase .. => 10
  | .clear .. => 11
  | .setInsert .. => 12
  | .setErase .. => 13

/-- `Merge<A, B>::merge`: two operations in one container, in either
order of types. -/
def mergeSlots (ls rs : Discriminant) (l r : Leaf) : Merged :=
  if opType l.op < opType r.op then
    Prod.swap <$> mergeOrdered rs ls r l
  else mergeOrdered ls rs l r

-- ===== nested rules

/-- The index that a nested array rule moves, in the inner path. -/
def correspondingIndex (outer : Leaf) (elem : Elem) :
    Except MergeError (UInt32 × UInt32) :=
  match outer.elem, elem with
  | .index i, .index g => .ok (i, g)
  | .key _, _ =>
    .error (.assertion
      "mpark::holds_alternative<uint32_t>(left.path.back())")
  | _, .key _ => .error (.badMerge "Inconsistent paths")

/-- `MergeNested<A>::merge`: an operation against an instruction whose
path enters the same container at `elem` and goes on with `next`. What
is left of the outer leaf, and the inner path's element, if the inner
instruction survives. -/
def mergeNestedSlot (outer : Leaf) (elem next : Elem) :
    Except MergeError (Leaf × Option Elem) :=
  match outer.op with
  | .update value _ _ =>
    -- Creating an embedded object is idempotent.
    if value.type = .objectValue then .ok (outer, some elem)
    else if sameElement outer.elem elem then
      -- A collection of the kind the inner path goes into may stay.
      match value.type, next with
      | .list, .index _ => .ok (outer, some elem)
      | .dictionary, .key _ => .ok (outer, some elem)
      | _, _ => .ok (outer, none)
    else .ok (outer, some elem)
  | .addInteger _ =>
    .ok (outer, if sameElement outer.elem elem then none else some elem)
  | .arrayInsert _ _ => do
      let (i, g) ← correspondingIndex outer elem
      .ok (outer, some (.index (if g ≥ i then g + 1 else g)))
  | .arrayMove k n => do
      let (i, g) ← correspondingIndex outer elem
      -- The source passes the outer index as the one to be moved.
      .ok (⟨.index (mergeGetVsMove i g k), .arrayMove k n⟩, some elem)
  | .arrayErase _ =>
    if sameElement outer.elem elem then .ok (outer, none)
    else do
      let (i, g) ← correspondingIndex outer elem
      .ok (outer, some (.index (if i < g then g - 1 else g)))
  | .clear _ =>
    .ok (outer, if sameElement outer.elem elem then none else some elem)
  | .setInsert _ => .ok (outer, some elem)
  | .setErase _ => .ok (outer, some elem)

end BarqSync
