/-
The index sets of collection notifications (object-store/index_set):
ranges of indexes kept in chunks of bounded size.

# Representation

A `ChunkedRangeVector` is a vector of chunks, each with the ranges it
holds and three cached values: where its first range begins, where its
last one ends and how many indexes it holds. The mutators keep the
caches by hand. An iterator is the position of a chunk and of a range in
it; the end is the position behind the last chunk. The largest number of
ranges in a chunk is 256, and 4 in a debug build.

# What is left out

`size_t` is a natural number, so nothing wraps round at `npos`, which
stands for no index; the one difference that may be negative is taken in
64 bits (`sizeSub`). Assertions on arguments make an operation fail;
the assertions of the private helpers are the hypotheses of their
specifications. Reading loops over a set, which visit its ranges or its
indexes in order, run over the list of them; loops that move an iterator
or change the set carry the fuel they need.
-/
import BarqSync.Index.Ranges

namespace BarqSync.ObjectStore

open Ranges

/-- The two kinds of build, which differ in `max_size`. -/
inductive Build
  | release
  | debug
deriving DecidableEq, Repr

/-- `ChunkedRangeVector::max_size`; a range is two words of 8 bytes. -/
def Build.maxSize : Build → ℕ
  | .release => 4096 / 16
  | .debug => 4

/-- `ChunkedRangeVector::Chunk`, with `begin` and `end`. -/
structure Chunk where
  data : List (ℕ × ℕ) := []
  start : ℕ := 0
  stop : ℕ := 0
  count : ℕ := 0
deriving DecidableEq, Repr

/-- An iterator: the chunk and the range in it. -/
structure Iter where
  outer : ℕ
  inner : ℕ
deriving DecidableEq, Repr

/-- `m_data`. -/
structure ChunkedRangeVector (build : Build) where
  chunks : List Chunk := []
deriving DecidableEq, Repr

/-- A number moved by a signed distance. -/
def offsetBy (n : ℕ) (d : ℤ) : ℕ := (n + d).toNat

namespace ChunkedRangeVector

variable {build : Build} (v : ChunkedRangeVector build)

/-- The ranges in the order of iteration. -/
def ranges : List (ℕ × ℕ) := v.chunks.flatMap Chunk.data

/-- `as_indexes()`: the indexes in the order of iteration. -/
def asIndexes : List ℕ := indexes v.ranges

def empty : Bool := v.chunks.isEmpty

-- ===== iterators

/-- `begin()`; of an empty vector it is `end()`. -/
def beginIt : Iter := ⟨0, 0⟩

/-- `end()`. -/
def endIt : Iter := ⟨v.chunks.length, 0⟩

/-- `*it.outer()`. -/
def chunk (it : Iter) : Chunk := v.chunks.getD it.outer {}

/-- `*it`. -/
def get (it : Iter) : ℕ × ℕ := (v.chunk it).data.getD it.inner (0, 0)

/-- `next_chunk`. -/
def nextChunk (it : Iter) : Iter := ⟨it.outer + 1, 0⟩

/-- `++it`. -/
def next (it : Iter) : Iter :=
  if it.inner + 1 = (v.chunk it).data.length then nextChunk it
  else ⟨it.outer, it.inner + 1⟩

/-- `--it`, also from the end. -/
def prev (it : Iter) : Iter :=
  if it.inner = 0 then
    ⟨it.outer - 1, (v.chunks.getD (it.outer - 1) {}).data.length - 1⟩
  else ⟨it.outer, it.inner - 1⟩

def modifyChunk (it : Iter) (f : Chunk → Chunk) :
    ChunkedRangeVector build :=
  ⟨v.chunks.modify it.outer f⟩

/-- `it.set(front, back)`. -/
def set (it : Iter) (front back : ℕ) : ChunkedRangeVector build :=
  v.modifyChunk it fun c =>
    { data := c.data.set it.inner (front, back)
      start := if it.inner = 0 then front else c.start
      stop := if it.inner + 1 = c.data.length then back else c.stop
      count := c.count - ((v.get it).2 - (v.get it).1) + (back - front) }

/-- `it.adjust(front, back)`. -/
def adjust (it : Iter) (front back : ℤ) : ChunkedRangeVector build :=
  v.modifyChunk it fun c =>
    { data := c.data.modify it.inner fun r =>
        (offsetBy r.1 front, offsetBy r.2 back)
      start := if it.inner = 0 then offsetBy c.start front else c.start
      stop := if it.inner + 1 = c.data.length then offsetBy c.stop back
        else c.stop
      count := offsetBy c.count (-front + back) }

/-- `it.shift(distance)`. -/
def shiftIt (it : Iter) (distance : ℤ) : ChunkedRangeVector build :=
  v.modifyChunk it fun c =>
    { data := c.data.modify it.inner fun r =>
        (offsetBy r.1 distance, offsetBy r.2 distance)
      start := if it.inner = 0 then offsetBy c.start distance
        else c.start
      stop := if it.inner + 1 = c.data.length then
          offsetBy c.stop distance
        else c.stop
      count := c.count }

/-- `for (; it != end(); ++it) it.shift(distance)`. -/
def shiftUntilEndBy (distance : ℤ) :
    ℕ → ChunkedRangeVector build → Iter → ChunkedRangeVector build
  | 0, v, _ => v
  | fuel + 1, v, it =>
    if it = v.endIt then v
    else shiftUntilEndBy distance fuel (v.shiftIt it distance)
      ((v.shiftIt it distance).next it)

-- ===== whole ranges

def pushBack (value : ℕ × ℕ) : ChunkedRangeVector build :=
  let last := v.chunks.getLastD {}
  if ¬ v.empty ∧ last.data.length < build.maxSize then
    ⟨v.chunks.dropLast ++ [{ last with
          data := last.data ++ [value]
          count := last.count + (value.2 - value.1)
          stop := value.2 }]⟩
  else ⟨v.chunks ++ [⟨[value], value.1, value.2, value.2 - value.1⟩]⟩

/-- A full chunk is split in half. -/
def ensureSpace (pos : Iter) : ChunkedRangeVector build × Iter :=
  let c := v.chunk pos
  if c.data.length + 1 ≤ build.maxSize then (v, pos)
  else
    let toMove := build.maxSize / 2
    let kept := c.data.take (c.data.length - toMove)
    let moved := c.data.drop (c.data.length - toMove)
    let split : ChunkedRangeVector build :=
      ⟨v.chunks.take pos.outer ++ [{ c with
            data := kept
            stop := (kept.getLastD (0, 0)).2
            count := c.count - total moved },
          { data := moved
            start := (moved.headD (0, 0)).1
            stop := (moved.getLastD (0, 0)).2
            count := total moved }] ++
        v.chunks.drop (pos.outer + 1)⟩
    if toMove ≤ pos.inner then
      (split, ⟨pos.outer + 1, pos.inner - toMove⟩)
    else (split, pos)

def insert (pos : Iter) (value : ℕ × ℕ) :
    ChunkedRangeVector build × Iter :=
  if pos.outer = v.chunks.length then
    (v.pushBack value, (v.pushBack value).prev (v.pushBack value).endIt)
  else
    let spaced := v.ensureSpace pos
    (spaced.1.modifyChunk spaced.2 fun c =>
      { data := c.data.insertIdx spaced.2.inner value
        count := c.count + (value.2 - value.1)
        start := min c.start value.1
        stop := max c.stop value.2 }, spaced.2)

def erase (pos : Iter) : ChunkedRangeVector build × Iter :=
  let c := v.chunk pos
  let data := c.data.eraseIdx pos.inner
  if data.length = 0 then (⟨v.chunks.eraseIdx pos.outer⟩, ⟨pos.outer, 0⟩)
  else
    (v.modifyChunk pos fun c =>
      { data := data
        start := (data.headD (0, 0)).1
        stop := (data.getLastD (0, 0)).2
        count := c.count - ((v.get pos).2 - (v.get pos).1) },
      if pos.inner < data.length then pos else nextChunk pos)

end ChunkedRangeVector

-- ===== bulk building

/-- `ChunkedRangeVectorBuilder`: chunks being filled, and the one that is
filled now. -/
structure ChunkedRangeVectorBuilder (build : Build) where
  chunks : List Chunk
  outerPos : ℕ := 0
deriving DecidableEq

namespace ChunkedRangeVectorBuilder

variable {build : Build}

/-- Empty chunks for as many ranges as are expected. -/
def new (expected : ChunkedRangeVector build) :
    ChunkedRangeVectorBuilder build :=
  { chunks := List.replicate
      (expected.ranges.length / build.maxSize + 1) {} }

/-- The chunk that is filled now. -/
def chunk (b : ChunkedRangeVectorBuilder build) : Chunk :=
  b.chunks.getD b.outerPos {}

def setChunk (b : ChunkedRangeVectorBuilder build) (c : Chunk) :
    ChunkedRangeVectorBuilder build :=
  ⟨b.chunks.set b.outerPos c, b.outerPos⟩

/-- `push_back(range)`. A chunk made beyond the expected ones is given
the count 1. -/
def pushBack (b : ChunkedRangeVectorBuilder build) (range : ℕ × ℕ) :
    ChunkedRangeVectorBuilder build :=
  let chunk := b.chunk
  let back := chunk.data.getLastD (0, 0)
  let length := range.2 - range.1
  if chunk.data.isEmpty then
    b.setChunk
      { chunk with data := [range], count := length, start := range.1 }
  else if range.1 = back.2 then
    b.setChunk
      { chunk with
        data := chunk.data.dropLast ++ [(back.1, range.2)]
        count := chunk.count + length }
  else if chunk.data.length < build.maxSize then
    b.setChunk
      { chunk with
        data := chunk.data ++ [range], count := chunk.count + length }
  else
    let full := b.setChunk { chunk with stop := back.2 }
    let moved : ChunkedRangeVectorBuilder build :=
      ⟨full.chunks, full.outerPos + 1⟩
    if moved.chunks.length ≤ moved.outerPos then
      ⟨moved.chunks ++ [⟨[range], range.1, 0, 1⟩], moved.outerPos⟩
    else
      moved.setChunk
        { moved.chunk with
          data := moved.chunk.data ++ [range], start := range.1
          count := length }

/-- `push_back(index)`. -/
def pushIndex (b : ChunkedRangeVectorBuilder build) (index : ℕ) :
    ChunkedRangeVectorBuilder build :=
  b.pushBack (index, index + 1)

/-- `finalize`. -/
def finalize (b : ChunkedRangeVectorBuilder build) :
    ChunkedRangeVector build :=
  let chunks := b.chunks.take (b.outerPos + 1)
  let last := chunks.getLastD {}
  if chunks.isEmpty then ⟨[]⟩
  else if last.data.isEmpty then ⟨chunks.dropLast⟩
  else ⟨chunks.dropLast ++
    [{ last with stop := (last.data.getLastD (0, 0)).2 }]⟩

end ChunkedRangeVectorBuilder

-- ===== index sets

abbrev IndexSet := ChunkedRangeVector

namespace IndexSet

open ChunkedRangeVector

variable {build : Build} (v : IndexSet build)

/-- `find(index, begin)`: the range that holds the index, or the first
one behind it. The search in a chunk is the binary search for the first
range that ends behind the index. -/
def findFrom (index : ℕ) (start : Iter) : Iter :=
  let outer := start.outer +
    (v.chunks.drop start.outer).findIdx fun c => decide (index < c.stop)
  let c := v.chunks.getD outer {}
  let innerBegin := if outer = start.outer then start.inner else 0
  if outer = v.chunks.length then v.endIt
  else if index < c.start then ⟨outer, 0⟩
  else ⟨outer, innerBegin +
    (c.data.drop innerBegin).findIdx fun r => decide (¬ r.2 ≤ index)⟩

/-- `find(index)`. -/
def find (index : ℕ) : Iter := v.findFrom index beginIt

def contains (index : ℕ) : Bool :=
  let it := v.find index
  it ≠ v.endIt ∧ (v.get it).1 ≤ index

-- ----- two loops

/-- `for (; it != end && more(*it.outer(), s); it.next_chunk())
s = f(*it.outer(), s)`. -/
def scanChunks {σ : Type} (more : Chunk → σ → Bool)
    (f : Chunk → σ → σ) : ℕ → Iter → σ → Iter × σ
  | 0, it, s => (it, s)
  | fuel + 1, it, s =>
    if it ≠ v.endIt ∧ more (v.chunk it) s then
      scanChunks more f fuel (nextChunk it) (f (v.chunk it) s)
    else (it, s)

/-- `for (; it != end && more(*it, s); ++it) s = f(*it, s)`. -/
def scanRanges {σ : Type} (more : ℕ × ℕ → σ → Bool)
    (f : ℕ × ℕ → σ → σ) : ℕ → Iter → σ → Iter × σ
  | 0, it, s => (it, s)
  | fuel + 1, it, s =>
    if it ≠ v.endIt ∧ more (v.get it) s then
      scanRanges more f fuel (v.next it) (f (v.get it) s)
    else (it, s)

-- ----- counting

/-- The rest of the chunk the counting starts in. -/
def countRanges (stop : ℕ) : ℕ → Iter → ℕ → Iter × ℕ
  | 0, it, ret => (it, ret)
  | fuel + 1, it, ret =>
    if it ≠ v.endIt ∧ (v.get it).2 < stop ∧ it.inner ≠ 0 then
      countRanges stop fuel (v.next it)
        (ret + ((v.get it).2 - (v.get it).1))
    else (it, ret)

/-- The chunks that end in the range to count, by their counts. -/
def countChunks (stop : ℕ) (it : Iter) (ret : ℕ) : Iter × ℕ :=
  v.scanChunks (fun c _ => c.stop ≤ stop) (fun c ret => ret + c.count)
    v.chunks.length it ret

/-- The whole ranges of the last chunk. -/
def countLast (stop : ℕ) (it : Iter) (ret : ℕ) : Iter × ℕ :=
  v.scanRanges (fun r _ => r.2 ≤ stop)
    (fun r ret => ret + (r.2 - r.1)) v.ranges.length it ret

/-- From the first range of a chunk on. -/
def countFrom (stop : ℕ) (it : Iter) (ret : ℕ) : ℕ :=
  let chunks := v.countChunks stop it ret
  let last := v.countLast stop chunks.1 chunks.2
  if last.1 ≠ v.endIt ∧ (v.get last.1).1 < stop then
    last.2 + (stop - (v.get last.1).1)
  else last.2

/-- A difference of two `size_t`. -/
def sizeSub (a b : ℕ) : ℕ := if b ≤ a then a - b else 2 ^ 64 - (b - a)

/-- `count(start_index, end_index)`. -/
def count (start stop : ℕ) : ℕ :=
  let it := v.find start
  let r := v.get it
  if it = v.endIt ∨ stop ≤ r.1 then 0
  else if stop ≤ r.2 then sizeSub (min r.2 stop) (max r.1 start)
  else if r.1 < start ∨ it.inner ≠ 0 then
    let rest := v.countRanges stop v.ranges.length (v.next it)
      (r.2 - max r.1 start)
    let r := v.get rest.1
    let ret := if rest.1 ≠ v.endIt ∧ r.1 < stop ∧ rest.1.inner ≠ 0 then
        rest.2 + (stop - r.1)
      else rest.2
    if rest.1 = v.endIt ∨ stop ≤ r.2 then ret
    else v.countFrom stop rest.1 ret
  else v.countFrom stop it 0

/-- `shift`, over the ranges in order. -/
def shiftRanges : List (ℕ × ℕ) → ℕ → ℕ
  | [], index => index
  | r :: rs, index =>
    if index < r.1 then index
    else shiftRanges rs (index + (r.2 - r.1))

/-- `shift(index)`: the index after each index of the set is inserted. -/
def shift (index : ℕ) : ℕ := shiftRanges v.ranges index

/-- `unshift(index)`: the index after each index of the set is
deleted. -/
def unshift (index : ℕ) : ℕ := index - v.count 0 index

-- ----- additions

/-- `do_add`: the index goes before the given position. -/
def doAdd (it : Iter) (index : ℕ) : IndexSet build × Iter :=
  let moreBefore := it ≠ beginIt
  let valid := it ≠ v.endIt
  let prev := v.prev it
  if valid ∧ (v.get it).1 ≤ index ∧ index < (v.get it).2 then (v, it)
  else if moreBefore ∧ (v.get prev).2 = index then
    let grown := v.adjust prev 0 1
    if valid ∧ (grown.get prev).2 = (grown.get it).1 then
      let joined := (grown.adjust prev 0
        ((grown.get it).2 - (grown.get it).1)).erase it
      (joined.1, joined.1.prev joined.2)
    else (grown, prev)
  else if valid ∧ (v.get it).1 = index + 1 then
    (v.adjust it (-1) 0, it)
  else v.insert it (index, index + 1)

/-- `add(index)`. -/
def add (index : ℕ) : IndexSet build := (v.doAdd (v.find index) index).1

/-- The loop of `add(IndexSet)`, with the position reached. -/
def addFrom (v : IndexSet build) (it : Iter) : List ℕ → IndexSet build
  | [] => v
  | index :: is =>
    let added := v.doAdd (v.findFrom index it) index
    addFrom added.1 added.2 is

/-- `add(IndexSet)`. -/
def addSet (other : IndexSet build) : IndexSet build :=
  v.addFrom beginIt other.asIndexes

/-- `add_shifted`, the complete chunks before the target. -/
def passChunks (index : ℕ) : Iter × ℕ :=
  v.scanChunks (fun c index => c.stop ≤ index)
    (fun c index => index + c.count) v.chunks.length beginIt index

/-- `add_shifted`, the ranges in the last chunk. -/
def passRanges (it : Iter) (index : ℕ) : Iter × ℕ :=
  v.scanRanges (fun r index => r.1 ≤ index)
    (fun r index => index + (r.2 - r.1)) v.ranges.length it index

/-- `add_shifted(index)`: the set and the unshifted index. -/
def addShifted (index : ℕ) : IndexSet build × ℕ :=
  let chunks := v.passChunks index
  let ranges := v.passRanges chunks.1 chunks.2
  ((v.doAdd ranges.1 ranges.2).1, ranges.2)

/-- The state of the loop of `add_shifted_by`: the ranges of `shifted_by`
and of the old set still ahead, and what was counted of them. -/
structure ShiftedBy (build : Build) where
  shifts : List (ℕ × ℕ)
  olds : List (ℕ × ℕ)
  skipUntil : ℕ := 0
  oldShift : ℕ := 0
  newShift : ℕ := 0
  builder : ChunkedRangeVectorBuilder build

/-- The ranges of `shifted_by` that begin up to the index. -/
def passShifts (index : ℕ) : List (ℕ × ℕ) → ℕ → ℕ → List (ℕ × ℕ) × ℕ × ℕ
  | [], newShift, skipUntil => ([], newShift, skipUntil)
  | r :: rs, newShift, skipUntil =>
    if r.1 ≤ index then
      passShifts index rs (newShift + (r.2 - r.1)) r.2
    else (r :: rs, newShift, skipUntil)

/-- The old ranges that begin up to the unshifted index; they are copied
index by index. -/
def passOlds (index newShift : ℕ) :
    List (ℕ × ℕ) → ℕ → ChunkedRangeVectorBuilder build →
      List (ℕ × ℕ) × ℕ × ChunkedRangeVectorBuilder build
  | [], oldShift, builder => ([], oldShift, builder)
  | r :: rs, oldShift, builder =>
    if r.1 ≤ index - newShift + oldShift then
      passOlds index newShift rs (oldShift + (r.2 - r.1))
        ((List.range' r.1 (r.2 - r.1)).foldl
          ChunkedRangeVectorBuilder.pushIndex builder)
    else (r :: rs, oldShift, builder)

/-- One index of `values`. -/
def ShiftedBy.step (s : ShiftedBy build) (index : ℕ) : ShiftedBy build :=
  let shifts := passShifts index s.shifts s.newShift s.skipUntil
  let newShift := shifts.2.1
  let skipUntil := shifts.2.2
  if index < skipUntil then
    { s with
      shifts := shifts.1, newShift := newShift, skipUntil := skipUntil }
  else
    let olds := passOlds index newShift s.olds s.oldShift s.builder
    { shifts := shifts.1, newShift := newShift, skipUntil := skipUntil
      olds := olds.1, oldShift := olds.2.1
      builder := olds.2.2.pushIndex (index - newShift + olds.2.1) }

/-- `add_shifted_by`. -/
def addShiftedBy (shiftedBy values : IndexSet build) : IndexSet build :=
  if values.empty then v
  else
    let s := values.asIndexes.foldl ShiftedBy.step
      { shifts := shiftedBy.ranges, olds := v.ranges
        builder := .new v }
    (s.olds.foldl ChunkedRangeVectorBuilder.pushBack s.builder).finalize

/-- `clear()`. -/
def clear : IndexSet build := ⟨[]⟩

/-- `set(len)`. -/
def setLen (_v : IndexSet build) (len : ℕ) : IndexSet build :=
  if len ≠ 0 then (clear : IndexSet build).pushBack (0, len) else clear

-- ----- insertions

/-- `for (i = 0; i < count; ++i) pos = next(do_add(pos, index + i))`. -/
def addRun : ℕ → IndexSet build → Iter → ℕ → IndexSet build
  | 0, v, _, _ => v
  | count + 1, v, pos, index =>
    let added := v.doAdd pos index
    addRun count added.1 (added.1.next added.2) (index + 1)

/-- `insert_at(index, count)`; the count is asserted to be positive. -/
def insertAt (index : ℕ) (count : ℕ := 1) : Option (IndexSet build) :=
  let pos := v.find index
  if count = 0 then none
  else if pos = v.endIt then some (addRun count v pos index)
  else if (v.get pos).1 ≤ index then
    let grown := v.adjust pos 0 count
    some (shiftUntilEndBy count v.ranges.length grown (grown.next pos))
  else
    let moved := v.shiftIt pos count
    let moved := shiftUntilEndBy count v.ranges.length moved
      (moved.next pos)
    some (addRun count moved pos index)

/-- The merge loop of `insert_at(IndexSet)`: the indexes of the set and
the positions still ahead, and the positions passed. -/
def insertAtMerge : ℕ → List ℕ → List ℕ → ℕ →
    ChunkedRangeVectorBuilder build → ChunkedRangeVectorBuilder build
  | fuel + 1, i :: is, j :: js, shift, b =>
    if i + shift < j then
      insertAtMerge fuel is (j :: js) shift (b.pushIndex (i + shift))
    else insertAtMerge fuel (i :: is) js (shift + 1) (b.pushIndex j)
  | _, is, js, shift, b =>
    js.foldl ChunkedRangeVectorBuilder.pushIndex
      (is.foldl (fun b i => b.pushIndex (i + shift)) b)

/-- `insert_at(IndexSet)`. -/
def insertAtSet (positions : IndexSet build) : IndexSet build :=
  if positions.empty then v
  else if v.empty then positions
  else
    (insertAtMerge (v.asIndexes.length + positions.asIndexes.length)
      v.asIndexes positions.asIndexes 0 (.new v)).finalize

/-- `shift_for_insert_at(index, count)`; the count is asserted to be
positive. -/
def shiftForInsertAt (index : ℕ) (count : ℕ := 1) :
    Option (IndexSet build) :=
  let it := v.find index
  if count = 0 then none
  else if it = v.endIt then some v
  else
    let moved := shiftUntilEndBy count v.ranges.length v it
    let r := moved.get it
    -- the range held the insertion point, so it is split there
    if r.1 < index + count then
      let cut := moved.set it (r.1 - count) index
      some (cut.insert (cut.next it) (index + count, r.2)).1
    else some moved

/-- The loop of `shift_for_insert_at(IndexSet)`. -/
def shiftForInsertAtMerge : ℕ → List ℕ → List ℕ → ℕ →
    ChunkedRangeVectorBuilder build → ChunkedRangeVectorBuilder build
  | fuel + 1, i :: is, j :: js, shift, b =>
    if i + shift < j then
      shiftForInsertAtMerge fuel is (j :: js) shift
        (b.pushIndex (i + shift))
    else shiftForInsertAtMerge fuel (i :: is) js (shift + 1) b
  | _, is, _, shift, b => is.foldl (fun b i => b.pushIndex (i + shift)) b

/-- `shift_for_insert_at(IndexSet)`. -/
def shiftForInsertAtSet (values : IndexSet build) : IndexSet build :=
  if v.empty ∨ values.empty then v
  else if (v.chunks.getLastD {}).stop ≤ (values.chunks.headD {}).start
    then v
  else
    (shiftForInsertAtMerge (v.asIndexes.length + values.asIndexes.length)
      v.asIndexes values.asIndexes 0 (.new v)).finalize

-- ----- removals

/-- `do_erase`. -/
def doErase (it : Iter) (index : ℕ) : IndexSet build :=
  let r := v.get it
  let prev := v.prev it
  if r.1 ≤ index then
    if r.1 + 1 = r.2 then
      let erased := v.erase it
      shiftUntilEndBy (-1) v.ranges.length erased.1 erased.2
    else
      let cut := v.adjust it 0 (-1)
      shiftUntilEndBy (-1) v.ranges.length cut (cut.next it)
  else if it ≠ beginIt ∧ (v.get prev).2 + 1 = r.1 then
    let erased := (v.adjust prev 0 (r.2 - r.1)).erase it
    shiftUntilEndBy (-1) v.ranges.length erased.1 erased.2
  else shiftUntilEndBy (-1) v.ranges.length v it

/-- `erase_at(index)`. -/
def eraseAt (index : ℕ) : IndexSet build :=
  let it := v.find index
  if it ≠ v.endIt then v.doErase it index else v

/-- The loop of `erase_at(IndexSet)`. -/
def eraseAtMerge : ℕ → List ℕ → List ℕ → ℕ →
    ChunkedRangeVectorBuilder build → ChunkedRangeVectorBuilder build
  | fuel + 1, i :: is, j :: js, shift, b =>
    if i < j then
      eraseAtMerge fuel is (j :: js) shift (b.pushIndex (i - shift))
    else if i = j then eraseAtMerge fuel is js (shift + 1) b
    else eraseAtMerge fuel (i :: is) js (shift + 1) b
  | _, is, _, shift, b => is.foldl (fun b i => b.pushIndex (i - shift)) b

/-- `erase_at(IndexSet)`. -/
def eraseAtSet (positions : IndexSet build) : IndexSet build :=
  if v.empty ∨ positions.empty then v
  else
    (eraseAtMerge (v.asIndexes.length + positions.asIndexes.length)
      v.asIndexes positions.asIndexes 0 (.new v)).finalize

/-- `erase_or_unshift`, the complete chunks before the target. -/
def unshiftChunks (index : ℕ) : Iter × ℕ :=
  v.scanChunks (fun c _ => c.stop ≤ index)
    (fun c shifted => shifted - c.count) v.chunks.length beginIt index

/-- `erase_or_unshift`, the ranges in the last chunk. -/
def unshiftRanges (index : ℕ) (it : Iter) (shifted : ℕ) : Iter × ℕ :=
  v.scanRanges (fun r _ => r.2 ≤ index)
    (fun r shifted => shifted - (r.2 - r.1)) v.ranges.length it shifted

/-- `erase_or_unshift(index)`: the set, and the unshifted index unless
the index was in the set. -/
def eraseOrUnshift (index : ℕ) : IndexSet build × Option ℕ :=
  let chunks := v.unshiftChunks index
  let ranges := v.unshiftRanges index chunks.1 chunks.2
  if ranges.1 = v.endIt then (v, some ranges.2)
  else if (v.get ranges.1).1 ≤ index then
    (v.doErase ranges.1 index, none)
  else (v.doErase ranges.1 index, some ranges.2)

/-- `do_remove`. -/
def doRemove : ℕ → IndexSet build → Iter → ℕ → ℕ → IndexSet build × Iter
  | 0, v, it, _, _ => (v, it)
  | fuel + 1, v, it, start, stop =>
    let it := v.findFrom start it
    let r := v.get it
    if it = v.endIt ∨ stop ≤ r.1 then (v, it)
    else
      let start := max r.1 start
      if r.1 < start ∧ stop < r.2 then
        let cut := v.set it r.1 start
        let split := cut.insert (cut.next it) (stop, r.2)
        doRemove fuel split.1 (split.1.prev split.2) start stop
      else if start = r.1 ∧ r.2 ≤ stop then
        let erased := v.erase it
        doRemove fuel erased.1 erased.2 start stop
      else if start = r.1 then
        doRemove fuel (v.set it stop r.2) it start stop
      else doRemove fuel (v.set it r.1 start) it start stop

/-- Each round but the last two takes a range away. -/
def removeFuel : ℕ := v.ranges.length + 3

/-- `remove(index, count)`. -/
def remove (index : ℕ) (count : ℕ := 1) : IndexSet build :=
  (doRemove v.removeFuel v (v.find index) index (index + count)).1

/-- The loop of `remove(IndexSet)`. -/
def removeRanges : List (ℕ × ℕ) → IndexSet build → Iter → IndexSet build
  | [], v, _ => v
  | r :: rs, v, it =>
    let removed := doRemove v.removeFuel v it r.1 r.2
    if removed.2 = removed.1.endIt then removed.1
    else removeRanges rs removed.1 removed.2

/-- `remove(IndexSet)`. -/
def removeSet (values : IndexSet build) : IndexSet build :=
  removeRanges values.ranges v beginIt

end IndexSet

-- ===== operations

/-- A call of a mutator. -/
inductive IndexOp (build : Build)
  | add (index : ℕ)
  | addSet (other : IndexSet build)
  | addShifted (index : ℕ)
  | addShiftedBy (shiftedBy values : IndexSet build)
  | setLen (len : ℕ)
  | insertAt (index count : ℕ)
  | insertAtSet (positions : IndexSet build)
  | shiftForInsertAt (index count : ℕ)
  | shiftForInsertAtSet (values : IndexSet build)
  | eraseAt (index : ℕ)
  | eraseAtSet (positions : IndexSet build)
  | eraseOrUnshift (index : ℕ)
  | remove (index count : ℕ)
  | removeSet (values : IndexSet build)
  | clear

/-- The sets given to a call. -/
def IndexOp.args {build : Build} : IndexOp build → List (IndexSet build)
  | .addSet other => [other]
  | .addShiftedBy shiftedBy values => [shiftedBy, values]
  | .insertAtSet positions => [positions]
  | .shiftForInsertAtSet values => [values]
  | .eraseAtSet positions => [positions]
  | .removeSet values => [values]
  | _ => []

/-- The set after a call, unless an assertion on the arguments fails. -/
def IndexSet.apply {build : Build} (v : IndexSet build) :
    IndexOp build → Option (IndexSet build)
  | .add index => some (v.add index)
  | .addSet other => some (v.addSet other)
  | .addShifted index => some (v.addShifted index).1
  | .addShiftedBy shiftedBy values =>
    some (v.addShiftedBy shiftedBy values)
  | .setLen len => some (v.setLen len)
  | .insertAt index count => v.insertAt index count
  | .insertAtSet positions => some (v.insertAtSet positions)
  | .shiftForInsertAt index count => v.shiftForInsertAt index count
  | .shiftForInsertAtSet values => some (v.shiftForInsertAtSet values)
  | .eraseAt index => some (v.eraseAt index)
  | .eraseAtSet positions => some (v.eraseAtSet positions)
  | .eraseOrUnshift index => some (v.eraseOrUnshift index).1
  | .remove index count => some (v.remove index count)
  | .removeSet values => some (v.removeSet values)
  | .clear => some IndexSet.clear

end BarqSync.ObjectStore
