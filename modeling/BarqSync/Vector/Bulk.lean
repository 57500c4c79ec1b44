/-
The bulk builder of a vector index (index_vector.cpp): distances of
quantized vectors, and the searches that use them.

# Distances

The kernel adds up the differences of two vectors of codes in several
lanes: eight with vector instructions, four without. Between blocks of 32
it may stop, when the sum so far is not below a bound. Codes are signed
bytes, whose differences and squares are exact in the wider integers of
all variants. Sums are rational numbers; no bound is the top element.

# Searches

A search asks for the distance of an element with a bound that it chooses,
so the distance is a function of both. Links are read under the lock of
their element and copied, and the first loop over them drops those that
were visited. Prefetching is left out. Heaps are lists in the order in
which they are popped.
-/
import BarqSync.Vector.Search
import Mathlib.Algebra.Order.Ring.Rat
import Mathlib.Order.WithBot

namespace BarqSync.Vector

-- ===== the SQ8 distance

/-- What the kernel is compiled for. -/
inductive Simd
  | neon
  | sse
  | none
deriving DecidableEq, Repr

/-- The sums that are kept apart. -/
def Simd.lanes : Simd → ℕ
  | .neon => 8
  | .sse => 8
  | .none => 4

/-- The part of one dimension in the distance. -/
def sq8Term (codes : BitVec 8 × BitVec 8) (scl2 : ℚ) : ℚ :=
  let d : ℚ := codes.1.toInt - codes.2.toInt
  scl2 * d * d

/-- The parts of all dimensions. -/
def sq8Terms (a b : List (BitVec 8)) (scl2 : List ℚ) : List ℚ :=
  List.zipWith sq8Term (List.zip a b) scl2

/-- Some steps of the loop over a block, each of one term for a lane. -/
def accumulate (width : ℕ) : ℕ → List ℚ → List ℚ → List ℚ
  | 0, lanes, _ => lanes
  | steps + 1, lanes, terms =>
    accumulate width steps
      (List.zipWith (· + ·) lanes (terms.take width)) (terms.drop width)

def horizontal (lanes : List ℚ) : ℚ := lanes.foldl (· + ·) 0

/-- The loops over the blocks and over the rest. -/
def sq8Loop (width : ℕ) (bound : WithTop ℚ) (lanes terms : List ℚ) : ℚ :=
  if 32 < terms.length then
    let lanes := accumulate width (32 / width) lanes terms
    if bound ≤ horizontal lanes then horizontal lanes
    else sq8Loop width bound lanes (terms.drop 32)
  else
    let steps := terms.length / width
    let sum := horizontal (accumulate width steps lanes terms)
    (terms.drop (width * steps)).foldl (· + ·) sum
termination_by terms.length
decreasing_by
  rw [List.length_drop]
  omega

/-- `sq8_l2_sq_codes`. -/
def sq8L2SqCodes (simd : Simd) (a b : List (BitVec 8)) (scl2 : List ℚ)
    (bound : WithTop ℚ) : ℚ :=
  sq8Loop simd.lanes bound (List.replicate simd.lanes 0)
    (sq8Terms a b scl2)

-- ===== the searches

section Searches

variable {D : Type*} [LinearOrder D]

/-- The distance of an element, asked for with a bound. -/
abbrev BoundedDist (D : Type*) := ℕ → WithTop D → D

variable (g : Links) (distTo : BoundedDist D) (ef layer : ℕ)

/-- The best element so far, and whether it is a new one. -/
structure Greedy (D : Type*) where
  best : D
  curr : ℕ
  changed : Bool

/-- One link in the descent. -/
def greedyVisit (s : Greedy D) (n : ℕ) : Greedy D :=
  if distTo n s.best < s.best then ⟨distTo n s.best, n, true⟩ else s

/-- The loop of `greedy`, which is given a number of rounds. -/
def greedyLoop : ℕ → D → ℕ → Option ℕ
  | 0, _, _ => none
  | fuel + 1, best, curr =>
    (g.neighbors curr layer).bind fun nbrs =>
      let s := nbrs.foldl (greedyVisit distTo) ⟨best, curr, false⟩
      if s.changed then greedyLoop fuel s.best s.curr else some s.curr

def greedy (fuel curr : ℕ) : Option ℕ :=
  greedyLoop g distTo layer fuel (distTo curr ⊤) curr

/-- A link is collected if it was not visited. It is then. -/
def collectLink (s : List ℕ × VisitedTags) (n : ℕ) :
    Option (List ℕ × VisitedTags) :=
  (s.2.testAndSet n).map fun out =>
    (if out.1 then s.1 else s.1 ++ [n], out.2)

def collectUnseen (nbrs : List ℕ) (visited : VisitedTags) :
    Option (List ℕ × VisitedTags) :=
  nbrs.foldlM collectLink ([], visited)

/-- The bound for the next distance: once the beam is full, its worst. -/
def beamBound (heaps : Heaps D) : WithTop D :=
  if ef ≤ heaps.results.length then heaps.worst.elim ⊤ WithTop.some else ⊤

/-- One of the links that were not visited. -/
def bulkOffer (heaps : Heaps D) (n : ℕ) : Heaps D :=
  heaps.offer ef true (distTo n (beamBound ef heaps)) n

def bulkExpand (s : Beam D) (c : Hit D) : Option (Beam D) :=
  (g.neighbors c.id layer).bind fun nbrs =>
    (collectUnseen nbrs s.visited).map fun out =>
      { heaps := out.1.foldl (bulkOffer distTo ef) s.heaps
        visited := out.2 }

/-- The state in which the loop begins. -/
def bulkStart (entryPoint : ℕ) (visited : VisitedTags) : Option (Beam D) :=
  ((visited.start g.total).testAndSet entryPoint).map fun out =>
    { heaps :=
        { results := [.mk (distTo entryPoint ⊤) entryPoint]
          cands := [.mk (distTo entryPoint ⊤) entryPoint] }
      visited := out.2 }

/-- `BulkBuilder::search_layer`. -/
def bulkSearchLayer (fuel entryPoint : ℕ) (visited : VisitedTags) :
    Option (List (Hit D) × VisitedTags) :=
  ((bulkStart g distTo entryPoint visited).bind
      (beamLoop ef (bulkExpand g distTo ef layer) fuel)).map fun s =>
    (s.heaps.sorted, s.visited)

/-- The loop of `select_neighbors`, with the distance between two
elements. -/
def selectLoop (distTo : ℕ → BoundedDist D) (m : ℕ) :
    List (Hit D) → List ℕ → List ℕ
  | [], result => result
  | c :: rest, result =>
    if m ≤ result.length then result
    else if result.any fun r => distTo c.id r c.dist < c.dist then
      selectLoop distTo m rest result
    else selectLoop distTo m rest (result ++ [c.id])

def selectNeighbors (distTo : ℕ → BoundedDist D) (m : ℕ)
    (candsSorted : List (Hit D)) : List ℕ :=
  if candsSorted.length ≤ m then candsSorted.map Hit.id
  else selectLoop distTo m candsSorted []

end Searches

-- ===== the builder

/-- The parts of a `BulkBuilder` that the searches read. -/
structure BulkBuilder where
  simd : Simd
  links : Links
  dim : ℕ
  codes : List (BitVec 8)
  scl2 : List ℚ
  /-- The vectors are quantized, and the metric is L2. -/
  sq8L2 : Bool
  /-- The distance of two elements otherwise. -/
  dist : ℕ → ℕ → ℚ

namespace BulkBuilder

variable (b : BulkBuilder)

/-- The codes of an element. -/
def codesOf (id : ℕ) : List (BitVec 8) :=
  (b.codes.drop (id * b.dim)).take b.dim

/-- The distance of an element from another. -/
def distTo (q id : ℕ) (bound : WithTop ℚ) : ℚ :=
  if b.sq8L2 then
    sq8L2SqCodes b.simd (b.codesOf q) (b.codesOf id) b.scl2 bound
  else b.dist q id

end BulkBuilder

end BarqSync.Vector
