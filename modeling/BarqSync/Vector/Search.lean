/-
The beam search in one layer of the graph of a vector index
(index_vector.cpp).

# The graph

The links of an element in a layer are a block of an array: their number,
and then the ids. Layer 0 has a block for each element, and the layers
above have those of an element one after the other. A read outside an
array has no result.

# The search

Elements that were not visited before are compared to the query, and wait
as candidates, closest first. The results are the closest ones that are
admitted, the worst on top. A heap is a list in the order in which the
elements are popped. Which distances there are is a parameter; pairs of a
distance and an id are ordered by the distance and then by the id.

# Fuel

The outer loop is given a number of rounds.
-/
import Mathlib.Data.List.Sort
import Mathlib.Data.Prod.Lex
import Mathlib.Algebra.Ring.Nat

namespace BarqSync.Vector

-- ===== visited tags

/-- `VisitedTags`. No tag is of a later epoch. -/
structure VisitedTags where
  tags : List (BitVec 32)
  epoch : BitVec 32
  le_epoch : ∀ tag ∈ tags, tag ≤ epoch

namespace VisitedTags

def empty : VisitedTags := ⟨[], 0, fun _ h => absurd h List.not_mem_nil⟩

/-- The tags, of which there is one for each element. -/
def resized (v : VisitedTags) (n : ℕ) : List (BitVec 32) :=
  v.tags ++ List.replicate (n - v.tags.length) 0

theorem resized_le_epoch (v : VisitedTags) (n : ℕ) :
    ∀ tag ∈ v.resized n, tag ≤ v.epoch := by
  refine List.forall_mem_append.2 ⟨v.le_epoch, fun tag hnew => ?_⟩
  rw [(List.mem_replicate.1 hnew).2]
  exact Nat.zero_le _

theorem lt_epoch_add_one {tag epoch : BitVec 32} (h : tag ≤ epoch)
    (hwrap : epoch + 1 ≠ 0) : tag < epoch + 1 := by
  have hne : (epoch + 1).toNat ≠ 0 := fun h =>
    hwrap (BitVec.eq_of_toNat_eq h)
  rw [BitVec.le_def] at h
  rw [BitVec.lt_def]
  rw [BitVec.toNat_add] at hne ⊢
  have hlt := epoch.isLt
  have hone : (1 : BitVec 32).toNat = 1 := rfl
  omega

theorem set_le_epoch (v : VisitedTags) (id : ℕ) :
    ∀ tag ∈ v.tags.set id v.epoch, tag ≤ v.epoch := by
  intro tag htag
  rcases List.mem_or_eq_of_mem_set htag with hold | hnew
  · exact v.le_epoch tag hold
  · exact hnew ▸ Nat.le_refl _

/-- `begin`: a new epoch, in which nothing is visited. -/
def start (v : VisitedTags) (n : ℕ) : VisitedTags :=
  if hwrap : v.epoch + 1 = 0 then
    ⟨(v.resized n).map fun _ => 0, 1, fun _ h => by
      obtain ⟨_, _, heq⟩ := List.mem_map.1 h
      exact heq ▸ Nat.zero_le _⟩
  else
    ⟨v.resized n, v.epoch + 1, fun tag h =>
      Nat.le_of_lt (lt_epoch_add_one (v.resized_le_epoch n tag h) hwrap)⟩

/-- Whether the element is visited already. It is then. -/
def testAndSet (v : VisitedTags) (id : ℕ) : Option (Bool × VisitedTags) :=
  v.tags[id]?.map fun tag =>
    if tag = v.epoch then (true, v)
    else (false, ⟨v.tags.set id v.epoch, v.epoch, v.set_le_epoch id⟩)

end VisitedTags

-- ===== the links

/-- The parts of the persisted trees that make up the graph. -/
structure Links where
  m : ℕ
  total : ℕ
  levels : List ℕ
  links0 : List ℕ
  upperOfs : List ℕ
  linksUpper : List ℕ

namespace Links

variable (g : Links)

def stride0 : ℕ := 2 * g.m + 1

def strideUp : ℕ := g.m + 1

/-- The ids of the block at some place of an array. -/
def block (tree : List ℕ) (base : ℕ) : Option (List ℕ) :=
  tree[base]?.bind fun cnt =>
    if base + 1 + cnt ≤ tree.length then
      some ((tree.drop (base + 1)).take cnt)
    else none

def neighbors (id layer : ℕ) : Option (List ℕ) :=
  if layer = 0 then block g.links0 (id * g.stride0)
  else g.upperOfs[id]?.bind fun first =>
    block g.linksUpper ((first + layer - 1) * g.strideUp)

end Links

-- ===== the heaps

/-- `Hit`: a distance and an id. -/
abbrev Hit (D : Type*) := D ×ₗ ℕ

namespace Hit

variable {D : Type*}

def mk (d : D) (id : ℕ) : Hit D := toLex (d, id)

def dist (hit : Hit D) : D := (ofLex hit).1

def id (hit : Hit D) : ℕ := (ofLex hit).2

end Hit

/-- The results, the worst first, and the candidates, the closest first. -/
structure Heaps (D : Type*) where
  results : List (Hit D)
  cands : List (Hit D)

namespace Heaps

variable {D : Type*} [LinearOrder D] (ef : ℕ) (heaps : Heaps D)

/-- The distance of the worst result, if there is any. -/
def worst : Option D := heaps.results.head?.map Hit.dist

/-- The results after one was emplaced, and the worst popped if there are
too many. -/
def emplaced (hit : Hit D) : List (Hit D) :=
  let results := heaps.results.orderedInsert (· ≥ ·) hit
  if ef < results.length then results.tail else results

/-- A distance that the beam has a place for. -/
def hasPlace (d : D) : Bool :=
  heaps.results.length < ef ∨ ∃ w ∈ heaps.worst, d < w

/-- An element at some distance is taken, if there is a place for it. -/
def offer (admitted : Bool) (d : D) (id : ℕ) : Heaps D :=
  if heaps.hasPlace ef d then
    { results := if admitted then heaps.emplaced ef (.mk d id)
        else heaps.results
      cands := heaps.cands.orderedInsert (· ≤ ·) (.mk d id) }
  else heaps

/-- The beam is full, and a candidate is worse than all of it. -/
def isBeyond (c : Hit D) : Bool :=
  ef ≤ heaps.results.length ∧ ∃ w ∈ heaps.worst, w < c.dist

/-- The results, closest first: they are popped from the back. -/
def sorted : List (Hit D) := heaps.results.reverse

end Heaps

-- ===== the search

/-- The state of a search. -/
structure Beam (D : Type*) where
  heaps : Heaps D
  visited : VisitedTags

section Search

variable {D : Type*} [LinearOrder D]

/-- The outer loop, in which candidates are popped and expanded. -/
def beamLoop (ef : ℕ) (expand : Beam D → Hit D → Option (Beam D)) :
    ℕ → Beam D → Option (Beam D)
  | 0, _ => none
  | fuel + 1, s =>
    match s.heaps.cands with
    | [] => some s
    | c :: cands =>
      if s.heaps.isBeyond ef c then some s
      else
        (expand { s with heaps := { s.heaps with cands := cands } } c).bind
          (beamLoop ef expand fuel)

variable (g : Links) (dist : ℕ → D) (admits : ℕ → Bool) (ef layer : ℕ)

/-- One link of the element that is expanded. -/
def visitNeighbor (s : Beam D) (n : ℕ) : Option (Beam D) :=
  (s.visited.testAndSet n).map fun out =>
    { heaps := if out.1 then s.heaps
        else s.heaps.offer ef (admits n) (dist n) n
      visited := out.2 }

/-- The candidate that was popped is expanded. -/
def expand (s : Beam D) (c : Hit D) : Option (Beam D) :=
  (g.neighbors c.id layer).bind fun nbrs =>
    nbrs.foldlM (visitNeighbor dist admits ef) s

def searchLoop : ℕ → Beam D → Option (Beam D) :=
  beamLoop ef (expand g dist admits ef layer)

/-- The state in which the loop begins. -/
def searchStart (entryPoint : ℕ) (visited : VisitedTags) :
    Option (Beam D) :=
  ((visited.start g.total).testAndSet entryPoint).map fun out =>
    { heaps :=
        { results := if admits entryPoint then
            [.mk (dist entryPoint) entryPoint] else []
          cands := [.mk (dist entryPoint) entryPoint] }
      visited := out.2 }

/-- `search_layer`, with the tags that it leaves. -/
def searchLayer (fuel entryPoint : ℕ) (visited : VisitedTags) :
    Option (List (Hit D) × VisitedTags) :=
  ((searchStart g dist admits entryPoint visited).bind
      (searchLoop g dist admits ef layer fuel)).map fun s =>
    (s.heaps.sorted, s.visited)

end Search

end BarqSync.Vector
