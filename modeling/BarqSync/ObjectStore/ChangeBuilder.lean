/-
The change sets that collection notifications report, and how they are
recorded (object-store/impl/collection_change_builder).

# Coordinates

`deletions` are positions in the old collection. `insertions`,
`modifications`, the columns and the targets of moves are positions in
the new one, so every recorded operation renumbers them. The source of a
move is a position in the old collection.

# What is left out

`modifications_new` and `paths`, which recording neither reads nor
writes, merging two change sets, the calculation of a change set from
two lists, and the debug verification. A failed assertion makes an
operation fail.
-/
import BarqSync.ObjectStore.IndexSet

namespace BarqSync.ObjectStore

open ChunkedRangeVector

/-- `CollectionChangeSet::Move`, from `source` to `target`. -/
structure Move where
  source : ℕ
  target : ℕ
deriving DecidableEq, Repr

/-- `CollectionChangeBuilder`, with the fields of the change set. The
columns are kept under their keys. -/
structure CollectionChangeBuilder (build : Build) where
  deletions : IndexSet build := ⟨[]⟩
  insertions : IndexSet build := ⟨[]⟩
  modifications : IndexSet build := ⟨[]⟩
  moves : List Move := []
  collectionRootWasDeleted : Bool := false
  collectionWasCleared : Bool := false
  columns : List (ℤ × IndexSet build) := []
  trackColumns : Bool := true
deriving DecidableEq

namespace CollectionChangeBuilder

variable {build : Build} (c : CollectionChangeBuilder build)

/-- `columns[key]`, which makes an empty set for a new key. -/
def column (key : ℤ) : IndexSet build :=
  ((c.columns.find? fun col => col.1 = key).map Prod.snd).getD ⟨[]⟩

/-- `columns[key] = col`. -/
def setColumn (key : ℤ) (col : IndexSet build) :
    List (ℤ × IndexSet build) :=
  (key, col) :: c.columns.filter fun col => col.1 ≠ key

/-- A change of each set of some columns. -/
def mapColumns (f : IndexSet build → Option (IndexSet build)) :
    List (ℤ × IndexSet build) → Option (List (ℤ × IndexSet build))
  | [] => some []
  | (key, col) :: cols =>
    (f col).bind fun col => (mapColumns f cols).map ((key, col) :: ·)

/-- `for_each_col`: the modifications, and the columns if they are
tracked. -/
def forEachCol (f : IndexSet build → Option (IndexSet build)) :
    Option (CollectionChangeBuilder build) :=
  (f c.modifications).bind fun modifications =>
    if c.trackColumns then
      (mapColumns f c.columns).map fun columns =>
        { c with modifications := modifications, columns := columns }
    else some { c with modifications := modifications }

/-- `modify(ndx, col)`; no column stands for `npos`. -/
def modify (ndx : ℕ) (col : Option ℤ) : CollectionChangeBuilder build :=
  let modified := { c with modifications := c.modifications.add ndx }
  col.elim modified fun key =>
    if ¬ c.trackColumns then modified
    else { modified with
      columns := c.setColumn key ((c.column key).add ndx) }

/-- `insert(index, count, track_moves)`. -/
def insert (index count : ℕ) (trackMoves : Bool := true) :
    Option (CollectionChangeBuilder build) :=
  if count = 0 then none
  else
    (c.forEachCol fun col => col.shiftForInsertAt index count).bind
      fun c =>
        if ¬ trackMoves then some c
        else
          (c.insertions.insertAt index count).map fun insertions =>
            { c with
              insertions := insertions
              moves := c.moves.map fun move =>
                if index ≤ move.target then
                  { move with target := move.target + count }
                else move
              collectionWasCleared := false }

/-- The loop over the moves of `erase`. -/
def eraseMoves (index : ℕ) : List Move → List Move
  | [] => []
  | move :: moves =>
    if move.target = index then eraseMoves index moves
    else if index < move.target then
      { move with target := move.target - 1 } :: eraseMoves index moves
    else move :: eraseMoves index moves

/-- `erase(index)`. -/
def erase (index : ℕ) : Option (CollectionChangeBuilder build) :=
  (c.forEachCol fun col => some (col.eraseAt index)).map fun c =>
    let unshifted := c.insertions.eraseOrUnshift index
    { c with
      insertions := unshifted.1
      deletions := unshifted.2.elim c.deletions fun unshifted =>
        (c.deletions.addShifted unshifted).1
      moves := eraseMoves index c.moves }

/-- `clear(old_size)`. -/
def clear (oldSize : ℕ) : CollectionChangeBuilder build :=
  { c with
    modifications := IndexSet.clear
    insertions := IndexSet.clear
    moves := []
    columns := []
    deletions := c.deletions.setLen
      (oldSize + Ranges.total c.deletions.ranges
        - Ranges.total c.insertions.ranges)
    collectionWasCleared := true }

/-- What the loop of `move` does to a move of another row. -/
def shiftMove (source target : ℕ) (move : Move) : Move :=
  if target ≤ move.target ∧ move.target < source then
    { move with target := move.target + 1 }
  else if move.target ≤ target ∧ source < move.target then
    { move with target := move.target - 1 }
  else move

/-- The change of each column in `move`. -/
def moveColumn (source target : ℕ) (col : IndexSet build) :
    Option (IndexSet build) :=
  if col.contains source then (col.eraseAt source).insertAt target
  else (col.eraseAt source).shiftForInsertAt target

/-- `move(from, to)`. -/
def move (source target : ℕ) : Option (CollectionChangeBuilder build) :=
  let existing := c.moves.countP fun move => move.target = source
  let moves := c.moves.map fun move =>
    if move.target ≠ source then shiftMove source target move
    else { move with target := target }
  if source = target ∨ 1 < existing then none
  else
    (if existing = 1 then
      -- a row that moved before moves on
      ((c.insertions.eraseAt source).insertAt target).map fun insertions =>
          { c with insertions := insertions, moves := moves }
    else
      let shifted := c.insertions.eraseOrUnshift source
      (shifted.1.insertAt target).map fun insertions =>
        shifted.2.elim
          { c with insertions := insertions, moves := moves }
          fun shiftedFrom =>
            let deleted := c.deletions.addShifted shiftedFrom
            { c with
              insertions := insertions
              deletions := deleted.1
              moves := moves ++ [⟨deleted.2, target⟩] }).bind
      fun c => c.forEachCol (moveColumn source target)

end CollectionChangeBuilder

end BarqSync.ObjectStore
