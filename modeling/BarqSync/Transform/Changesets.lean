/-
`Transformer::merge_changesets`: the local changesets through the incoming
ones.

# The loops

`TransformerImpl::transform` takes the live instructions of a local
changeset one by one (the MAJOR side). For each it asks the index for the
incoming instructions in its conflict group (the MINOR side), and
`transformMajor` merges it with those in order, until they end or it is
discarded.

# Cells

An incoming instruction stays at its position, where a rule may erase it,
rewrite it or put another one in front of it: a position is a CELL of
instructions, empty for a tombstone (`InstructionContainer`). The cells a
range iterator goes through are taken out as one list (`selectCells`), and
what is left of them is put back (`putBack`).

# Prepended instructions

An instruction that a rule puts in front of the major one goes through
the rest of the minor side first (`transform_prepended_major`), which may
change it; the number of minor instructions ahead bounds the recursion.
-/
import BarqSync.Ot.Grid
import BarqSync.Transform.Index

namespace BarqSync

/-- A position of an incoming changeset with the instructions there. -/
structure Cell where
  label : Label
  side : Side
  instrs : List Instr

/-- An incoming instruction where the iterator finds it. -/
structure Slotted where
  label : Label
  side : Side
  instr : Instr

/-- The cells of a changeset that was not merged yet. -/
def Changeset.cells (c : Changeset) : List Cell :=
  c.labelled.map fun p => ⟨p.1, c.side, p.2.toList⟩

/-- The instructions of a cell. -/
def Cell.slots (c : Cell) : List Slotted :=
  c.instrs.map fun i => ⟨c.label, c.side, i⟩

/-- What an iterator over the positions finds; tombstones are skipped. -/
def selectCells (positions : List Label) (cells : List Cell) :
    List Slotted :=
  positions.flatMap fun p =>
    (cells.filter fun c => c.label = p).flatMap Cell.slots

/-- The cells with what is left at the positions. -/
def putBack (positions : List Label) (slots : List Slotted)
    (cells : List Cell) : List Cell :=
  cells.map fun c =>
    if c.label ∈ positions then
      { c with
        instrs := (slots.filter fun s => s.label = c.label).map Slotted.instr }
    else c

/-- `transform_major` and `transform_prepended_major`: one instruction
through a list of incoming ones. The instructions it becomes, and what is
left of the incoming ones. -/
def transformMajor (ls : Side) :
    ℕ → Instr → List Slotted → Except MergeError (List Instr × List Slotted)
  | _, l, [] => .ok ([l], [])
  | 0, _, _ :: _ => .error (.assertion "m_minor_side.m_position != m_minor_end")
  | n + 1, l, r :: rest => do
      let o ← mergeInstructions ls r.side l r.instr
      let prepended ← o.leftPrepend.foldlM (fun acc p => do
        let q ← transformMajor ls n p acc.2
        .ok (acc.1 ++ q.1, q.2)) ([], rest)
      let q ←
        match o.left with
        -- A discarded instruction ends the loop.
        | none => .ok ([], prepended.2)
        | some l' => transformMajor ls n l' prepended.2
      .ok (prepended.1 ++ q.1,
        (o.rightPrepend ++ o.right.toList).map (fun i => { r with instr := i })
          ++ q.2)

/-- The instructions of one local changeset in turn; `ranges` chooses what
an instruction is merged with. -/
def transformWith (ranges : Instr → Except MergeError (List Label))
    (ls : Side) : List Instr → List Cell →
      Except MergeError (List Instr × List Cell)
  | [], cells => .ok ([], cells)
  | l :: rest, cells => do
      let positions ← ranges l
      let slots := selectCells positions cells
      let p ← transformMajor ls slots.length l slots
      let q ← transformWith ranges ls rest (putBack positions p.2 cells)
      .ok (p.1 ++ q.1, q.2)

/-- The local changesets in turn. -/
def transformAll (ranges : Instr → Except MergeError (List Label)) :
    List Changeset → List Cell →
      Except MergeError (List Changeset × List Cell)
  | [], cells => .ok ([], cells)
  | c :: rest, cells => do
      let p ← transformWith ranges c.side c.live cells
      let q ← transformAll ranges rest p.2
      .ok ({ c with instructions := p.1.map some } :: q.1, q.2)

/-- An incoming changeset, from its cells. -/
def Changeset.withCells (c : Changeset) (cells : List Cell) : Changeset :=
  { c with instructions :=
      ((cells.filter fun x => x.label.1 = c.key).flatMap Cell.instrs).map some }

/-- The index of a merge: both sides are scanned, the incoming one is
added. -/
def buildIndex (ours theirs : List Changeset) :
    Except MergeError ChangesetIndex := do
  let idx ← theirs.foldlM ChangesetIndex.scanChangeset .empty
  let idx ← ours.foldlM ChangesetIndex.scanChangeset idx
  theirs.foldlM ChangesetIndex.addChangeset idx

/-- The transformation of both sides, with a given choice of what meets
what. -/
def mergeThrough (ranges : Instr → Except MergeError (List Label))
    (ours theirs : List Changeset) :
    Except MergeError (List Changeset × List Changeset) := do
  let p ← transformAll ranges ours (theirs.flatMap Changeset.cells)
  .ok (p.1, theirs.map fun c => c.withCells p.2)

/-- `merge_changesets`. -/
def mergeChangesets (ours theirs : List Changeset) :
    Except MergeError (List Changeset × List Changeset) := do
  if ours.isEmpty then .error (.assertion "our_changesets.size() != 0")
  else if theirs.isEmpty then
    .error (.assertion "their_changesets.size() != 0")
  else
    let idx ← buildIndex ours theirs
    mergeThrough (fun l => Ranges.positions <$> idx.conflictRanges l) ours theirs

/-- The same without an index: every local instruction is merged with
every incoming one. -/
def mergeEverything (ours theirs : List Changeset) :
    Except MergeError (List Changeset × List Changeset) :=
  mergeThrough (fun _ => .ok (theirs.flatMap fun c => c.labelled.map Prod.fst))
    ours theirs

/-- Changesets applied in turn. -/
def applyChangesets (sch : Schema) (cs : List Changeset) (s : State) :
    Except ApplyError State :=
  Ot.runAll (fun i s => applyInstr sch s i) (cs.flatMap Changeset.live) s

end BarqSync
