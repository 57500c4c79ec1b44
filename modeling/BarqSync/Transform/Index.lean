/-
The index of the incoming changesets (`sync/noinst/changeset_index.cpp`):
which of their instructions a local instruction has to be merged with.

# Conflict groups

Objects that an instruction connects by a link, and classes that a link
column connects, are in one CONFLICT GROUP. `scanChangeset` builds the
groups from the changesets of both sides, before `addChangeset` records
in each group where the incoming instructions on its members are. The
source keeps two maps, from objects and from class names, into a list of
groups that it owns; here the keys of both are SUBJECTS of one map, and a
pointer to a group is its number.

# Ranges

The positions of a group are kept as ranges, one sorted and coalesced
list for each changeset, in a map sorted by (version, sequence). A
`RangeIterator` goes through them in that order (`Ranges.positions`).

# Destructive schema changes

Where a changeset erases a table or a column there are no groups, and
everything is merged with everything.
-/
import BarqSync.Transform.Merge

namespace BarqSync

-- ===== changesets

/-- `CompareChangesetPointersByVersion` compares these two fields of a
changeset. -/
structure Key where
  version : ℕ
  transformSequence : ℕ
deriving DecidableEq, Repr

def Key.lt (a b : Key) : Bool :=
  if a.version = b.version then a.transformSequence < b.transformSequence
  else a.version < b.version

/-- `Changeset`: its instructions with their strings resolved, and
tombstones where instructions were erased. -/
structure Changeset where
  key : Key
  side : Side
  instructions : List (Option Instr)

variable (idx : ChangesetIndex) (c : Changeset)

/-- The instructions that are not tombstones. -/
def Changeset.live : List Instr := c.instructions.reduceOption

-- ===== ranges

/-- `Changeset::Range`: the positions from `begin` up to `end`. -/
abbrev Range := ℕ × ℕ

/-- `ChangesetIndex::Ranges`. -/
abbrev Ranges := List (Key × List Range)

/-- Where an instruction is: its changeset and its position there. -/
abbrev Label := Key × ℕ

/-- Merge a range with the ones behind it that it overlaps or touches. -/
def coalesce (r : Range) : List Range → List Range
  | [] => [r]
  | next :: rest =>
    if next.1 ≤ r.2 then coalesce (r.1, max r.2 next.2) rest
    else r :: coalesce next rest

/-- Insert a range at its lower bound and coalesce from the range in
front of it on. -/
def insertRange (incoming : Range) (ranges : List Range) : List Range :=
  let before := ranges.takeWhile fun r => r.1 < incoming.1
  let behind := ranges.dropWhile fun r => r.1 < incoming.1
  match before.getLast? with
  | none => coalesce incoming behind
  | some last => before.dropLast ++ coalesce last (incoming :: behind)

/-- `ranges[changeset] = f(ranges[changeset])`, on a sorted map. -/
def Ranges.modify (key : Key) (f : List Range → List Range) :
    Ranges → Ranges
  | [] => [(key, f [])]
  | (k, rs) :: rest =>
    if key.lt k then (key, f []) :: (k, rs) :: rest
    else if k.lt key then (k, rs) :: Ranges.modify key f rest
    else (k, f rs) :: rest

/-- `add_instruction_at`. -/
def addInstructionAt (ranges : Ranges) (key : Key) (pos : ℕ) : Ranges :=
  ranges.modify key (insertRange (pos, pos + 1))

/-- The positions of a range. -/
def Range.positions (r : Range) : List ℕ := List.range' r.1 (r.2 - r.1)

/-- What a `RangeIterator` goes through, in its order. -/
def Ranges.positions (ranges : Ranges) : List Label :=
  ranges.flatMap fun p => p.2.flatMap fun r => r.positions.map fun i => (p.1, i)

-- ===== conflict groups

/-- What a conflict group is about: objects and classes. -/
inductive Subject
  | object (id : ObjectRef)
  | schema (className : Bytes)
deriving DecidableEq

/-- `ChangesetIndex::ConflictGroup`. -/
structure ConflictGroup where
  ranges : Ranges
  subjects : List Subject
  size : ℕ

/-- `ChangesetIndex`: the group of each subject by its number, and the
groups. -/
structure ChangesetIndex where
  instructions : Subject → Option ℕ
  groups : ℕ → Option ConflictGroup
  nextGroup : ℕ
  everything : Ranges
  containsDestructiveSchemaChanges : Bool

/-- A new index. -/
def ChangesetIndex.empty : ChangesetIndex :=
  ⟨fun _ => none, fun _ => none, 0, [], false⟩

/-- `clear`, and from then on everything conflicts with everything. -/
def ChangesetIndex.destruct : ChangesetIndex :=
  { idx with
    instructions := fun _ => none
    groups := fun _ => none
    containsDestructiveSchemaChanges := true }

/-- `schema_conflict_group` and `object_conflict_group`: the group of a
subject, which is made if there is none. -/
def ChangesetIndex.conflictGroup (x : Subject) : ChangesetIndex × ℕ :=
  match idx.instructions x with
  | some g => (idx, g)
  | none =>
    ({ idx with
        instructions := Function.update idx.instructions x
          (some idx.nextGroup)
        groups := Function.update idx.groups idx.nextGroup
          (some ⟨[], [x], 1⟩)
        nextGroup := idx.nextGroup + 1 }, idx.nextGroup)

/-- Merge the group `source` into the group `into`, and delete it. -/
def ChangesetIndex.absorb (into source : ℕ)
    (a b : ConflictGroup) : Except MergeError ChangesetIndex :=
  if a.ranges ≠ [] then .error (.assertion "into.ranges.empty()")
  else if b.ranges ≠ [] then .error (.assertion "from.ranges.empty()")
  else .ok { idx with
    instructions := fun x =>
      if x ∈ b.subjects then some into else idx.instructions x
    groups := Function.update (Function.update idx.groups into
        (some { a with
          subjects := a.subjects ++ b.subjects
          size := a.size + b.size })) source none }

/-- `merge_conflict_groups`: the smaller group goes into the larger. -/
def ChangesetIndex.mergeConflictGroups
    (into source : ℕ) : Except MergeError ChangesetIndex :=
  if into = source then .ok idx
  else
    match idx.groups into, idx.groups source with
    | some a, some b =>
      if b.size > a.size then idx.absorb source into b a
      else idx.absorb into source a b
    | _, _ => .error (.assertion "dangling conflict group")

/-- The groups of two subjects, made one. -/
def ChangesetIndex.connect (x y : Subject) :
    Except MergeError ChangesetIndex :=
  let (idx, g) := idx.conflictGroup x
  let (idx, g') := idx.conflictGroup y
  idx.mergeConflictGroups g g'

-- ===== scanning

/-- `get_object_ids_in_instruction`: the object of an instruction, and
the target of a link it stores. -/
def objectIdsInInstruction : Instr → List ObjectRef
  | .createObject t k => [objectRef t k]
  | .eraseObject t k => [objectRef t k]
  | .path p =>
    objectRef p.table p.object ::
      match p.op with
      | .update (.link t k) _ _ => [objectRef t k]
      | .arrayInsert (.link t k) _ => [objectRef t k]
      | _ => []
  | _ => []

/-- `is_schema_change`. -/
def isSchemaChange : Instr → Bool
  | .createObject .. => false
  | .eraseObject .. => false
  | .path _ => false
  | _ => true

/-- `scan_changeset`, for one instruction. -/
def ChangesetIndex.scanInstruction (i : Instr) :
    Except MergeError ChangesetIndex :=
  if idx.containsDestructiveSchemaChanges then .ok idx
  else
    match i with
    | .addTable t _ => .ok (idx.conflictGroup (.schema t.data)).1
    | .eraseTable _ => .ok idx.destruct
    | .addColumn t _ type _ _ target _ =>
      if type = .link then
        idx.connect (.schema t.data) (.schema target.data)
      else .ok (idx.conflictGroup (.schema t.data)).1
    | .eraseColumn _ _ => .ok idx.destruct
    | _ =>
      match objectIdsInInstruction i with
      | [a] => .ok (idx.conflictGroup (.object a)).1
      | [a, b] => idx.connect (.object a) (.object b)
      | _ => .error (.assertion "num_ids >= 1")

/-- `scan_changeset`. -/
def ChangesetIndex.scanChangeset : Except MergeError ChangesetIndex :=
  c.live.foldlM ChangesetIndex.scanInstruction idx

-- ===== indexing

/-- Record an instruction in the group of its first subject. A second one
must be in the same group. -/
def ChangesetIndex.record (label : Label)
    (x : Subject) (other : Option Subject) (condition : String) :
    Except MergeError ChangesetIndex := do
  let (idx, g) := idx.conflictGroup x
  let idx ←
    match other with
    | none => .ok idx
    | some y =>
      let (idx, g') := idx.conflictGroup y
      if g' = g then .ok idx else .error (.assertion condition)
  .ok { idx with
    groups := Function.update idx.groups g ((idx.groups g).map fun cg =>
        { cg with ranges := addInstructionAt cg.ranges label.1 label.2 }) }

/-- `add_changeset`, for one instruction. -/
def ChangesetIndex.addInstruction (label : Label)
    (i : Instr) : Except MergeError ChangesetIndex :=
  match i with
  | .addTable t _ => idx.record label (.schema t.data) none ""
  | .addColumn t _ type _ _ target _ =>
    idx.record label (.schema t.data)
      (if type = .link then some (.schema target.data) else none)
      "&cg == &schema_conflict_group(log.get_string(p.link_target_table))"
  | .eraseTable _ =>
    .error (.assertion "Call scan_changeset() before add_changeset().")
  | .eraseColumn _ _ =>
    .error (.assertion "Call scan_changeset() before add_changeset().")
  | _ =>
    match objectIdsInInstruction i with
    | a :: others =>
      idx.record label (.object a) (others.head?.map Subject.object)
        "&cg == &object_conflict_group(ids[i])"
    | [] => .error (.assertion "num_ids >= 1")

/-- The instructions of a changeset with their positions. -/
def Changeset.labelled : List (Label × Option Instr) :=
  c.instructions.zipIdx.map fun p => ((c.key, p.2), p.1)

/-- `add_changeset`, for one position; a tombstone is skipped. -/
def ChangesetIndex.addItem
    (item : Label × Option Instr) : Except MergeError ChangesetIndex :=
  match item.2 with
  | none => .ok idx
  | some i => idx.addInstruction item.1 i

/-- `add_changeset`. -/
def ChangesetIndex.addChangeset : Except MergeError ChangesetIndex :=
  let idx := if c.live.isEmpty then idx
    else { idx with
      everything := idx.everything.modify c.key
        fun _ => [(0, c.instructions.length)] }
  if idx.containsDestructiveSchemaChanges then .ok idx
  else c.labelled.foldlM ChangesetIndex.addItem idx

-- ===== queries

/-- `get_modifications_for_object`. -/
def ChangesetIndex.modificationsForObject (id : ObjectRef) : Ranges :=
  if idx.containsDestructiveSchemaChanges then idx.everything
  else
    match idx.instructions (.object id) with
    | none => []
    | some g => ((idx.groups g).map ConflictGroup.ranges).getD []

/-- `get_conflict_ranges_for_instruction`. -/
def ChangesetIndex.conflictRanges (i : Instr) : Except MergeError Ranges :=
  if isSchemaChange i then .ok idx.everything
  else
    match objectIdsInInstruction i with
    | [a] => .ok (idx.modificationsForObject a)
    | [a, b] =>
      -- The source compares the addresses of the two range maps.
      if idx.containsDestructiveSchemaChanges
          ∨ idx.instructions (.object a) = idx.instructions (.object b) then
        .ok (idx.modificationsForObject a)
      else .error (.assertion
        "ranges == index.get_modifications_for_object(major_ids[1])")
    | _ => .error (.assertion "num_major_ids >= 1")

end BarqSync
