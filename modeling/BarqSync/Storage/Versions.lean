/-
The versions of a database that are in use (db.cpp): the list of versions
in the lock file, and the version managers of the participants.

# The list

The list has a slot for each version. A slot without a version is free.
A new version goes to the first free slot, in four writes of which the
last makes it the newest; a writer that dies in between leaves a slot
that is marked as being allocated, and the next writer completes or
clears it.

# Participants

A participant counts its own locks, for each slot, and counts once in the
lock file for each slot and type of lock. Each call of a manager is one
step. A failed assertion has no result.

# Ghosts

The locks that a participant has not released, also when it has died, and
the versions that were added.

# What is left out

Counts and versions are natural numbers. The counts stay within the 32
bits of their fields (`Inv.counts_fit`); of the versions, the highest is
set aside. Mappings are given by the number of slots that they cover.
-/
import Mathlib.Algebra.Ring.Nat
import Mathlib.Logic.Function.Basic

namespace BarqSync.Storage

/-- `ReadLockInfo::Type`. -/
inductive LockType
  | frozen
  | live
  | full
deriving DecidableEq, Repr

/-- The highest version, which stands for none. -/
def maxVersion : ℕ := 2 ^ 64 - 1

/-- `VersionList::ReadCount`. -/
structure ReadCount where
  version : ℕ := 0
  filesize : ℕ := 0
  currentTop : ℕ := 0
  countLive : ℕ := 0
  countFrozen : ℕ := 0
  countFull : ℕ := 0
deriving DecidableEq, Repr

namespace ReadCount

variable (r : ReadCount)

def isActive : Bool := r.version ≠ 0

def deactivate : ReadCount :=
  { r with version := 0, countLive := 0, countFrozen := 0, countFull := 0 }

/-- `field_for_type`. -/
def fieldForType : LockType → ℕ
  | .frozen => r.countFrozen
  | .live => r.countLive
  | .full => r.countFull

/-- A write to the field. -/
def setField (count : ℕ) : LockType → ReadCount
  | .frozen => { r with countFrozen := count }
  | .live => { r with countLive := count }
  | .full => { r with countFull := count }

/-- No lock is counted. -/
def unlocked : Bool :=
  r.countFrozen = 0 ∧ r.countLive = 0 ∧ r.countFull = 0

/-- `free_entry`. -/
def freeEntry : ReadCount :=
  { r with currentTop := maxVersion, filesize := maxVersion }.deactivate

end ReadCount

-- ===== the list

/-- `VersionList`. -/
structure VersionList where
  data : ℕ → ReadCount
  entries : ℕ
  allocating : ℕ
  newest : ℕ

/-- The version, top ref and file size of an entry. -/
structure VersionInfo where
  version : ℕ
  topRef : ℕ
  filesize : ℕ
deriving DecidableEq, Repr

def ReadCount.info (r : ReadCount) : VersionInfo :=
  ⟨r.version, r.currentTop, r.filesize⟩

namespace VersionList

def nil : ℕ := 2 ^ 32 - 1

variable (list : VersionList)

def reserve (size : ℕ) : VersionList :=
  { list with
    data := fun i => if list.entries ≤ i ∧ i < size then
      (list.data i).deactivate else list.data i
    entries := max list.entries size }

def setEntry (i : ℕ) (r : ReadCount) : VersionList :=
  { list with data := Function.update list.data i r }

/-- The lowest free entry, or the number of entries. -/
def findFree : ℕ :=
  ((List.range list.entries).find? fun k => !(list.data k).isActive).getD
    list.entries

/-- The entry that `try_allocate_entry` takes. If the one that is being
allocated is not the newest, this completes the earlier allocation. -/
def chosen : Option ℕ :=
  if list.allocating = list.newest then
    if list.findFree = list.entries then none else some list.findFree
  else some list.allocating

/-- The writes of `try_allocate_entry`. -/
inductive AllocationPoint
  | begun
  | chosen
  | top
  | filesize
  | activated
deriving DecidableEq, Repr

/-- The list after the first writes, to the entry chosen. -/
def allocated (i : ℕ) (info : VersionInfo) : AllocationPoint → VersionList
  | .begun => list
  | .chosen => { list with allocating := i }
  | .top => { list with allocating := i }.setEntry i
    { list.data i with currentTop := info.topRef }
  | .filesize => { list with allocating := i }.setEntry i
    { list.data i with
      currentTop := info.topRef, filesize := info.filesize }
  | .activated => { list with allocating := i }.setEntry i
    { list.data i with
      currentTop := info.topRef, filesize := info.filesize
      version := info.version }

/-- The list after all of them. -/
def filled (i : ℕ) (info : VersionInfo) : Option VersionList :=
  if (list.data i).unlocked then
    some { list.allocated i info .activated with newest := i }
  else none

/-- `try_allocate_entry`, which may find no free entry. -/
def tryAllocateEntry (info : VersionInfo) : Option (Option VersionList) :=
  list.chosen.elim (some none) fun i => (list.filled i info).map some

/-- The list that the entry is allocated in, expanded if needed. -/
def expanded : VersionList :=
  if list.chosen.isNone then list.reserve (list.entries + 32) else list

/-- `add_version`. -/
def addVersion (info : VersionInfo) : Option VersionList :=
  (list.tryAllocateEntry info).bind fun result =>
    result.elim
      (((list.reserve (list.entries + 32)).tryAllocateEntry info).bind id)
      some

/-- `init_versioning`: all entries are deactivated first. -/
def initVersioning (info : VersionInfo) : Option VersionList :=
  let emptied : VersionList :=
    { list with newest := nil, allocating := 0, entries := 0 }
  ((emptied.reserve list.entries).tryAllocateEntry info).bind id

-- ===== the purge

/-- The entry that a crash left is cleared. -/
def repaired : VersionList :=
  if list.allocating ≠ list.newest then
    list.setEntry list.allocating (list.data list.allocating).deactivate
  else list

/-- The entries in use. -/
def active : List ReadCount :=
  ((List.range list.entries).map list.data).filter ReadCount.isActive

/-- The least of the versions of some entries. -/
def leastVersion (entries : List ReadCount) : ℕ :=
  entries.foldl (fun least r => min least r.version) maxVersion

def oldestFull : ℕ :=
  leastVersion (list.active.filter fun r => r.countFull ≠ 0)

/-- An entry whose version is reachable. -/
def reachable (r : ReadCount) : Bool :=
  r.countFrozen ≠ 0 ∨ r.countLive ≠ 0 ∨ list.oldestFull ≤ r.version

/-- `TopRefMap::emplace`. -/
def emplace (refs : List VersionInfo) (r : ReadCount) : List VersionInfo :=
  if refs.any fun info => info.version = r.version then refs
  else refs ++ [r.info]

def topRefs : List VersionInfo :=
  (list.active.filter list.reachable).foldl emplace []

def oldestLive : ℕ :=
  leastVersion (list.active.filter fun r =>
    r.countLive ≠ 0 ∨ list.oldestFull ≤ r.version)

/-- The first version of the map. -/
def oldestVersion : ℕ :=
  list.topRefs.foldl (fun least info => min least info.version) maxVersion

/-- An entry that becomes unreachable. -/
def unreachable (i : ℕ) : Bool :=
  i < list.entries ∧ (list.data i).isActive
    ∧ list.reachable (list.data i) = false

/-- What `purge_versions` reports to the writer. -/
structure Report where
  oldestLive : ℕ
  topRefs : List VersionInfo
  anyNewUnreachables : Bool
deriving DecidableEq, Repr

def report : Report :=
  { oldestLive := list.oldestLive
    topRefs := list.topRefs
    anyNewUnreachables := (List.range list.entries).any fun i =>
      list.unreachable i && list.oldestVersion < (list.data i).version }

/-- The list without the entries that became unreachable. -/
def freed : VersionList :=
  { list with
    data := fun i => if list.unreachable i then (list.data i).freeEntry
      else list.data i }

/-- `purge_versions`. -/
def purgeVersions : Option (Report × VersionList) :=
  let list := list.repaired
  if list.topRefs.isEmpty ∨ list.unreachable list.newest
      ∨ list.oldestVersion = maxVersion ∨ list.oldestLive = maxVersion then
    none
  else some (list.report, list.freed)

end VersionList

-- ===== participants

/-- `ReadLockInfo`. -/
structure ReadLockInfo where
  type : LockType
  readerIdx : ℕ
  info : VersionInfo
deriving DecidableEq, Repr

/-- `VersionID`. By default it picks no specific version. -/
structure VersionID where
  version : ℕ := maxVersion
  index : ℕ := 0
deriving DecidableEq, Repr

def VersionID.pickSpecific (id : VersionID) : Bool :=
  id.version ≠ maxVersion

/-- A `VersionManager`, with the locks that it has grabbed. -/
structure Participant where
  /-- `m_local_readers`. -/
  readers : ℕ → ReadCount
  /-- Its size. -/
  size : ℕ
  /-- `m_local_max_entry`. -/
  maxEntry : ℕ
  alive : Bool
  held : List ReadLockInfo

namespace Participant

def joined (list : VersionList) : Participant :=
  ⟨fun _ => {}, 0, list.entries, true, []⟩

variable (part : Participant)

/-- `ensure_reader_mapping`. -/
def ensureReaderMapping (list : VersionList) (required : ℕ) : Participant :=
  if required < part.maxEntry then part
  else { part with maxEntry := max part.maxEntry list.entries }

/-- `grow_local_cache`. -/
def growLocalCache (size : ℕ) : Participant :=
  if part.size < size then
    { part with
      readers := fun i => if i < part.size then part.readers i else {}
      size := size }
  else part

def setReader (i : ℕ) (r : ReadCount) : Participant :=
  { part with readers := Function.update part.readers i r }

/-- The index that is picked. -/
def pickedIndex (list : VersionList) (versionId : VersionID) : ℕ :=
  if versionId.pickSpecific then versionId.index else list.newest

/-- Whether a specific version was picked, and the entry has another. -/
def mismatch (versionId : VersionID) (r : ReadCount) : Bool :=
  versionId.pickSpecific ∧ versionId.version ≠ r.version

/-- The lock on an entry, and its count: `populate_read_lock`. -/
def populateReadLock (index : ℕ) (r : ReadCount) (type : LockType) :
    ReadLockInfo × ReadCount :=
  (⟨type, index, r.info⟩, r.setField (r.fieldForType type + 1) type)

/-- `try_grab_local_read_lock`. -/
def tryGrabLocalReadLock (list : VersionList) (type : LockType)
    (versionId : VersionID) : Option (ReadLockInfo × Participant) :=
  let index := pickedIndex list versionId
  let r := part.readers index
  if part.size ≤ index ∨ !r.isActive ∨ mismatch versionId r
      ∨ r.fieldForType type = 0 then none
  else
    let out := populateReadLock index r type
    some (out.1, part.setReader index out.2)

/-- The entry is not the newest, and is not locked so that another lock
can be had. -/
def refused (list : VersionList) (index : ℕ) (type : LockType) : Bool :=
  index ≠ list.newest
    ∧ (type = .frozen ∧ (list.data index).countFrozen = 0
        ∧ (list.data index).countLive = 0
      ∨ type ≠ .frozen ∧ (list.data index).countLive = 0)

/-- The local entry of a lock that was grabbed in the lock file. -/
def cachedReader (lock : ReadLockInfo) : ReadCount :=
  let r := part.readers lock.readerIdx
  if r.isActive then r
  else
    { version := lock.info.version
      filesize := lock.info.filesize
      currentTop := lock.info.topRef }

/-- `grab_read_lock`, in the lock file. `BadVersion` is thrown with the
version that was asked for. -/
def grabShared (list : VersionList) (type : LockType)
    (versionId : VersionID) :
    Option (Except VersionID ReadLockInfo × Participant × VersionList) :=
  let index := pickedIndex list versionId
  let part := part.ensureReaderMapping list index
  let r := list.data index
  if mismatch versionId r ∨ refused list index type then
    some (.error versionId, part, list)
  else
    let out := populateReadLock index r type
    let part := part.growLocalCache (index + 1)
    let reader := part.cachedReader out.1
    if reader.fieldForType type ≠ 0 then none
    else some (.ok out.1, part.setReader index (reader.setField 1 type),
      list.setEntry index out.2)

/-- `grab_read_lock`. -/
def grabReadLock (list : VersionList) (type : LockType)
    (versionId : VersionID) :
    Option (Except VersionID ReadLockInfo × Participant × VersionList) :=
  (part.tryGrabLocalReadLock list type versionId).elim
    (part.grabShared list type versionId)
    fun out => some (.ok out.1, out.2, list)

/-- The local entry after a lock was released. -/
def releasedReader (lock : ReadLockInfo) : ReadCount :=
  let r := part.readers lock.readerIdx
  let r := r.setField (r.fieldForType lock.type - 1) lock.type
  if r.fieldForType lock.type = 0 ∧ r.unlocked then { r with version := 0 }
  else r

/-- `release_read_lock`. A count of the lock file wraps. -/
def releaseReadLock (list : VersionList) (lock : ReadLockInfo) :
    Option (Participant × VersionList) :=
  let index := lock.readerIdx
  let count := (part.readers index).fieldForType lock.type
  if part.size ≤ index ∨ count = 0 then none
  else
    let part := part.setReader index (part.releasedReader lock)
    if 0 < count - 1 then some (part, list)
    else
      let r := list.data index
      if part.maxEntry ≤ index ∨ lock.info.version ≠ r.version then none
      else
        let shared := r.fieldForType lock.type
        some (part, list.setEntry index (r.setField
          (if shared = 0 then 2 ^ 32 - 1 else shared - 1) lock.type))

end Participant

-- ===== events

/-- A lock file with its participants, and the versions added to it. -/
structure Versions where
  list : VersionList
  participants : List Participant
  added : List VersionInfo

namespace Versions

inductive Event
  | join
  | grab (p : ℕ) (type : LockType) (versionId : VersionID)
  | release (p : ℕ) (lock : ReadLockInfo)
  | addVersion (p : ℕ) (info : VersionInfo)
  | cleanup (p : ℕ)
  | die (p : ℕ)
  /-- A participant dies in the middle of `try_allocate_entry`. -/
  | dieAllocating (p : ℕ) (info : VersionInfo)
      (point : VersionList.AllocationPoint)

/-- A session begins, with whatever list is in the lock file. -/
def start (list : VersionList) (info : VersionInfo) : Option Versions :=
  (list.initVersioning info).map fun list => ⟨list, [], [info]⟩

variable (s : Versions)

def newestVersion : ℕ := (s.list.data s.list.newest).version

/-- A participant that is alive. -/
def participant (p : ℕ) : Option Participant :=
  s.participants[p]?.bind fun part => if part.alive then some part else none

def withParticipant (p : ℕ) (part : Participant) : Versions :=
  { s with participants := s.participants.set p part }

/-- A version that a writer may add: later than the newest one. -/
def isLater (info : VersionInfo) : Bool :=
  s.newestVersion < info.version ∧ info.version < maxVersion

/-- The writer has a lock on the newest version. -/
def isWriter (part : Participant) : Bool :=
  part.held.any fun lock =>
    lock.type = .live ∧ lock.readerIdx = s.list.newest

/-- The state after a grab. -/
def grabbed (p : ℕ) (out : Except VersionID ReadLockInfo
    × Participant × VersionList) : Versions :=
  { s with
    list := out.2.2
    participants := s.participants.set p { out.2.1 with
      held := out.1.toOption.toList ++ out.2.1.held } }

def step : Event → Option Versions
  | .join => some { s with
      participants := s.participants ++ [.joined s.list] }
  | .grab p type versionId =>
    (s.participant p).bind fun part =>
      -- an index that was cached is one of the list
      if versionId.index < s.list.entries then
        (part.grabReadLock s.list type versionId).map (s.grabbed p)
      else none
  | .release p lock =>
    (s.participant p).bind fun part =>
      if lock ∈ part.held then
        (part.releaseReadLock s.list lock).map fun out =>
          { s with
            list := out.2
            participants := s.participants.set p { out.1 with
              held := out.1.held.erase lock } }
      else none
  | .addVersion p info =>
    (s.participant p).bind fun part =>
      if s.isLater info then
        (s.list.addVersion info).map fun list =>
          { list := list
            participants := s.participants.set p
              { part with maxEntry := max part.maxEntry list.entries }
            added := info :: s.added }
      else none
  | .cleanup p =>
    (s.participant p).bind fun part =>
      s.list.purgeVersions.map fun out =>
        { s with
          list := out.2
          participants := s.participants.set p
            { part with maxEntry := max part.maxEntry s.list.entries } }
  | .die p =>
    (s.participant p).map fun part =>
      s.withParticipant p { part with alive := false }
  | .dieAllocating p info point =>
    (s.participant p).bind fun part =>
      if s.isLater info then
        s.list.expanded.chosen.map fun i =>
          { s.withParticipant p { part with alive := false } with
            list := s.list.expanded.allocated i info point }
      else none

end Versions

end BarqSync.Storage
