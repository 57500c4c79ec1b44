/-
The locks that a database object keeps track of (db.cpp), above those of
its version manager.

# The list

Each lock that is grabbed is recorded in a list, and the records are
counted. To release or to leak a lock, the first record of its version is
looked up, and the last record takes its place. The manager then releases
the lock that it was asked to; when the object is closed, it releases the
locks that are recorded.

# Events

One object is a participant of a lock file in which the others, and the
object itself as a writer, do whatever they do. A lock is released or
leaked once, after it was grabbed. When the object was closed before, its
transactions still release their locks, to no effect.

# Ghosts

The locks that were grabbed and neither released nor leaked, and those
that were leaked.
-/
import BarqSync.Storage.Versions

namespace BarqSync.Storage

/-- The manager of a participant releases a lock. -/
def Versions.released (s : Versions) (p : ℕ) (lock : ReadLockInfo) :
    Option Versions :=
  (s.participant p).bind fun part =>
    (part.releaseReadLock s.list lock).map fun out =>
      { s with
        list := out.2
        participants := s.participants.set p { out.1 with
          held := out.1.held.erase lock } }

/-- A `DB`, in a lock file. -/
structure Db where
  versions : Versions
  /-- `m_local_locks_held`. -/
  localLocksHeld : List ReadLockInfo
  transactionCount : ℤ
  attached : Bool
  outstanding : List ReadLockInfo
  leaked : List ReadLockInfo

namespace Db

/-- The last element takes the place of one that is removed. -/
def moveLastOver {α : Type*} (l : List α) (j : ℕ) : List α :=
  (l.getLast?.elim l (l.set j)).dropLast

/-- The records without the first one of a version, if there is any. -/
def untrack (locks : List ReadLockInfo) (version : ℕ) :
    Option (List ReadLockInfo) :=
  (locks.findIdx? fun lock => lock.info.version = version).map
    (moveLastOver locks)

/-- A new object, for which a participant joins. -/
def opened (versions : Versions) : Db :=
  { versions := { versions with
      participants := versions.participants ++ [.joined versions.list] }
    localLocksHeld := []
    transactionCount := 0
    attached := true
    outstanding := []
    leaked := [] }

variable (s : Db) (p : ℕ)

/-- The state after the manager grabbed a lock, or refused it. -/
def tracked (out : Except VersionID ReadLockInfo
    × Participant × VersionList) : Db :=
  { s with
    versions := s.versions.grabbed p out
    localLocksHeld := s.localLocksHeld ++ out.1.toOption.toList
    transactionCount := s.transactionCount + out.1.toOption.toList.length
    outstanding := out.1.toOption.toList ++ s.outstanding }

def grabReadLock (type : LockType) (versionId : VersionID) : Option Db :=
  if s.attached then
    (s.versions.participant p).bind fun part =>
      if versionId.index < s.versions.list.entries then
        (part.grabReadLock s.versions.list type versionId).map (s.tracked p)
      else none
  else none

/-- `do_release_read_lock`. That nothing is found is asserted to be after
a close. -/
def doReleaseReadLock (lock : ReadLockInfo) : Option Db :=
  (untrack s.localLocksHeld lock.info.version).elim
    (if s.attached then none else some s)
    fun locks =>
      (s.versions.released p lock).map fun versions =>
        { s with
          versions := versions
          localLocksHeld := locks
          transactionCount := s.transactionCount - 1
          outstanding := s.outstanding.erase lock }

def leakReadLock (lock : ReadLockInfo) : Db :=
  (untrack s.localLocksHeld lock.info.version).elim s fun locks =>
    { s with
      localLocksHeld := locks
      transactionCount := s.transactionCount - 1
      outstanding := s.outstanding.erase lock
      leaked := lock :: s.leaked }

/-- `release_all_read_locks`. The count is asserted to be zero then. -/
def releaseAllReadLocks : Option Db :=
  (s.localLocksHeld.foldlM (Versions.released · p ·) s.versions).bind
    fun versions =>
      if s.transactionCount - s.localLocksHeld.length = 0 then
        some { s with
          versions := versions
          localLocksHeld := []
          transactionCount := 0
          outstanding := [] }
      else none

-- ===== events

inductive Event
  | grab (type : LockType) (versionId : VersionID)
  | release (lock : ReadLockInfo)
  | leak (lock : ReadLockInfo)
  | releaseAll
  /-- All locks are released, and the object is detached. -/
  | close
  | other (event : Versions.Event)

/-- What does not go through the object, and does not end it. -/
def isOther : Versions.Event → Bool
  | .grab q _ _ | .release q _ | .die q | .dieAllocating q _ _ => q ≠ p
  | .join | .addVersion _ _ | .cleanup _ => true

/-- A lock may be released or leaked that was grabbed and was neither
before; or any lock, when the object was closed. -/
def mayRelease (lock : ReadLockInfo) : Bool :=
  lock ∈ s.outstanding ∨ s.attached = false

def step : Event → Option Db
  | .grab type versionId => s.grabReadLock p type versionId
  | .release lock =>
    if s.mayRelease lock then s.doReleaseReadLock p lock else none
  | .leak lock =>
    if s.mayRelease lock then some (s.leakReadLock lock) else none
  | .releaseAll => s.releaseAllReadLocks p
  | .close =>
    if s.attached then
      (s.releaseAllReadLocks p).map fun s => { s with attached := false }
    else none
  | .other event =>
    if isOther p event then
      (s.versions.step event).map fun versions =>
        { s with versions := versions }
    else none

end Db

end BarqSync.Storage
