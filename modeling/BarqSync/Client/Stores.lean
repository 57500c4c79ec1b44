/-
The subscription store (subscriptions.cpp) and the pending bootstrap
store (pending_bootstrap_store.cpp): what their operations make of the
table of subscription sets and of the table of pending bootstraps.

# Faults

`thrown` is an exception, after which the transaction is rolled back and
the client goes on; `assertion` is a failed assertion, which ends the
process.
-/
import BarqSync.Protocol

namespace BarqSync.Client

-- ===== subscription sets

/-- `SubscriptionSet::State`, as stored. -/
inductive SubscriptionState
  | pending
  | bootstrapping
  | complete
  | error
  | awaitingMark
deriving DecidableEq, Repr

/-- The table of subscription sets: version and state. -/
abbrev SubscriptionSets := List (Int × SubscriptionState)

variable (subs : SubscriptionSets) (queryVersion : Int)

def SubscriptionSets.setState (version : Int)
    (state : SubscriptionState) : SubscriptionSets :=
  subs.map fun set => if set.1 = version then (version, state) else set

/-- How an operation of the stores fails. -/
inductive Fault
  | thrown
  | assertion
deriving DecidableEq, Repr

namespace SubscriptionStore

-- ===== the queries

/-- The states of a set that was bootstrapped. -/
def isActive (state : SubscriptionState) : Bool :=
  state = .complete ∨ state = .awaitingMark

def versions : List Int := subs.map Prod.fst

/-- `get_latest`. -/
def getLatest : Except Fault Int :=
  (versions subs).max?.elim (.error .assertion) .ok

/-- The highest version with a state. -/
def maxVersion (ofState : SubscriptionState → Bool) : Option Int :=
  (versions (subs.filter fun set => ofState set.2)).max?

/-- `get_active`: a set, or the null object. -/
def getActive : Except Fault (Option (Int × SubscriptionState)) :=
  if subs.isEmpty then .error .assertion
  else
    let version := (maxVersion subs isActive).getD 0
    .ok ((subs.lookup version).map fun state => (version, state))

/-- `get_version_info`: the latest, the active and the pending mark
version. -/
def getVersionInfo : Except Fault (Int × Int × Int) :=
  (getLatest subs).map fun latest =>
    (latest, (maxVersion subs isActive).getD (-1),
      (maxVersion subs (· = .awaitingMark)).getD (-1))

-- ===== the operations

/-- `clear`: only the zeroth set, for schema instructions. -/
def clear : SubscriptionSets := [(0, .pending)]

/-- `make_mutable_copy` and `commit`: a new set. -/
def commit : Except Fault SubscriptionSets :=
  (getLatest subs).map fun latest => subs ++ [(latest + 1, .pending)]

/-- The cases of `begin_bootstrap`. -/
def beginFrom : SubscriptionState → Except Fault SubscriptionSets
  | .complete => .ok subs
  | .awaitingMark => .ok subs
  | .pending => .ok (subs.setState queryVersion .bootstrapping)
  | .error => .error .thrown
  | .bootstrapping => .error .assertion

/-- `begin_bootstrap`. -/
def beginBootstrap : Except Fault SubscriptionSets :=
  if subs.isEmpty then .error .assertion
  else (subs.lookup queryVersion).elim (.error .thrown)
    (beginFrom subs queryVersion)

/-- The cases of `do_complete_bootstrap`. -/
def completeFrom (newState : SubscriptionState) :
    SubscriptionState → Except Fault SubscriptionSets
  | .complete => .ok subs
  | .awaitingMark => .ok subs
  | .bootstrapping =>
    let subs := subs.setState queryVersion newState
    -- all older subscription sets are superseded
    .ok (if newState = .awaitingMark then
      subs.filter fun set => ¬ set.1 < queryVersion else subs)
  | .pending => .error .assertion
  | .error => .error .assertion

/-- `do_complete_bootstrap`. -/
def doCompleteBootstrap
    (newState : SubscriptionState) : Except Fault SubscriptionSets :=
  if subs.isEmpty then .error .assertion
  else (subs.lookup queryVersion).elim (.error .assertion)
    (completeFrom subs queryVersion newState)

/-- `complete_bootstrap`. -/
def completeBootstrap : Except Fault SubscriptionSets :=
  doCompleteBootstrap subs queryVersion .awaitingMark

/-- `cancel_bootstrap`. -/
def cancelBootstrap : Except Fault SubscriptionSets :=
  doCompleteBootstrap subs queryVersion .pending

/-- `set_error`. -/
def setError : Except Fault SubscriptionSets :=
  (subs.lookup queryVersion).elim (.error .thrown) fun oldState =>
    if oldState = .complete then .error .thrown
    else .ok (subs.setState queryVersion .error)

/-- `download_complete`. A null object cannot be read. -/
def downloadComplete : Except Fault SubscriptionSets :=
  (getActive subs).bind fun obj =>
    obj.elim (.error .thrown) fun active =>
      if active.2 ≠ .awaitingMark then .ok subs
      else .ok (subs.setState active.1 .complete)

end SubscriptionStore

-- ===== pending bootstraps

/-- An object of the table `flx_pending_bootstrap`. -/
structure PendingBootstrap (C : Type) where
  queryVersion : Int
  /-- Set by the last batch. -/
  progress : Option SyncProgress
  changesets : List C
deriving DecidableEq, Repr

namespace PendingBootstrapStore

variable {C : Type}

/-- `add_batch`: both tables afterwards. -/
def addBatch (table : List (PendingBootstrap C)) (subs : SubscriptionSets)
    (queryVersion : Int) (progress : Option SyncProgress)
    (changesets : List C) :
    Except Fault (List (PendingBootstrap C) × SubscriptionSets) :=
  -- incomplete bootstraps of other query versions are cleared
  let table := table.filter fun obj => obj.queryVersion = queryVersion
  if table.isEmpty then
    (SubscriptionStore.beginBootstrap subs queryVersion).map fun subs =>
      ([⟨queryVersion, progress, changesets⟩], subs)
  else
    .ok (table.map fun obj =>
      { obj with
        progress := progress.or obj.progress
        changesets := obj.changesets ++ changesets }, subs)

/-- `clear`, which empties the table: the subscription sets
afterwards. -/
def clear (hasPending : Bool) (subs : SubscriptionSets)
    (queryVersion : Int) : Except Fault SubscriptionSets :=
  if hasPending then SubscriptionStore.cancelBootstrap subs queryVersion
  else .ok subs

/-- `pop_front_pending` on the only object of the table: both tables
afterwards. The flag `m_has_pending` falls when the object is removed. -/
def popFrontPending (obj : PendingBootstrap C) (subs : SubscriptionSets)
    (count : ℕ) :
    Except Fault (List (PendingBootstrap C) × SubscriptionSets) :=
  if obj.changesets.length < count then .error .assertion
  else if obj.changesets.length = count then
    (SubscriptionStore.completeBootstrap subs obj.queryVersion).map
      fun subs => ([], subs)
  else
    .ok ([{ obj with changesets := obj.changesets.drop count }], subs)

end PendingBootstrapStore

end BarqSync.Client
