/-
The two stores of a client over the events of a session that change
them. An operation that throws rolls back, and the client goes on
(`FlxStores.after`).

# Events

The user commits new subscription sets at any time. Everything else is
on the event loop of the client: a batch, a MARK message and a query
error arrive only while no bootstrap is being processed, and a session
that is restarted, or resumed, first processes what is pending. A turn
of that loop integrates and removes the first changesets, or cancels a
bootstrap whose last batch has not arrived.

# Ghosts

`finished` lists the query versions whose bootstrap was processed to its
last changeset.
-/
import BarqSync.Client.Stores

namespace BarqSync.Client

-- ===== the stores

/-- Both stores of a client, the flag of the loop that processes a
bootstrap, and the bootstraps finished. -/
structure FlxStores (C : Type) where
  table : List (PendingBootstrap C)
  subs : SubscriptionSets
  /-- `m_has_pending`. -/
  hasPending : Bool
  processing : Bool
  finished : List Int
deriving Repr

namespace FlxStores

variable {C : Type}

/-- A new file. -/
def start : FlxStores C := ⟨[], SubscriptionStore.clear, false, false, []⟩

variable (s : FlxStores C)

/-- `PendingBootstrapStore::add_batch`, and the loop that follows the last
batch of a bootstrap. -/
def addBatch (queryVersion : Int)
    (progress : Option SyncProgress) (changesets : List C) :
    Except Fault (FlxStores C) :=
  (PendingBootstrapStore.addBatch s.table s.subs queryVersion progress
    changesets).map fun (table, subs) =>
      { s with
        table := table, subs := subs, hasPending := true
        processing := progress.isSome }

/-- `PendingBootstrapStore::clear`. -/
def clear (queryVersion : Int) : Except Fault (FlxStores C) :=
  (PendingBootstrapStore.clear s.hasPending s.subs queryVersion).map
    fun subs => { s with table := [], subs := subs, hasPending := false }

/-- `PendingBootstrapStore::pop_front_pending`. -/
def popFrontPending (obj : PendingBootstrap C)
    (count : ℕ) : Except Fault (FlxStores C) :=
  (PendingBootstrapStore.popFrontPending obj s.subs count).map
    fun (table, subs) =>
      { s with
        table := table, subs := subs, hasPending := !table.isEmpty
        finished := if table.isEmpty
          then obj.queryVersion :: s.finished else s.finished }

/-- One turn of the loop of `process_pending_flx_bootstrap`, in which
`count` changesets are integrated. -/
def turn (count : ℕ) : Except Fault (FlxStores C) :=
  if ¬ s.hasPending then .ok { s with processing := false }
  else
    -- there is only one pending bootstrap at a time
    if s.table.length ≠ 1 then .error .assertion
    else s.table.head?.elim (.error .assertion) fun obj =>
      if obj.progress.isNone then
        (s.clear obj.queryVersion).map fun s =>
          { s with processing := false }
      else s.popFrontPending obj count

-- ===== events

/-- What changes the stores. -/
inductive Event (C : Type)
  /-- The user commits a new subscription set. -/
  | commit
  /-- A batch of a bootstrap, with the progress if it is the last. -/
  | batch (queryVersion : Int) (progress : Option SyncProgress)
      (changesets : List C)
  /-- The loop makes one turn. -/
  | turn (count : ℕ)
  /-- An integration error ends the loop. -/
  | abort
  /-- A MARK message. -/
  | mark
  /-- A query error. -/
  | queryError (queryVersion : Int)
  /-- The session resumes, and processes what is pending. -/
  | resume
  | restart
deriving Repr

/-- Whether an event can happen. The loop integrates no more changesets
than are pending. -/
def enabled : Event C → Bool
  | .commit | .restart => true
  | .turn count => s.processing
    ∧ ∀ obj ∈ s.table, count ≤ obj.changesets.length
  | .abort => s.processing
  | .batch .. | .mark | .queryError _ | .resume => !s.processing

/-- What an event does. -/
def apply : Event C → Except Fault (FlxStores C)
  | .commit => (SubscriptionStore.commit s.subs).map fun subs =>
    { s with subs := subs }
  | .batch queryVersion progress changesets =>
    s.addBatch queryVersion progress changesets
  | .turn count => s.turn count
  | .abort => .ok { s with processing := false }
  | .mark => (SubscriptionStore.downloadComplete s.subs).map fun subs =>
    { s with subs := subs }
  | .queryError queryVersion =>
    (SubscriptionStore.setError s.subs queryVersion).map fun subs =>
      { s with subs := subs }
  | .resume => .ok { s with processing := true }
  | .restart =>
    .ok { s with hasPending := !s.table.isEmpty, processing := true }

/-- The stores after the outcome of an event: an exception rolls back. -/
def after : Except Fault (FlxStores C) → Option (FlxStores C)
  | .ok s' => some s'
  | .error .thrown => some s
  | .error .assertion => none

/-- One event. -/
def step (event : Event C) : Option (FlxStores C) :=
  if s.enabled event then s.after (s.apply event) else none

end FlxStores

end BarqSync.Client
