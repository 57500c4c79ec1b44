/-
The client's pending bootstrap store (`pending_bootstrap_store.cpp`,
`SessionImpl::process_flx_bootstrap_message` and
`process_pending_flx_bootstrap`): batches of a bootstrap are kept in the
database until the last one has arrived and are then integrated, a few
changesets per transaction.

# What persists

`Store` is what the transactions write: the table of pending bootstraps,
the subscription sets, the changesets integrated into the history, in
their order, and the progress stored with them. `FlxClient` adds what a
restart loses: `m_has_pending`, and whether the integration loop is
running. A transaction that throws or fails an assertion commits
nothing, and the step is then not possible.

# Events

A batch arrives only while the loop is not running (both are on the
event loop of the client). `lose` is a lost connection, which the store
does not hear about. `restart` may come between any two commits; the
session is then activated and the loop runs first. `resume` is
`cancel_resumption_delay`, which runs the loop as well.

# Ghosts

`current` is the bootstrap the server is sending on this connection, as
far as it has arrived, and `completed` lists the bootstraps whose last
batch has arrived, each with the changesets of its batches.

Not modelled: the compression of the stored changesets, the estimate
`set_download_progress` stores, logging and debug hooks.
-/
import BarqSync.Client.Stores

namespace BarqSync.Client

-- ===== the store

/-- What the client's transactions write. -/
structure Store (C : Type) where
  table : List (PendingBootstrap C)
  subs : SubscriptionSets
  /-- The changesets integrated from bootstraps, in order. -/
  integrated : List C
  progress : SyncProgress
deriving DecidableEq, Repr

section

variable {C : Type}

/-- A transaction of `PendingBootstrapStore::add_batch`. -/
def Store.addBatch (st : Store C) (queryVersion : Int)
    (progress : Option SyncProgress) (changesets : List C) :
    Option (Store C) :=
  (PendingBootstrapStore.addBatch st.table st.subs queryVersion progress
    changesets).toOption.map fun (table, subs) =>
      { st with table := table, subs := subs }

/-- A transaction of `PendingBootstrapStore::clear`. -/
def Store.clear (st : Store C) (hasPending : Bool) (queryVersion : Int) :
    Option (Store C) :=
  (PendingBootstrapStore.clear hasPending st.subs
    queryVersion).toOption.map fun subs =>
      { st with table := [], subs := subs }

/-- The changesets of one batch of `peek_pending`: up to the limit in
bytes. -/
def peekChangesets (size : C → Nat) (limit : Nat) : Nat → List C → List C
  | _, [] => []
  | bytesSoFar, c :: cs =>
    if bytesSoFar < limit
    then c :: peekChangesets size limit (bytesSoFar + size c) cs
    else []

/-- `PendingBootstrapStore::pop_front_pending`. -/
def Store.popFrontPending (st : Store C) (obj : PendingBootstrap C)
    (count : Nat) : Option (Store C) :=
  (PendingBootstrapStore.popFrontPending obj st.subs
    count).toOption.map fun (table, subs) =>
      { st with table := table, subs := subs }

-- ===== the client

/-- The client: what persists, and what a restart loses. -/
structure FlxClient (C : Type) where
  store : Store C
  /-- `m_has_pending`. -/
  hasPending : Bool
  /-- Whether `process_pending_flx_bootstrap` is running. -/
  processing : Bool
deriving DecidableEq, Repr

/-- One turn of the loop of `process_pending_flx_bootstrap`, up to its
commit. -/
def FlxClient.processTurn (size : C → Nat) (limit : Nat)
    (c : FlxClient C) : Option (FlxClient C) :=
  if c.hasPending = false then some { c with processing := false }
  else
    match c.store.table with
    | [obj] =>
      match obj.progress with
      | none =>
        (c.store.clear c.hasPending obj.queryVersion).map fun st =>
          ⟨st, false, false⟩
      | some progress =>
        let batch := peekChangesets size limit 0 obj.changesets
        -- An empty batch has to be the last one.
        if batch = [] ∧ obj.changesets ≠ [] then none
        else
          -- The changesets are integrated and removed from the store
          -- in one transaction. The progress is stored with the last.
          (c.store.popFrontPending obj batch.length).map fun st =>
            { c with
              store := { st with
                integrated := c.store.integrated ++ batch
                progress := if batch ≠ [] ∧ st.table = []
                  then progress else c.store.progress }
              hasPending := !st.table.isEmpty }
    | _ => none

/-- A DOWNLOAD message of a bootstrap. -/
structure DownloadMessage (C : Type) where
  queryVersion : Int
  batchState : DownloadBatchState
  progress : SyncProgress
  changesets : List C
deriving DecidableEq, Repr

/-- `process_flx_bootstrap_message`, up to the loop it may start. -/
def FlxClient.processFlxBootstrapMessage (c : FlxClient C)
    (message : DownloadMessage C) : Option (FlxClient C) :=
  match message.batchState with
  | .steadyState => none
  | .moreToCome =>
    (c.store.addBatch message.queryVersion none
      message.changesets).map fun st => ⟨st, true, false⟩
  | .lastInBatch =>
    (c.store.addBatch message.queryVersion (some message.progress)
      message.changesets).map fun st => ⟨st, true, true⟩

/-- A session is activated after a restart: `m_has_pending` is read from
the table, and the loop runs. -/
def FlxClient.restart (c : FlxClient C) : FlxClient C :=
  ⟨c.store, !c.store.table.isEmpty, true⟩

-- ===== runs

/-- The client with the bootstraps it has been sent. -/
structure Session (C : Type) where
  client : FlxClient C
  /-- The bootstrap that is arriving: query version, and the changesets
  of its batches so far. -/
  current : Option (Int × List C)
  /-- The bootstraps whose last batch has arrived. -/
  completed : List (Int × List C)
deriving DecidableEq, Repr

/-- A client with nothing pending. -/
def Session.start (subs : SubscriptionSets) (progress : SyncProgress) :
    Session C :=
  ⟨⟨⟨[], subs, [], progress⟩, false, false⟩, none, []⟩

/-- What can happen to the client. -/
inductive Event (C : Type)
  /-- The user commits a new subscription set. -/
  | subscribe (version : Int)
  /-- A batch arrives. The first batch of a bootstrap is the one with
  which the server begins it, or begins it again. -/
  | batch (first : Bool) (message : DownloadMessage C)
  /-- The integration loop makes one turn. -/
  | turn
  /-- The connection is lost. -/
  | lose
  | restart
  | resume
  /-- `SubscriptionStore::download_complete`. -/
  | downloadComplete (version : Int)
deriving DecidableEq, Repr

/-- The changesets of the earlier batches: the server sends the batches
of a bootstrap in order, on one connection. -/
def Session.soFar (s : Session C) (first : Bool) (queryVersion : Int) :
    Option (List C) :=
  if first then some []
  else
    match s.current with
    | some (version, soFar) =>
      if version = queryVersion then some soFar else none
    | none => none

/-- A batch arrives. -/
def Session.receive (s : Session C) (first : Bool)
    (message : DownloadMessage C) : Option (Session C) :=
  if s.client.processing then none
  else
    (s.soFar first message.queryVersion).bind fun soFar =>
      (s.client.processFlxBootstrapMessage message).map fun client =>
        let received := (message.queryVersion, soFar ++ message.changesets)
        if message.batchState = .lastInBatch
        then ⟨client, none, s.completed ++ [received]⟩
        else ⟨client, some received, s.completed⟩

/-- One event. -/
def Session.step (size : C → Nat) (limit : Nat) (s : Session C) :
    Event C → Option (Session C)
  | .subscribe version =>
    if (s.client.store.subs.lookup version).isSome then none
    else some { s with client.store.subs :=
      s.client.store.subs ++ [(version, .pending)] }
  | .batch first message => s.receive first message
  | .turn =>
    if s.client.processing then
      (s.client.processTurn size limit).map fun c =>
        { s with client := c }
    else none
  | .lose => some { s with current := none }
  | .restart =>
    some { s with client := s.client.restart, current := none }
  | .resume =>
    if s.client.processing then none
    else some { s with client.processing := true, current := none }
  | .downloadComplete version =>
    if s.client.store.subs.lookup version = some .awaitingMark
    then some { s with client.store.subs :=
      s.client.store.subs.setState version .complete }
    else none

/-- The changesets of the bootstraps that have arrived whole. -/
def Session.sent (s : Session C) : List C :=
  s.completed.flatMap Prod.snd

end

end BarqSync.Client
