/-
The way of an upload into the history of a server file (`Session`,
`ServerFile` and `Work` of `noinst/server/server.cpp`, with
`ServerHistory::bootstrap_client_session` and
`integrate_client_changesets`).

# Where an upload is

A changeset that `receive_upload_message` accepts goes to the list of
its client file among the blocked work of the server file. When no unit
of work is in progress the blocked work becomes the next unit. The
worker integrates the lists of a unit in one transaction, or excludes
some of them (`execute`), and the event loop then finishes the unit
(`finalize`). What the unit held stays in `m_work` until the next unit
resets it.

# Sessions

A session is modelled from its IDENT message on. It may end at any time
(`leave`): by UNBIND, by a lost connection, by a protocol error or
because another session takes over its client file. Rejections that do
not come from the cursors, such as a full backlog or a tenant's storage
limit, end the session and change nothing else, so they are `leave` as
well.

# Announcements

Every DOWNLOAD message announces an upload cursor. A partition-based
session takes it from the history, or from a cached message; a flexible
sync session raises it to what it has received itself. The parts of a
flexible sync session that decide between bootstrap and incremental
download are events here, not decisions.

# Assertions

A failed assertion aborts the server: `aborted` is set, and no event
follows.
-/
import BarqSync.Protocol
import Mathlib.Data.List.AList

namespace BarqSync.Server

-- ===== uploads

/-- A changeset of an UPLOAD message, as the server keeps it
(`UploadChangeset`, `IntegratableChangeset`). The contents include the
timestamp and the identifier of the origin. -/
structure UploadChangeset (C : Type) where
  uploadCursor : UploadCursor
  changeset : C
deriving DecidableEq, Repr

/-- The client version of a changeset, which identifies it. -/
def UploadChangeset.version {C : Type} (uc : UploadChangeset C) : Nat :=
  uc.uploadCursor.clientVersion

/-- `IntegratableChangesetList`. -/
structure IntegratableChangesetList (C : Type) where
  uploadProgress : UploadCursor := ⟨0, 0⟩
  lockedServerVersion : Nat := 0
  changesets : List (UploadChangeset C) := []
deriving DecidableEq, Repr

/-- `IntegratableChangesets`: a list for each client file. -/
abbrev IntegratableChangesets (C : Type) :=
  AList fun _ : Nat => IntegratableChangesetList C

/-- An UPLOAD message. -/
structure UploadMessage (C : Type) where
  progress : UploadCursor
  lockedServerVersion : Nat
  changesets : List (UploadChangeset C)
deriving DecidableEq, Repr

/-- What the history records of a client file (`cf_client_versions`,
`cf_rh_base_versions`, `cf_locked_server_versions`), and the changesets
of that client file it has integrated, in order. -/
structure ClientFileRow (C : Type) where
  uploadProgress : UploadCursor := ⟨0, 0⟩
  lockedServerVersion : Nat := 0
  integrated : List (UploadChangeset C) := []
deriving DecidableEq, Repr

/-- The part of `Session` that uploads and announcements use. -/
structure UploadSession where
  isFlx : Bool
  /-- `m_download_progress.server_version`. -/
  downloadServerVersion : Nat
  uploadProgress : UploadCursor := ⟨0, 0⟩
  uploadThreshold : UploadCursor
  lockedServerVersion : Nat
  /-- `m_flx_bootstrap_pending`. -/
  bootstrapPending : Bool := false
  /-- `m_flx_incremental_state`, when prepared: its upload progress. -/
  incremental : Option UploadCursor := none
deriving DecidableEq, Repr

section

variable {C : Type}

-- ===== receive_upload_message

/-- The loop of `receive_upload_message` over the uploaded changesets:
the last upload cursor, and how many changesets were integrated in
earlier sessions. -/
def checkChangesets (threshold : UploadCursor) :
    UploadCursor → List (UploadChangeset C)
      → Except ProtocolError (UploadCursor × Nat)
  | up, [] => .ok (up, 0)
  | up, uc :: rest =>
    if uc.version ≤ up.clientVersion then .error .badClientVersion
    else if !uc.uploadCursor.isConsistent then .error .badServerVersion
    else if !uc.uploadCursor.areMutuallyConsistent up then
      .error .badServerVersion
    else if !uc.uploadCursor.areMutuallyConsistent threshold then
      .error .badServerVersion
    else
      match checkChangesets threshold uc.uploadCursor rest with
      | .error e => .error e
      | .ok (last, n) =>
        .ok (last,
          if uc.version ≤ threshold.clientVersion then n + 1 else n)

/-- The checks of `receive_upload_message` on the cursors of a message:
the number of changesets that were integrated in earlier sessions. -/
def checkUpload (sess : UploadSession) (message : UploadMessage C) :
    Except ProtocolError Nat :=
  let progress := message.progress
  if progress.clientVersion < sess.uploadProgress.clientVersion then
    .error .badClientVersion
  else if sess.downloadServerVersion
      < progress.lastIntegratedServerVersion then
    .error .badServerVersion
  else if !progress.isConsistent then .error .badServerVersion
  else if !progress.areMutuallyConsistent sess.uploadThreshold then
    .error .badServerVersion
  else if !progress.areMutuallyConsistent sess.uploadProgress then
    .error .badServerVersion
  else if message.lockedServerVersion < sess.lockedServerVersion then
    .error .badServerVersion
  else if sess.downloadServerVersion < message.lockedServerVersion then
    .error .badServerVersion
  else if message.changesets = [] then .ok 0
  else
    match checkChangesets sess.uploadThreshold sess.uploadProgress
      message.changesets with
    | .error e => .error e
    | .ok (up, n) =>
      if progress.clientVersion < up.clientVersion then
        .error .badClientVersion
      else if !up.areMutuallyConsistent progress then
        .error .badServerVersion
      else .ok n

-- ===== the server file

/-- A server file: sessions, work and history. -/
structure UploadFile (C : Type) where
  /-- `m_identified_sessions`. -/
  sessions : Nat → Option UploadSession
  /-- `m_changesets_from_downstream`. -/
  blocked : IntegratableChangesets C
  /-- How many of `m_file_ident_requests` wait for the next unit, with a
  receiver that is still there. -/
  identRequests : Nat
  /-- `m_has_blocked_work`. -/
  hasBlockedWork : Bool
  /-- `m_work.changesets_from_downstream`. -/
  work : IntegratableChangesets C
  /-- `m_work.integration_result.excluded_client_files`. -/
  excluded : Nat → Bool
  /-- `m_has_work_in_progress`. -/
  workInProgress : Bool
  /-- The worker is done with the unit in progress. -/
  executed : Bool
  /-- The rows of the client files in the history. -/
  rows : Nat → ClientFileRow C
  /-- The newest version of the history. -/
  serverVersion : Nat
  /-- An assertion has failed. -/
  aborted : Bool

/-- A file of a server that has just started, with an empty history. -/
def UploadFile.start : UploadFile C where
  sessions := fun _ => none
  blocked := ∅
  identRequests := 0
  hasBlockedWork := false
  work := ∅
  excluded := fun _ => false
  workInProgress := false
  executed := false
  rows := fun _ => {}
  serverVersion := 0
  aborted := false

variable (f : UploadFile C) (ident : Nat) (sess : UploadSession)
  (row : ClientFileRow C) (list : IntegratableChangesetList C)

/-- The file after a restart of the server: only the history is left. -/
def UploadFile.restart : UploadFile C :=
  { start with rows := f.rows, serverVersion := f.serverVersion }

/-- The session of a client file begins, changes or ends. -/
def UploadFile.setSession (sess : Option UploadSession) : UploadFile C :=
  { f with sessions := Function.update f.sessions ident sess }

/-- A failed assertion. -/
def UploadFile.abort : UploadFile C :=
  { f with aborted := true }

/-- `ServerFile::unblock_work` and the rest of `group_unblock_work`. -/
def UploadFile.unblockWork : UploadFile C :=
  { f with
    work := f.blocked
    blocked := ∅
    identRequests := 0
    excluded := fun _ => false
    hasBlockedWork := false
    workInProgress := 0 < f.identRequests || !f.blocked.entries.isEmpty
    executed := false }

/-- `ServerFile::on_work_added`. -/
def UploadFile.onWorkAdded : UploadFile C :=
  if f.hasBlockedWork then f
  else if f.workInProgress then { f with hasBlockedWork := true }
  else f.unblockWork

/-- `ServerFile::request_file_ident`. -/
def UploadFile.requestFileIdent : UploadFile C :=
  { f with identRequests := f.identRequests + 1 }.onWorkAdded

/-- What `add_changesets_from_downstream` does to the list of the client
file. -/
def IntegratableChangesetList.add
    (uploadProgress : UploadCursor) (lockedServerVersion : Nat)
    (changesets : List (UploadChangeset C)) :
    IntegratableChangesetList C where
  uploadProgress :=
    if list.uploadProgress.clientVersion < uploadProgress.clientVersion
    then uploadProgress else list.uploadProgress
  lockedServerVersion :=
    if list.lockedServerVersion < lockedServerVersion
    then lockedServerVersion else list.lockedServerVersion
  changesets := list.changesets ++ changesets

/-- `ServerFile::add_changesets_from_downstream`. -/
def UploadFile.addChangesetsFromDownstream (uploadProgress : UploadCursor)
    (lockedServerVersion : Nat) (changesets : List (UploadChangeset C)) :
    UploadFile C :=
  let list := (f.blocked.lookup ident).getD {}
  if uploadProgress.clientVersion < list.uploadProgress.clientVersion
      ∨ uploadProgress.areMutuallyConsistent list.uploadProgress = false
      ∨ lockedServerVersion < list.lockedServerVersion
  then f.abort
  else
    let f' := { f with
      blocked := f.blocked.insert ident
        (list.add uploadProgress lockedServerVersion changesets) }
    -- dirty
    if changesets ≠ [] ∨ list.uploadProgress.clientVersion
        < uploadProgress.clientVersion
      ∨ list.lockedServerVersion < lockedServerVersion
    then f'.onWorkAdded else f'

/-- The rest of `receive_upload_message`. A message with bad cursors ends
the session. -/
def UploadFile.receiveUpload (message : UploadMessage C) : UploadFile C :=
  match checkUpload sess message with
  | .error _ => f.setSession ident none
  | .ok numPreviouslyIntegrated =>
    let sess' := { sess with uploadProgress := message.progress }
    let haveRealUploadProgress : Bool :=
      sess.uploadThreshold.clientVersion
        < message.progress.clientVersion
    let changesets := message.changesets.drop numPreviouslyIntegrated
    if !haveRealUploadProgress && !changesets.isEmpty then f.abort
    else if !haveRealUploadProgress && !decide (sess.lockedServerVersion
          < message.lockedServerVersion) then
      f.setSession ident (some sess')
    else
      (f.setSession ident (some { sess' with
        lockedServerVersion :=
          message.lockedServerVersion })).addChangesetsFromDownstream
        ident
        (if haveRealUploadProgress then message.progress
          else sess.uploadThreshold)
        message.lockedServerVersion changesets

-- ===== IDENT

/-- How `bootstrap_client_session` takes a list that is waiting into
account. There is no result when an assertion fails. -/
def raiseTo (list : Option (IntegratableChangesetList C))
    (found : UploadCursor × Nat) : Option (UploadCursor × Nat) :=
  match list with
  | none => some found
  | some list =>
    if list.uploadProgress.clientVersion < found.1.clientVersion
        ∨ list.lockedServerVersion < found.2
    then none
    else some (list.uploadProgress, list.lockedServerVersion)

/-- `ServerFile::bootstrap_client_session`: the upload threshold and the
locked server version of the new session. -/
def UploadFile.bootstrapClientSession : Option (UploadCursor × Nat) :=
  (raiseTo (f.work.lookup ident) ((f.rows ident).uploadProgress,
      (f.rows ident).lockedServerVersion)).bind
    (raiseTo (f.blocked.lookup ident))

/-- `receive_ident_message`. A session that is identified with the same
client file ends. -/
def UploadFile.receiveIdent
    (isFlx bootstrapPending : Bool) (downloadServerVersion : Nat) :
    UploadFile C :=
  match f.bootstrapClientSession ident with
  | none => f.abort
  | some (threshold, locked) =>
    f.setSession ident (some
      { isFlx := isFlx
        downloadServerVersion := downloadServerVersion
        uploadThreshold := threshold
        lockedServerVersion := locked
        bootstrapPending := bootstrapPending })

-- ===== the unit

/-- The assertions of `integrate_remote_changesets` on the cursors of
the changesets. -/
def cursorsIncrease : UploadCursor → List (UploadChangeset C) → Bool
  | _, [] => true
  | prev, uc :: rest =>
    decide (prev.clientVersion < uc.version)
      && uc.uploadCursor.areMutuallyConsistent prev
      && cursorsIncrease uc.uploadCursor rest

/-- All assertions of `integrate_remote_changesets` and
`update_upload_progress`. -/
def integrateAsserts : Bool :=
  cursorsIncrease row.uploadProgress list.changesets
    && decide (row.uploadProgress.clientVersion
      ≤ list.uploadProgress.clientVersion)
    && list.uploadProgress.areMutuallyConsistent row.uploadProgress

/-- `integrate_remote_changesets`: what it does to the row of the client
file. -/
def ClientFileRow.integrate : ClientFileRow C where
  uploadProgress :=
    if row.uploadProgress.clientVersion
      < list.uploadProgress.clientVersion
    then ⟨list.uploadProgress.clientVersion,
      max row.uploadProgress.lastIntegratedServerVersion
        list.uploadProgress.lastIntegratedServerVersion⟩
    else row.uploadProgress
  lockedServerVersion :=
    max row.lockedServerVersion list.lockedServerVersion
  integrated := row.integrated ++ list.changesets

/-- The worker executes the unit in progress: one transaction integrates
the lists that are not excluded. A compensating write may add one more
version. -/
def UploadFile.execute (exclude : Nat → Bool)
    (compensate : Bool) : UploadFile C :=
  if f.work.entries.all fun entry =>
      integrateAsserts (f.rows entry.1) entry.2
  then
    { f with
      rows := fun ident =>
        (f.work.lookup ident).elim (f.rows ident) fun list =>
          if exclude ident then f.rows ident
          else (f.rows ident).integrate list
      excluded := fun ident =>
        exclude ident && (f.work.lookup ident).isSome
      serverVersion := f.serverVersion
        + (f.work.entries.flatMap fun entry =>
            if exclude entry.1 then []
            else entry.2.changesets).length
        + compensate.toNat
      executed := true }
  else f.abort

/-- `finalize_work_stage_1` drops what excluded client files have
uploaded in the meantime. -/
def dropExcluded (excluded : Nat → Bool) (blocked : IntegratableChangesets C)
    (idents : List Nat) : IntegratableChangesets C :=
  idents.foldl (fun blocked ident =>
      if excluded ident then blocked.erase ident else blocked) blocked

/-- `group_postprocess_stage_1`: the sessions of excluded client files
end, and the next unit begins if there is work. -/
def UploadFile.finalize : UploadFile C :=
  let f' := { f with
    sessions := fun ident =>
      if f.excluded ident then none else f.sessions ident
    blocked := dropExcluded f.excluded f.blocked f.work.keys
    workInProgress := false
    executed := false }
  if f'.hasBlockedWork then f'.unblockWork else f'

-- ===== DOWNLOAD

/-- The upload progress that `continue_history_scan` announces. -/
def UploadSession.announced (fromCache : Bool) : UploadCursor :=
  if sess.isFlx then
    let found :=
      if sess.bootstrapPending then sess.uploadProgress
      else sess.incremental.getD row.uploadProgress
    let found :=
      if found.clientVersion < sess.uploadThreshold.clientVersion
      then sess.uploadThreshold else found
    if found.clientVersion < sess.uploadProgress.clientVersion
    then sess.uploadProgress else found
  else if fromCache then ⟨0, 0⟩
  else row.uploadProgress

/-- The session after a DOWNLOAD message up to the given version. A
flexible sync session may have more to send. -/
def UploadSession.download
    (serverVersion : Nat) (more : Bool) : UploadSession :=
  { sess with
    downloadServerVersion := serverVersion
    bootstrapPending := sess.bootstrapPending && more
    incremental :=
      if more = false then none
      else if sess.bootstrapPending then sess.incremental
      else some (sess.incremental.getD row.uploadProgress) }

-- ===== runs

/-- What can happen to the file. -/
inductive UploadEvent (C : Type)
  | ident (ident : Nat) (isFlx bootstrapPending : Bool)
      (downloadServerVersion : Nat)
  | upload (ident : Nat) (message : UploadMessage C)
  /-- A QUERY message. -/
  | query (ident : Nat)
  | download (ident : Nat) (fromCache : Bool) (serverVersion : Nat)
      (more : Bool)
  | leave (ident : Nat)
  | requestFileIdent
  /-- The receiver of a request for a file identifier is gone. -/
  | cancelFileIdent
  | execute (exclude : Nat → Bool) (compensate : Bool)
  | finalize
  /-- The server stops, and starts again. -/
  | restart

/-- One event. -/
def UploadFile.step (event : UploadEvent C) : Option (UploadFile C) :=
  if f.aborted then none
  else
    match event with
    | .ident ident isFlx bootstrapPending version =>
      if (f.rows ident).uploadProgress.lastIntegratedServerVersion
          ≤ version ∧ version ≤ f.serverVersion
      then some (f.receiveIdent ident isFlx bootstrapPending version)
      else none
    | .upload ident message =>
      (f.sessions ident).map fun sess =>
        f.receiveUpload ident sess message
    | .query ident =>
      (f.sessions ident).map fun sess =>
        f.setSession ident (some
          { sess with bootstrapPending := true, incremental := none })
    | .download ident _ version more =>
      (f.sessions ident).bind fun sess =>
        if sess.downloadServerVersion ≤ version
            ∧ version ≤ f.serverVersion
        then some (f.setSession ident
          (some (sess.download (f.rows ident) version more)))
        else none
    | .leave ident => some (f.setSession ident none)
    | .requestFileIdent => some f.requestFileIdent
    | .cancelFileIdent =>
      some { f with identRequests := f.identRequests - 1 }
    | .execute exclude compensate =>
      if f.workInProgress && !f.executed
      then some (f.execute exclude compensate) else none
    | .finalize => if f.executed then some f.finalize else none
    | .restart => some f.restart

end

end BarqSync.Server
