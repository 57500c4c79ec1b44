/-
The cursors of the sync protocol (`sync/protocol.hpp`): positions in the
server's history and in a client's history, the consistency checks both
sides make on them, and the errors of the protocol.

Versions are `std::uint_fast64_t` in the source and natural numbers
here: the code compares them and never adds to one it received.
-/
import BarqSync.Instructions

namespace BarqSync

/-- `SaltedVersion`. -/
structure SaltedVersion where
  version : Nat
  salt : Int
deriving DecidableEq, Repr

/-- `DownloadCursor`: a position in the server-side history. -/
structure DownloadCursor where
  serverVersion : Nat
  lastIntegratedClientVersion : Nat
deriving DecidableEq, Repr

/-- `UploadCursor`: a position in the client-side history. -/
structure UploadCursor where
  clientVersion : Nat
  lastIntegratedServerVersion : Nat
deriving DecidableEq, Repr

/-- `is_consistent(UploadCursor)`. -/
def UploadCursor.isConsistent (uc : UploadCursor) : Bool :=
  uc.clientVersion ≠ 0 || uc.lastIntegratedServerVersion = 0

/-- `are_mutually_consistent(UploadCursor, UploadCursor)`. -/
def UploadCursor.areMutuallyConsistent (a b : UploadCursor) : Bool :=
  if a.clientVersion < b.clientVersion then
    a.lastIntegratedServerVersion ≤ b.lastIntegratedServerVersion
  else if b.clientVersion < a.clientVersion then
    b.lastIntegratedServerVersion ≤ a.lastIntegratedServerVersion
  else a.lastIntegratedServerVersion = b.lastIntegratedServerVersion

/-- `SyncProgress`. -/
structure SyncProgress where
  latestServerVersion : SaltedVersion := ⟨0, 0⟩
  download : DownloadCursor := ⟨0, 0⟩
  upload : UploadCursor := ⟨0, 0⟩
deriving DecidableEq, Repr

/-- `DownloadBatchState`. -/
inductive DownloadBatchState
  | moreToCome
  | lastInBatch
  | steadyState
deriving DecidableEq, Repr

/-- The codes of `ProtocolError` that the modelled functions report. -/
inductive ProtocolError
  | connectionClosed
  | badSyntax
  | limitsExceeded
  | badSessionIdent
  | reuseOfSessionIdent
  | boundInOtherSession
  | badMessageOrder
  | illegalBarqPath
  | permissionDenied
  | badClientFileIdent
  | badServerVersion
  | badClientVersion
  | divergingHistories
  | clientFileExpired
  | invalidSchemaChange
deriving DecidableEq, Repr

/-- `is_session_level_error`. The other errors close the connection. -/
def ProtocolError.isSessionLevelError : ProtocolError → Bool
  | .illegalBarqPath | .permissionDenied | .badClientFileIdent
  | .badServerVersion | .badClientVersion | .divergingHistories
  | .clientFileExpired | .invalidSchemaChange => true
  | .connectionClosed | .badSyntax | .limitsExceeded | .badSessionIdent
  | .reuseOfSessionIdent | .boundInOtherSession | .badMessageOrder =>
    false

end BarqSync
