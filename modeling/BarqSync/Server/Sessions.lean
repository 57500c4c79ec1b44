/-
Connections, sessions and the messages a client can send
(`SyncConnection` and `Session` of `noinst/server/server.cpp`).

# Sessions and files

A BIND message gives a session its server file, after the access token of
the connection was checked; UNBIND, an error or the end of the connection
takes it away. Between, an IDENT message ties the session to a client
file, and uploads go through the server file as in `Server.Uploads`.

Server files are found by the virtual path as it is spelled, but the
history of each is in the file at the real path: spellings of one real
path share it (`shareHistory`).

# What is recorded

`Grant` is what a session was bound with: the signed token of its
connection and the time. It goes along with every changeset the session
uploads and with every DOWNLOAD message it sends, and is read by no
function of the source.

# What the environment decides

Limits of the tenant and of the backlog, what the history reports on a
bad IDENT message, whether a query is accepted, and when the server sends
or finds an error of its own are parts of the events.
-/
import BarqSync.Server.Access
import BarqSync.Server.Uploads

namespace BarqSync.Server

-- ===== state

/-- What a session was bound with. -/
structure Grant where
  signedToken : Bytes
  boundAt : Int
deriving DecidableEq, Repr

/-- The instructions of a changeset, and who uploaded it. -/
structure GrantedChangeset where
  grant : Grant
  instructions : List Instr
deriving DecidableEq, Repr

/-- `Session`. -/
structure Session where
  boundAt : Int
  /-- `m_server_file`, by its virtual path. -/
  serverFile : Option Bytes := none
  userIsAdmin : Bool := false
  /-- `m_file_ident_request` is not zero. -/
  fileIdentRequest : Bool := false
  sendIdentMessage : Bool := false
  /-- Zero until the IDENT message is received. -/
  clientFileIdent : Nat := 0
  unbindMessageReceived : Bool := false
  /-- `m_error_code` is not zero. -/
  errorOccurred : Bool := false
  errorMessageSent : Bool := false
deriving DecidableEq, Repr

/-- `SyncConnection`. -/
structure Connection where
  /-- The token of the HTTP handshake. -/
  signedToken : Bytes
  isFlxSyncConnection : Bool
  isClosing : Bool := false
  sessions : AList fun _ : Nat => Session := ∅

/-- A DOWNLOAD message that was sent. -/
structure Sent where
  grant : Grant
  file : Bytes
deriving DecidableEq, Repr

/-- The connections, the server files and the messages sent. -/
structure ServerState where
  connections : AList fun _ : Nat => Connection
  files : Bytes → UploadFile GrantedChangeset
  sent : List Sent

/-- A server that has just started, with empty files. -/
def ServerState.start : ServerState where
  connections := ∅
  files := fun _ => .start
  sent := []

/-- What the server is configured with. -/
structure ServerConfig (Key : Type) where
  rootDir : RealPath
  format : TokenFormat Key
  control : AccessControl Key
  /-- The metadata of a flexible sync BIND message is a JSON object. -/
  isJsonObject : Bytes → Bool

-- ===== ends of things

/-- `detach_from_server_file`, at the file. -/
def UploadFile.detach (f : UploadFile GrantedChangeset) (sess : Session) :
    UploadFile GrantedChangeset :=
  let f := if sess.clientFileIdent = 0 then f
    else f.setSession sess.clientFileIdent none
  if sess.fileIdentRequest
  then { f with identRequests := f.identRequests - 1 } else f

variable {Key : Type} (config : ServerConfig Key)
variable (s : ServerState) (id : Nat) (conn : Connection) (ident : Nat)
  (sess : Session) (files : Bytes → UploadFile GrantedChangeset)

/-- `detach_from_server_file`, among all files. -/
def detachFromServerFile
    (sess : Session) : Bytes → UploadFile GrantedChangeset :=
  match sess.serverFile with
  | none => files
  | some file => Function.update files file ((files file).detach sess)

/-- `terminate_sessions`: a session that is destroyed detaches itself. -/
def terminateSessions
    (conn : Connection) : Bytes → UploadFile GrantedChangeset :=
  conn.sessions.entries.foldl
    (fun files entry => detachFromServerFile files entry.2) files

namespace ServerState

/-- A connection changes. -/
def setConnection : ServerState :=
  { s with connections := s.connections.insert id conn }

/-- A server file changes. -/
def setFile (file : Bytes)
    (f : UploadFile GrantedChangeset) : ServerState :=
  { s with files := Function.update s.files file f }

/-- What a server file commits is in the file at its real path, which
the server files of other spellings read, too. -/
def shareHistory (root : RealPath) (file : Bytes) (s : ServerState) :
    ServerState :=
  { s with files := fun other =>
      if parseVirtualPath root other = parseVirtualPath root file
      then { s.files other with
        rows := (s.files file).rows
        serverVersion := (s.files file).serverVersion }
      else s.files other }

/-- A session of a connection changes. -/
def setSession : ServerState :=
  s.setConnection id
    { conn with sessions := conn.sessions.insert ident sess }

/-- `do_initiate_soft_close`. -/
def softClose : ServerState :=
  { s with
    files := terminateSessions s.files conn
    connections := s.connections.insert id
      { conn with isClosing := true, sessions := ∅ } }

/-- `SyncConnection::terminate`. -/
def terminate : ServerState :=
  match s.connections.lookup id with
  | none => s
  | some conn =>
    { s with
      files := terminateSessions s.files conn
      connections := s.connections.erase id }

/-- `Session::initiate_deactivation`. -/
def initiateDeactivation : ServerState :=
  if sess.unbindMessageReceived then s
  else
    { s with files := detachFromServerFile s.files sess }.setSession id
      conn ident { sess with serverFile := none, errorOccurred := true }

/-- `SyncConnection::protocol_error` for an error of a session. -/
def protocolError (error : ProtocolError) : ServerState :=
  if error.isSessionLevelError
  then s.initiateDeactivation id conn ident sess
  else s.softClose id conn

end ServerState

-- ===== BIND

section

/-- The checks of `Session::receive_bind_message`, up to the limits of
the tenant: the token and the virtual path of the file. -/
def bindAccess (path : Bytes) (now : Int) :
    Except ProtocolError (AccessToken × Bytes) :=
  if conn.isFlxSyncConnection && path ≠ [] && !config.isJsonObject path
  then .error .badSyntax
  else
    match config.control.verifyAccessToken config.format
      conn.signedToken with
    | .error _ => .error .permissionDenied
    | .ok token =>
      let accessPath :=
        if conn.isFlxSyncConnection then token.path.getD [] else path
      let filePath :=
        if config.control.tenantPublicKeys.isSome
        then makeTenantVirtualPath token.appId accessPath
        else some accessPath
      if conn.isFlxSyncConnection && accessPath = [] then
        .error .permissionDenied
      else
        match filePath with
        | none => .error .illegalBarqPath
        | some filePath =>
          if token.expired now then .error .permissionDenied
          else if !can token .read accessPath then
            .error .permissionDenied
          else if (parseVirtualPath config.rootDir filePath).isNone then
            .error .illegalBarqPath
          else .ok (token, filePath)

namespace ServerState

/-- `SyncConnection::receive_bind_message` with the handler of the
session. The tenant's limits apply to tenants only. -/
def receiveBind (path : Bytes) (needClientFileIdent : Bool) (now : Int)
    (withinLimits : Bool) : ServerState :=
  if (conn.sessions.lookup ident).isSome then s.softClose id conn
  else
    let sess : Session := { boundAt := now }
    match bindAccess config conn path now with
    | .error error => s.protocolError id
        { conn with sessions := conn.sessions.insert ident sess }
        ident sess error
    | .ok (token, file) =>
      if config.control.tenantPublicKeys.isSome && !withinLimits then
        s.protocolError id
          { conn with sessions := conn.sessions.insert ident sess }
          ident sess .limitsExceeded
      else
        let s := if needClientFileIdent
          then s.setFile file (s.files file).requestFileIdent else s
        s.setSession id conn ident
          { sess with
            serverFile := some file
            userIsAdmin := isAdmin token
            fileIdentRequest := needClientFileIdent
            sendIdentMessage := needClientFileIdent }

-- ===== other messages

/-- What the handlers of all messages but BIND and UNBIND begin with. -/
def onSession (handle : Session → ServerState) : ServerState :=
  match conn.sessions.lookup ident with
  | none => s.softClose id conn
  | some sess =>
    if sess.unbindMessageReceived then s.softClose id conn
    else if sess.errorOccurred then s
    else handle sess

/-- The connection with a session for the client file, which
`get_identified_session` finds. -/
def identifiedConnection (file : Bytes)
    (clientFileIdent : Nat) : Option Nat :=
  (s.connections.entries.find? fun entry =>
    entry.2.sessions.entries.any fun sess =>
      sess.2.serverFile = some file
        && sess.2.clientFileIdent = clientFileIdent).map Sigma.fst

/-- `receive_ident_message`. `bootstrapError` is what the history reports
beyond the versions. -/
def receiveIdent (ident clientFileIdent downloadServerVersion : Nat)
    (bootstrapPending : Bool) (bootstrapError : Option ProtocolError) :
    ServerState :=
  s.onSession id conn ident fun sess =>
    if sess.sendIdentMessage || sess.clientFileIdent ≠ 0 then
      s.softClose id conn
    else
      match sess.serverFile with
      | none => s
      | some file =>
        let f := s.files file
        if clientFileIdent = 0 then
          s.protocolError id conn ident sess .badClientFileIdent
        else if f.serverVersion < downloadServerVersion
            ∨ downloadServerVersion < (f.rows
              clientFileIdent).uploadProgress.lastIntegratedServerVersion
        then
          s.protocolError id conn ident sess .badServerVersion
        else
          match bootstrapError, s.identifiedConnection file
              clientFileIdent with
          | some error, _ => s.protocolError id conn ident sess error
          | none, other =>
            if other = some id then s.softClose id conn
            else
              -- a session of another connection is superseded
              let s := other.elim s s.terminate
              (s.setFile file ((s.files file).receiveIdent
                clientFileIdent conn.isFlxSyncConnection
                bootstrapPending downloadServerVersion)).setSession
                id conn ident
                { sess with clientFileIdent := clientFileIdent }

/-- `receive_query_message`. -/
def receiveQuery (accepted : Bool) : ServerState :=
  s.onSession id conn ident fun sess =>
    if sess.clientFileIdent = 0 then s.softClose id conn
    else
      match sess.serverFile, accepted with
      | some file, true =>
        match (s.files file).sessions sess.clientFileIdent with
        | some up => s.setFile file ((s.files file).setSession
            sess.clientFileIdent (some { up with
              bootstrapPending := true, incremental := none }))
        | none => s
      | _, _ => s

/-- `flx_instruction_is_destructive_schema_change`. -/
def isDestructiveSchemaChange : Instr → Bool
  | .eraseTable .. | .eraseColumn .. => true
  | _ => false

/-- The changesets of a message with what the session was bound with. -/
def grantMessage (grant : Grant) (message : UploadMessage (List Instr)) :
    UploadMessage GrantedChangeset where
  progress := message.progress
  lockedServerVersion := message.lockedServerVersion
  changesets := message.changesets.map fun uc =>
    ⟨uc.uploadCursor, ⟨grant, uc.changeset⟩⟩

/-- `receive_upload_message`, with the checks that are not about
cursors. `canAdd` is false when the backlog of the file is full. -/
def receiveUpload (message : UploadMessage (List Instr))
    (canAdd withinLimits : Bool) : ServerState :=
  s.onSession id conn ident fun sess =>
    if sess.clientFileIdent = 0 then s.softClose id conn
    else
      match sess.serverFile with
      | none => s
      | some file =>
        match (s.files file).sessions sess.clientFileIdent with
        | none => s
        | some up =>
          match checkUpload up message with
          | .error error => s.protocolError id conn ident sess error
          | .ok n =>
            let haveAnythingToDo : Bool :=
              up.uploadThreshold.clientVersion
                  < message.progress.clientVersion
                || up.lockedServerVersion
                  < message.lockedServerVersion
            let isDestructive := (message.changesets.drop n).any
              fun uc => uc.changeset.any isDestructiveSchemaChange
            if !canAdd then
              s.protocolError id conn ident sess .connectionClosed
            else if haveAnythingToDo && !withinLimits then
              s.protocolError id conn ident sess .limitsExceeded
            else if haveAnythingToDo && conn.isFlxSyncConnection
                && !sess.userIsAdmin && isDestructive then
              s.protocolError id conn ident sess .invalidSchemaChange
            else
              s.setFile file ((s.files file).receiveUpload
                sess.clientFileIdent up (grantMessage
                  ⟨conn.signedToken, sess.boundAt⟩ message))

/-- `receive_mark_message`. The request is answered by a message without
contents. -/
def receiveMark : ServerState :=
  s.onSession id conn ident fun sess =>
    if sess.clientFileIdent = 0 then s.softClose id conn else s

/-- `receive_unbind_message`. -/
def receiveUnbind : ServerState :=
  match conn.sessions.lookup ident with
  | none => s.softClose id conn
  | some sess =>
    if sess.unbindMessageReceived then s.softClose id conn
    else
      let s := { s with files := detachFromServerFile s.files sess }
      if sess.errorMessageSent then
        s.setConnection id
          { conn with sessions := conn.sessions.erase ident }
      else
        s.setSession id conn ident
          { sess with serverFile := none, unbindMessageReceived := true }

end ServerState

-- ===== runs

/-- A message from the client. -/
inductive Message
  | bind (path : Bytes) (needClientFileIdent : Bool) (now : Int)
      (withinLimits : Bool)
  | ident (clientFileIdent downloadServerVersion : Nat)
      (bootstrapPending : Bool) (bootstrapError : Option ProtocolError)
  | query (accepted : Bool)
  | upload (message : UploadMessage (List Instr))
      (canAdd withinLimits : Bool)
  | mark
  | unbind

/-- What can happen to the server. -/
inductive ServerEvent
  | connect (id : Nat) (signedToken : Bytes) (isFlxSyncConnection : Bool)
  | receive (id ident : Nat) (message : Message)
  /-- `receive_file_ident`. -/
  | receiveFileIdent (id ident : Nat)
  | sendIdent (id ident : Nat)
  | sendError (id ident : Nat)
  | sendUnbound (id ident : Nat)
  | sendDownload (id ident : Nat) (fromCache : Bool) (serverVersion : Nat)
      (more : Bool)
  /-- An error of a session that no message of it is the cause of. -/
  | deactivate (id ident : Nat)
  | disconnect (id : Nat)
  | execute (file : Bytes) (exclude : Nat → Bool) (compensate : Bool)
  | finalize (file : Bytes)
  | restart

namespace ServerState

/-- The handlers of all messages. -/
def receive : Message → ServerState
  | .bind path needClientFileIdent now withinLimits =>
    s.receiveBind config id conn ident path needClientFileIdent now
      withinLimits
  | .ident clientFileIdent version bootstrapPending bootstrapError =>
    s.receiveIdent id conn ident clientFileIdent version
      bootstrapPending bootstrapError
  | .query accepted => s.receiveQuery id conn ident accepted
  | .upload message canAdd withinLimits =>
    s.receiveUpload id conn ident message canAdd withinLimits
  | .mark => s.receiveMark id conn ident
  | .unbind => s.receiveUnbind id conn ident

/-- The session with an identifier, and its connection. -/
def findSession (id ident : Nat) : Option (Connection × Session) :=
  (s.connections.lookup id).bind fun conn =>
    (conn.sessions.lookup ident).map fun sess => (conn, sess)

/-- `send_message` of a session that has received its IDENT message, when
there is something to download. -/
def sendDownload (fromCache : Bool) (serverVersion : Nat) (more : Bool) :
    Option ServerState :=
  if sess.unbindMessageReceived || sess.errorOccurred
      || sess.clientFileIdent = 0 then none
  else
    sess.serverFile.bind fun file =>
      ((s.files file).step (.download sess.clientFileIdent fromCache
        serverVersion more)).map fun f =>
          { s.setFile file f with
            sent := s.sent ++ [⟨⟨conn.signedToken, sess.boundAt⟩, file⟩] }

/-- One event. Connections that are closing take no more messages. -/
def step : ServerEvent → Option ServerState
  | .connect id signedToken isFlx =>
    if (s.connections.lookup id).isSome then none
    else some (s.setConnection id
      { signedToken := signedToken, isFlxSyncConnection := isFlx })
  | .receive id ident message =>
    (s.connections.lookup id).bind fun conn =>
      if conn.isClosing then none
      else some (s.receive config id conn ident message)
  | .receiveFileIdent id ident =>
    (s.findSession id ident).bind fun (conn, sess) =>
      if sess.fileIdentRequest
      then some (s.setSession id conn ident
        { sess with fileIdentRequest := false })
      else none
  | .sendIdent id ident =>
    (s.findSession id ident).bind fun (conn, sess) =>
      if sess.sendIdentMessage && !sess.fileIdentRequest
      then some (s.setSession id conn ident
        { sess with sendIdentMessage := false })
      else none
  | .sendError id ident =>
    (s.findSession id ident).bind fun (conn, sess) =>
      if sess.errorOccurred
      then some (s.setSession id conn ident
        { sess with errorMessageSent := true })
      else none
  | .sendUnbound id ident =>
    (s.findSession id ident).bind fun (conn, sess) =>
      if sess.unbindMessageReceived
      then some (s.setConnection id
        { conn with sessions := conn.sessions.erase ident })
      else none
  | .sendDownload id ident fromCache serverVersion more =>
    (s.findSession id ident).bind fun (conn, sess) =>
      s.sendDownload conn sess fromCache serverVersion more
  | .deactivate id ident =>
    (s.findSession id ident).map fun (conn, sess) =>
      s.initiateDeactivation id conn ident sess
  | .disconnect id => some (s.terminate id)
  | .execute file exclude compensate =>
    ((s.files file).step (.execute exclude compensate)).map fun f =>
      (s.setFile file f).shareHistory config.rootDir file
  | .finalize file =>
    ((s.files file).step .finalize).map (s.setFile file)
  | .restart => some
      { s with
        connections := ∅
        files := fun file => (s.files file).restart }

end ServerState

end

end BarqSync.Server
