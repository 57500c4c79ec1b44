/-
What a session sends and changes is allowed by the token it was bound
with (`Authorised`).

# The invariant

Every session with a server file is authorised for the path of that file
as it is spelled, and every changeset carries the grant of the session
that uploaded it (`ServerState.Secure`). In the history of a real path
are the changesets of all its spellings (`SameFile`).

# Privileges

Nothing after BIND looks at the access of the token again. What a
changeset may do is therefore a condition on the UPLOAD messages
(`Permitted`), not a consequence.
-/
import BarqSync.Server.Proofs.Grants

namespace BarqSync.Server

open ServerState

-- ===== authorisation

section

variable {Key : Type} {config : ServerConfig Key}

/-- Two virtual paths are spellings of one file. -/
def SameFile (config : ServerConfig Key) (file other : Bytes) : Prop :=
  parseVirtualPath config.rootDir file
    = parseVirtualPath config.rootDir other

/-- The token's path, if it has one, is the path of the file. In tenant
mode it is the part after the tenant. -/
def NamesFile (config : ServerConfig Key) (token : AccessToken)
    (file : Bytes) : Prop :=
  if config.control.tenantPublicKeys.isSome then
    ∃ clientPath, file = slash :: token.appId ++ slash :: clientPath
      ∧ tokenPathMatches token clientPath = true
  else tokenPathMatches token file = true

/-- The token of a grant was verified, was not expired, names the file
and may read. -/
structure AuthorisedBy (config : ServerConfig Key) (grant : Grant)
    (file : Bytes) (token : AccessToken) : Prop where
  accepted : config.control.verifyAccessToken config.format
    grant.signedToken = .ok token
  verified : ∃ key ∈ config.control.keysFor token,
    SignatureVerified config.format key grant.signedToken
      ∧ parseToken config.format (some key) grant.signedToken = .ok token
  unexpired : token.expired grant.boundAt = false
  path : NamesFile config token file
  read : token.includes .read = true

/-- A grant is good for a file. -/
def Authorised (config : ServerConfig Key) (grant : Grant)
    (file : Bytes) : Prop :=
  ∃ token, AuthorisedBy config grant file token

/-- What BIND has checked. -/
theorem bindAccess_authorised (hconf : config.control.IsConfigured)
    {conn : Connection} {path file : Bytes} {now : Int}
    {token : AccessToken}
    (h : bindAccess config conn path now = .ok (token, file)) :
    AuthorisedBy config ⟨conn.signedToken, now⟩ file token := by
  unfold bindAccess at h
  split at h
  · cases h
  split at h
  · cases h
  next token' htoken =>
  dsimp only at h
  generalize (if conn.isFlxSyncConnection then token'.path.getD []
    else path) = accessPath at h
  split at h
  · cases h
  split at h
  · cases h
  next file' hfile =>
  split at h
  · cases h
  next hexpired =>
  split at h
  · cases h
  next hcan =>
  split at h
  · cases h
  cases h
  simp only [can, Bool.not_eq_true', Bool.not_eq_false,
    Bool.and_eq_true] at hcan
  obtain ⟨hmatches, hread⟩ := hcan
  refine ⟨htoken, verifyAccessToken_verified hconf htoken,
    Bool.eq_false_iff.2 hexpired, ?_, hread⟩
  unfold NamesFile
  split at hfile
  next htenant =>
    rw [if_pos htenant]
    refine ⟨_, ?_, hmatches⟩
    unfold makeTenantVirtualPath at hfile
    split at hfile
    · cases hfile
    split at hfile
    · cases hfile
    split at hfile
    · cases hfile
    split at hfile
    · cases hfile
    injection hfile with hfile
    exact hfile.symm
  next htenant =>
    rw [if_neg htenant]
    injection hfile with hfile
    rw [← hfile]
    exact hmatches

-- ===== the invariant

variable {Q : AccessToken → List Instr → Prop}

/-- A changeset was uploaded under a token that is good for a spelling of
the file, and that a property ties it to. -/
def GrantedFor (config : ServerConfig Key)
    (Q : AccessToken → List Instr → Prop) (file : Bytes)
    (c : GrantedChangeset) : Prop :=
  ∃ spelled token, SameFile config spelled file
    ∧ AuthorisedBy config c.grant spelled token ∧ Q token c.instructions

/-- The sessions of a connection are authorised for their files. -/
def Connection.Ok (config : ServerConfig Key) (conn : Connection) : Prop :=
  ∀ ident, ∀ sess ∈ conn.sessions.lookup ident, ∀ file ∈ sess.serverFile,
      Authorised config ⟨conn.signedToken, sess.boundAt⟩ file

/-- The files hold only changesets that were granted for them. -/
def FilesOk (config : ServerConfig Key)
    (Q : AccessToken → List Instr → Prop)
    (files : Bytes → UploadFile GrantedChangeset) : Prop :=
  ∀ file, (files file).All (GrantedFor config Q file)

/-- Sessions, changesets and messages are all authorised. -/
structure ServerState.Secure (config : ServerConfig Key)
    (Q : AccessToken → List Instr → Prop) (s : ServerState) : Prop where
  connections : ∀ id, ∀ conn ∈ s.connections.lookup id, conn.Ok config
  files : FilesOk config Q s.files
  sent : ∀ e ∈ s.sent, Authorised config e.grant e.file

namespace Connection.Ok

variable {conn : Connection} {ident : Nat} {sess : Session}

/-- A session that is bound is authorised. -/
theorem insert (h : conn.Ok config) (hsess : ∀ file ∈ sess.serverFile,
      Authorised config ⟨conn.signedToken, sess.boundAt⟩ file) :
    Connection.Ok config
      { conn with sessions := conn.sessions.insert ident sess } :=
  forall_lookup_insert h hsess

theorem erase (h : conn.Ok config) (ident : Nat) : Connection.Ok config
      { conn with sessions := conn.sessions.erase ident } :=
  forall_lookup_erase h

theorem of_empty (h : conn.sessions = ∅) : conn.Ok config := by
  intro ident
  rw [h]
  exact forall_lookup_empty ident

end Connection.Ok

namespace FilesOk

variable {files : Bytes → UploadFile GrantedChangeset}

section

variable (h : FilesOk config Q files)

include h

/-- A file that is changed holds what was granted for it. -/
theorem update {file : Bytes}
    {f : UploadFile GrantedChangeset}
    (hf : f.All (GrantedFor config Q file)) :
    FilesOk config Q (Function.update files file f) := by
  intro file'
  by_cases hfile : file' = file
  · subst hfile
    rw [Function.update_self]
    exact hf
  · rw [Function.update_of_ne hfile]
    exact h file'

/-- A session that leaves its file takes no changeset away. -/
theorem detach (sess : Session) :
    FilesOk config Q (detachFromServerFile files sess) := by
  unfold detachFromServerFile
  split
  · exact h
  next file _ =>
    refine h.update ?_
    have hf := h file
    have hleft : (if sess.clientFileIdent = 0 then files file
        else (files file).setSession sess.clientFileIdent none).All
        (GrantedFor config Q file) := by
      split
      · exact hf
      · exact hf.setSession _ _
    unfold UploadFile.detach
    dsimp only
    split
    · exact ⟨hleft.blocked, hleft.work, hleft.integrated⟩
    · exact hleft

/-- Spellings of one file share its history. -/
theorem shareHistory (file : Bytes) (s : ServerState)
    (hs : s.files = files) :
    FilesOk config Q (s.shareHistory config.rootDir file).files := by
  subst hs
  intro other
  simp only [ServerState.shareHistory]
  split
  next hsame =>
    refine ⟨(h other).blocked, (h other).work, fun ident uc huc => ?_⟩
    obtain ⟨spelled, token, hspelled, hgranted⟩ :=
      (h file).integrated ident uc huc
    exact ⟨spelled, token, hspelled.trans hsame.symm, hgranted⟩
  · exact h other

/-- So for all sessions of a connection. -/
theorem terminateSessions (conn : Connection) :
    FilesOk config Q (terminateSessions files conn) := by
  unfold Server.terminateSessions
  generalize conn.sessions.entries = entries
  induction entries generalizing files with
  | nil => exact h
  | cons entry rest ih => exact ih (h.detach entry.2)

end

end FilesOk

namespace ServerState.Secure

variable {s : ServerState} {id ident : Nat} {conn : Connection}
  {sess : Session}

section

variable (h : s.Secure config Q)

include h

theorem setConnection (hconn : conn.Ok config) :
    (s.setConnection id conn).Secure config Q :=
  ⟨forall_lookup_insert h.connections hconn, h.files, h.sent⟩

theorem setFiles {files : Bytes → UploadFile GrantedChangeset}
    (hfiles : FilesOk config Q files) :
    ({ s with files := files } : ServerState).Secure config Q :=
  ⟨h.connections, hfiles, h.sent⟩

theorem setFile {file : Bytes}
    {f : UploadFile GrantedChangeset}
    (hf : f.All (GrantedFor config Q file)) :
    (s.setFile file f).Secure config Q :=
  h.setFiles (h.files.update hf)

theorem setSession (hconn : conn.Ok config)
    (hsess : ∀ file ∈ sess.serverFile,
      Authorised config ⟨conn.signedToken, sess.boundAt⟩ file) :
    (s.setSession id conn ident sess).Secure config Q :=
  h.setConnection (hconn.insert hsess)

theorem softClose : (s.softClose id conn).Secure config Q :=
  setConnection (h.setFiles (h.files.terminateSessions conn))
    (.of_empty rfl)

theorem terminate (id : Nat) : (s.terminate id).Secure config Q := by
  unfold ServerState.terminate
  split
  · exact h
  next conn _ =>
    exact ⟨forall_lookup_erase h.connections,
      h.files.terminateSessions conn, h.sent⟩

/-- A deactivated session has no file. -/
theorem initiateDeactivation (hconn : conn.Ok config) :
    (s.initiateDeactivation id conn ident sess).Secure config Q := by
  unfold ServerState.initiateDeactivation
  split
  · exact h
  · exact (h.setFiles (h.files.detach sess)).setSession hconn
      fun _ hfile => nomatch hfile

theorem protocolError (hconn : conn.Ok config) (error : ProtocolError) :
    (s.protocolError id conn ident sess error).Secure config Q := by
  unfold ServerState.protocolError
  split
  · exact h.initiateDeactivation hconn
  · exact h.softClose

end

/-- A session is bound to a file only if the token is good for it. -/
theorem receiveBind (hconf : config.control.IsConfigured)
    (h : s.Secure config Q) (hconn : conn.Ok config) (path : Bytes)
    (need : Bool) (now : Int) (withinLimits : Bool) :
    (s.receiveBind config id conn ident path need now withinLimits).Secure
      config Q := by
  unfold ServerState.receiveBind
  split
  · exact h.softClose
  have hnew : Connection.Ok config { conn with
      sessions := conn.sessions.insert ident { boundAt := now } } :=
    hconn.insert fun _ hfile => nomatch hfile
  dsimp only
  split
  · exact h.protocolError hnew _
  next token file hbind =>
  split
  · exact h.protocolError hnew _
  have hsess : ∀ file' ∈ some file,
      Authorised config ⟨conn.signedToken, now⟩ file' := by
    intro file' hfile'
    cases hfile'
    exact ⟨token, bindAccess_authorised hconf hbind⟩
  refine setSession ?_ hconn hsess
  split
  · exact h.setFile (h.files file).requestFileIdent
  · exact h

section

variable (h : s.Secure config Q)

include h

/-- A handler that keeps the invariant for a session that is alive. -/
theorem onSession {handle : Session → ServerState}
    (hhandle : ∀ sess ∈ conn.sessions.lookup ident,
      (handle sess).Secure config Q) :
    (s.onSession id conn ident handle).Secure config Q := by
  unfold ServerState.onSession
  split
  · exact h.softClose
  next sess hsess =>
    split
    · exact h.softClose
    split
    · exact h
    · exact hhandle sess hsess

theorem receiveIdent (hconn : conn.Ok config)
    (clientFileIdent version : Nat) (pending : Bool)
    (error : Option ProtocolError) :
    (s.receiveIdent id conn ident clientFileIdent version pending
      error).Secure config Q := by
  refine h.onSession fun sess hsess => ?_
  split
  · exact h.softClose
  split
  · exact h
  next file hfile =>
  dsimp only
  split
  · exact h.protocolError hconn _
  split
  · exact h.protocolError hconn _
  cases error with
  | some error => exact h.protocolError hconn error
  | none =>
    dsimp only
    split
    · exact h.softClose
    have hother : ((s.identifiedConnection file clientFileIdent).elim s
        s.terminate).Secure config Q := by
      cases s.identifiedConnection file clientFileIdent with
      | none => exact h
      | some other => exact h.terminate other
    exact (hother.setFile ((hother.files file).receiveIdent _ _ _
      _)).setSession hconn (hconn ident sess hsess)

theorem receiveQuery (accepted : Bool) :
    (s.receiveQuery id conn ident accepted).Secure config Q := by
  refine h.onSession fun sess _ => ?_
  split
  · exact h.softClose
  split
  next file _ =>
    split
    · exact h.setFile ((h.files file).setSession _ _)
    · exact h
  · exact h

/-- The changesets of a message are allowed by the token of the
connection. -/
theorem receiveUpload (hconn : conn.Ok config)
    {message : UploadMessage (List Instr)}
    (hmessage : ∀ token, config.control.verifyAccessToken config.format
        conn.signedToken = .ok token
      → ∀ uc ∈ message.changesets, Q token uc.changeset)
    (canAdd withinLimits : Bool) :
    (s.receiveUpload id conn ident message canAdd withinLimits).Secure
      config Q := by
  refine h.onSession fun sess hsess => ?_
  split
  · exact h.softClose
  split
  · exact h
  next file hfile =>
  split
  · exact h
  next up _ =>
  split
  · exact h.protocolError hconn _
  dsimp only
  split
  · exact h.protocolError hconn _
  split
  · exact h.protocolError hconn _
  split
  · exact h.protocolError hconn _
  refine h.setFile ((h.files file).receiveUpload _ up fun uc huc => ?_)
  obtain ⟨uc', huc', rfl⟩ := List.mem_map.1 huc
  obtain ⟨token, htoken⟩ := hconn ident sess hsess file hfile
  exact ⟨file, token, rfl, htoken,
    hmessage token htoken.accepted uc' huc'⟩

theorem receiveMark : (s.receiveMark id conn ident).Secure config Q := by
  refine h.onSession fun sess _ => ?_
  split
  · exact h.softClose
  · exact h

/-- A session that is unbound leaves its file. -/
theorem receiveUnbind (hconn : conn.Ok config) :
    (s.receiveUnbind id conn ident).Secure config Q := by
  unfold ServerState.receiveUnbind
  split
  · exact h.softClose
  next sess _ =>
  split
  · exact h.softClose
  have hfiles := h.setFiles (h.files.detach sess)
  dsimp only
  split
  · exact hfiles.setConnection (hconn.erase ident)
  · exact hfiles.setSession hconn fun _ hfile => nomatch hfile

/-- What is sent goes to a session that is authorised. -/
theorem sendDownload (hconn : conn.Ok config)
    (hsess : conn.sessions.lookup ident = some sess) {fromCache : Bool}
    {version : Nat} {more : Bool} {s' : ServerState}
    (hsend : s.sendDownload conn sess fromCache version more = some s') :
    s'.Secure config Q := by
  unfold ServerState.sendDownload at hsend
  split at hsend
  · cases hsend
  obtain ⟨file, hfile, hsend⟩ := Option.bind_eq_some_iff.1 hsend
  obtain ⟨f, hf, rfl⟩ := Option.map_eq_some_iff.1 hsend
  have hfile' : f.All (GrantedFor config Q file) :=
    (h.files file).step (fun _ _ => by simp) hf
  obtain ⟨hconns, hfiles, -⟩ := h.setFile hfile'
  refine ⟨hconns, hfiles, fun e he => ?_⟩
  rcases List.mem_append.1 he with he | he
  · exact h.sent e he
  · cases List.mem_singleton.1 he
    exact hconn ident sess hsess file hfile

end

end ServerState.Secure

-- ===== runs

/-- The changesets of every UPLOAD message have a property under the
token of the connection. -/
def Permitted (config : ServerConfig Key)
    (Q : AccessToken → List Instr → Prop) (s : ServerState) :
    ServerEvent → Prop
  | .receive id _ (.upload message _ _) =>
    ∀ conn ∈ s.connections.lookup id,
      ∀ token ∈ (config.control.verifyAccessToken config.format
        conn.signedToken).toOption,
        ∀ uc ∈ message.changesets, Q token uc.changeset
  | _ => True

namespace ServerState.Secure

variable {s : ServerState} {conn : Connection} {ident : Nat}

theorem start : ServerState.start.Secure config Q where
  connections := forall_lookup_empty
  files := fun _ => .start
  sent := fun _ he => nomatch he

/-- No message of a client breaks it. -/
theorem receive (hconf : config.control.IsConfigured)
    (h : s.Secure config Q) {id : Nat}
    (hconn : conn ∈ s.connections.lookup id) {message : Message}
    (hok : Permitted config Q s (.receive id ident message)) :
    (s.receive config id conn ident message).Secure config Q := by
  have hconn' := h.connections id conn hconn
  cases message with
  | bind path need now withinLimits =>
    exact h.receiveBind hconf hconn' path need now withinLimits
  | ident clientFileIdent version pending error =>
    exact h.receiveIdent hconn' clientFileIdent version pending error
  | query accepted => exact h.receiveQuery accepted
  | upload message canAdd withinLimits =>
    refine h.receiveUpload hconn' (fun token htoken => ?_) canAdd
      withinLimits
    refine hok conn hconn token ?_
    rw [htoken]
    rfl
  | mark => exact h.receiveMark
  | unbind => exact h.receiveUnbind hconn'

/-- The session that an event is about belongs to its connection. -/
theorem of_findSession (h : s.Secure config Q) {id : Nat}
    {sess : Session} (hfind : s.findSession id ident = some (conn, sess)) :
    conn.Ok config ∧ conn.sessions.lookup ident = some sess := by
  obtain ⟨conn', hconn', hsess⟩ := Option.bind_eq_some_iff.1 hfind
  obtain ⟨sess', hsess', heq⟩ := Option.map_eq_some_iff.1 hsess
  cases heq
  exact ⟨h.connections id conn hconn', hsess'⟩

/-- Nor does any event, if the uploads are permitted. -/
theorem step (hconf : config.control.IsConfigured) {s' : ServerState}
    (h : s.Secure config Q) {event : ServerEvent}
    (hok : Permitted config Q s event)
    (hstep : s.step config event = some s') : s'.Secure config Q := by
  cases event with
  | connect id signedToken isFlx =>
    simp only [ServerState.step] at hstep
    split at hstep
    · cases hstep
    · cases hstep
      exact h.setConnection (.of_empty rfl)
  | receive id ident message =>
    obtain ⟨conn, hconn, hstep⟩ := Option.bind_eq_some_iff.1 hstep
    split at hstep
    · cases hstep
    · cases hstep
      exact h.receive hconf hconn hok
  | receiveFileIdent id ident | sendIdent id ident | sendError id ident =>
    obtain ⟨⟨conn, sess⟩, hfind, hstep⟩ :=
      Option.bind_eq_some_iff.1 hstep
    obtain ⟨hconn, hsess⟩ := h.of_findSession hfind
    dsimp only at hstep
    split at hstep
    · cases hstep
      exact h.setSession hconn (hconn ident sess hsess)
    · cases hstep
  | sendUnbound id ident =>
    obtain ⟨⟨conn, sess⟩, hfind, hstep⟩ :=
      Option.bind_eq_some_iff.1 hstep
    obtain ⟨hconn, -⟩ := h.of_findSession hfind
    dsimp only at hstep
    split at hstep
    · cases hstep
      exact h.setConnection (hconn.erase ident)
    · cases hstep
  | sendDownload id ident fromCache version more =>
    obtain ⟨⟨conn, sess⟩, hfind, hstep⟩ :=
      Option.bind_eq_some_iff.1 hstep
    obtain ⟨hconn, hsess⟩ := h.of_findSession hfind
    exact h.sendDownload hconn hsess hstep
  | deactivate id ident =>
    obtain ⟨⟨conn, sess⟩, hfind, rfl⟩ := Option.map_eq_some_iff.1 hstep
    exact h.initiateDeactivation (h.of_findSession hfind).1
  | disconnect id =>
    cases hstep
    exact h.terminate id
  | execute file =>
    obtain ⟨f, hf, rfl⟩ := Option.map_eq_some_iff.1 hstep
    have hset : (s.setFile file f).Secure config Q :=
      h.setFile ((h.files file).step (fun _ _ => by simp) hf)
    exact hset.setFiles (hset.files.shareHistory file _ rfl)
  | finalize file =>
    obtain ⟨f, hf, rfl⟩ := Option.map_eq_some_iff.1 hstep
    exact h.setFile ((h.files file).step (fun _ _ => by simp) hf)
  | restart =>
    cases hstep
    exact ⟨forall_lookup_empty, fun file => (h.files file).restart, h.sent⟩

/-- So whole runs keep it. -/
theorem run (hconf : config.control.IsConfigured)
    (hrun : Sys.Run (ServerState.step config) (Permitted config Q)
      ServerState.start s) : s.Secure config Q :=
  hrun.invariant .start fun _ _ _ h hok hstep => h.step hconf hok hstep

end ServerState.Secure

-- ===== privileges

/-- The privilege that what an instruction does needs. -/
def requiredPrivilege : Instr → Privilege
  | .addTable .. | .eraseTable .. | .addColumn .. | .eraseColumn .. =>
    .modifySchema
  | .createObject .. => .create
  | .eraseObject .. => .delete
  | .path _ => .update

/-- The token includes the privileges of all instructions. -/
def IncludesAll (token : AccessToken) (instructions : List Instr) : Prop :=
  ∀ instr ∈ instructions, token.includes (requiredPrivilege instr) = true

instance (token : AccessToken) (instructions : List Instr) :
    Decidable (IncludesAll token instructions) :=
  inferInstanceAs (Decidable (∀ instr ∈ instructions,
    token.includes (requiredPrivilege instr) = true))

instance Permitted.decidable
    [∀ token instructions, Decidable (Q token instructions)]
    (s : ServerState) :
    (event : ServerEvent) → Decidable (Permitted config Q s event)
  | .receive id _ (.upload message _ _) =>
    inferInstanceAs (Decidable (∀ conn ∈ s.connections.lookup id,
      ∀ token ∈ (config.control.verifyAccessToken config.format
        conn.signedToken).toOption,
        ∀ uc ∈ message.changesets, Q token uc.changeset))
  | .receive _ _ (.bind ..) | .receive _ _ (.ident ..)
  | .receive _ _ (.query ..) | .receive _ _ .mark
  | .receive _ _ .unbind | .connect .. | .receiveFileIdent ..
  | .sendIdent .. | .sendError .. | .sendUnbound .. | .sendDownload ..
  | .deactivate .. | .disconnect .. | .execute .. | .finalize ..
  | .restart => .isTrue trivial

/-- In every run, what is sent of a file and what is integrated into it
is authorised by a token of the session that names a spelling of its
path. In every run in which the UPLOAD messages keep to the privileges of
the token, so is what each instruction does. -/
theorem effects_authorised (hconf : config.control.IsConfigured)
    (s : ServerState) :
    (Sys.Run (ServerState.step config) (fun _ _ => True)
        ServerState.start s →
      (∀ e ∈ s.sent, Authorised config e.grant e.file)
      ∧ ∀ file ident, ∀ uc ∈ ((s.files file).rows ident).integrated,
        ∃ spelled, SameFile config spelled file
          ∧ Authorised config uc.changeset.grant spelled)
    ∧ (Sys.Run (ServerState.step config) (Permitted config IncludesAll)
        ServerState.start s →
      ∀ file ident, ∀ uc ∈ ((s.files file).rows ident).integrated,
        ∃ spelled token, SameFile config spelled file
          ∧ AuthorisedBy config uc.changeset.grant spelled token
          ∧ IncludesAll token uc.changeset.instructions) := by
  constructor
  · intro hrun
    have hmono : Sys.Run (step config)
        (Permitted config fun _ _ => True) start s := by
      refine hrun.mono fun s event _ => ?_
      cases event <;> try trivial
      case receive id ident message =>
        cases message <;> first | trivial | exact fun _ _ _ _ _ _ => trivial
    have hsecure := Secure.run hconf hmono
    refine ⟨hsecure.sent, fun file ident uc huc => ?_⟩
    obtain ⟨spelled, token, hspelled, htoken, -⟩ :=
      (hsecure.files file).integrated ident uc huc
    exact ⟨spelled, hspelled, token, htoken⟩
  · intro hrun
    have hsecure := Secure.run hconf hrun
    exact fun file => (hsecure.files file).integrated

end

-- ===== examples

/-- The path of a file. -/
def exampleFile : Bytes := ascii ['f']

/-- A server with one key, whose tokens all read as a token for the
example file with the given access strings. -/
def exampleConfig (access : List Bytes) : ServerConfig UInt8 where
  rootDir := []
  format :=
    { base64Decode := some
      jsonEvents := fun _ => some
        ([.objectBegin, .string (ascii ['a', 'c', 'c', 'e', 's', 's']),
            .arrayBegin] ++ access.map .string
          ++ [.arrayEnd, .string (ascii ['p', 'a', 't', 'h']),
            .string exampleFile, .objectEnd])
      verify := fun key _ signature => signature = [key] }
  control := { publicKey := some 107, tenantPublicKeys := none }
  isJsonObject := fun _ => true

/-- An object is created. -/
def createInstr : Instr :=
  .createObject ⟨0, ascii ['T']⟩ (.int 1)

/-- A client binds the file with a token signed by the key, uploads a
changeset that creates an object, the unit integrates it, and a DOWNLOAD
message is sent. -/
def creatingRun : List ServerEvent :=
  [.connect 1 (ascii ['t', ':', 'k']) false,
    .receive 1 1 (.bind exampleFile false 0 true),
    .receive 1 1 (.ident 7 0 false none),
    .receive 1 1 (.upload ⟨⟨1, 0⟩, 0, [⟨⟨1, 0⟩, [createInstr]⟩]⟩ true true),
    .execute exampleFile (fun _ => false) false,
    .sendDownload 1 1 false 1 false]

/-- The access strings `download` and `upload`. -/
def readWrite : List Bytes :=
  [ascii ['d', 'o', 'w', 'n', 'l', 'o', 'a', 'd'],
    ascii ['u', 'p', 'l', 'o', 'a', 'd']]

theorem effects_authorised_upload :
    ∃ s, Sys.exec (ServerState.step (exampleConfig readWrite))
        ServerState.start creatingRun = some s
      ∧ (∃ e ∈ s.sent, Authorised (exampleConfig readWrite) e.grant e.file)
      ∧ ∃ uc ∈ ((s.files exampleFile).rows 7).integrated,
        ∃ spelled token,
          SameFile (exampleConfig readWrite) spelled exampleFile
          ∧ AuthorisedBy (exampleConfig readWrite) uc.changeset.grant
            spelled token
          ∧ IncludesAll token uc.changeset.instructions := by
  have hconf : (exampleConfig readWrite).control.IsConfigured :=
    Or.inl rfl
  refine ⟨_, rfl, ⟨_, List.mem_cons_self, ?_⟩, _, List.mem_cons_self, ?_⟩
  · have hrun := @Sys.run_of_exec _ _
      (step (exampleConfig readWrite)) (fun _ _ => True)
      start _ creatingRun rfl (by decide)
    exact ((effects_authorised hconf _).1 hrun).1 _ List.mem_cons_self
  · have hrun := @Sys.run_of_exec _ _ (step (exampleConfig readWrite))
      (Permitted (exampleConfig readWrite) IncludesAll)
      start _ creatingRun rfl (by decide)
    exact (effects_authorised hconf _).2 hrun exampleFile 7 _
      List.mem_cons_self

/-- A token that may only download: the object is created all the
same. -/
theorem readOnly_token_creates :
    ∃ s token, Sys.exec (ServerState.step (exampleConfig (readWrite.take 1)))
        ServerState.start creatingRun = some s
      ∧ ((exampleConfig (readWrite.take 1)).control.verifyAccessToken
        (exampleConfig (readWrite.take 1)).format
          (ascii ['t', ':', 'k'])).toOption = some token
      ∧ token.includes .create = false
      ∧ ((s.files exampleFile).rows 7).integrated.map
          (fun uc => uc.changeset.instructions) = [[createInstr]] := by
  refine ⟨_, _, rfl, rfl, ?_, ?_⟩
  · decide
  · decide

end BarqSync.Server
