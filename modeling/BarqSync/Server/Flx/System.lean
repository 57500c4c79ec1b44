/-
A flexible sync session together with the file it reads from, the history
of that file and the client it sends to.

# The client

The client is what it holds of each object: per column, the instructions
that set it last (`FlxContent`). A body of the steady state is applied at
once; the parts of a batch are buffered and applied together with the
last of them, and parts of an older query version are dropped.

# Events

Other clients commit; the session's own client uploads, and the server
may undo part of that in a compensating write, whose history entry is not
the client's; the worker's result becomes known to the session
(`finalize`); the session sends; a message arrives; a QUERY message
arrives; the connection is replaced by a new one, with all messages
underway lost. The parts of a batch that the client has stored outlast
the connection; only a client that starts anew clears them.

An upload changes the client and the server in one event. Messages
underway at that moment are in `inflight`.
-/
import BarqSync.Server.Flx.Session

namespace BarqSync.Flx

-- ===== client

/-- What a client holds of an object, by column. -/
abbrev FlxHeld := Bytes → Option (List FlxInstr)

/-- What a client holds. -/
abbrev FlxContent := ObjectRef → Option FlxHeld

/-- An object after its columns were sent. -/
def FlxHeld.put (held : Option FlxHeld)
    (changes : List (Bytes × List FlxInstr)) : FlxHeld :=
  fun name => (changes.lookup name).or (held.bind (· name))

/-- The client applies a change. -/
def FlxContent.apply (c : FlxContent) : FlxChange → FlxContent
  | .object _ ref changes =>
    Function.update c ref (some (FlxHeld.put (c ref) changes))
  | .erase ref => Function.update c ref none

/-- The client applies a changeset. -/
def FlxContent.applyBody (c : FlxContent) (body : FlxBody) : FlxContent :=
  body.foldl FlxContent.apply c

/-- The client. `progress` is the download cursor it has stored. -/
structure FlxClient where
  objects : FlxContent
  buffer : FlxBody := []
  bufferVersion : Nat := 0
  progress : Nat := 0

/-- The parts stored of the batch of a query version. -/
def FlxClient.stored (c : FlxClient) (queryVersion : Nat) : FlxBody :=
  if c.bufferVersion = queryVersion then c.buffer else []

/-- The parts of the batch a message belongs to. -/
def FlxClient.batch (c : FlxClient) (m : FlxDownload) : FlxBody :=
  c.stored m.queryVersion ++ m.body

/-- The client receives a DOWNLOAD message. -/
def FlxClient.receive (c : FlxClient) (m : FlxDownload) : FlxClient :=
  match m.batchState with
  | .steadyState => { c with
      objects := c.objects.applyBody m.body
      progress := m.serverVersion }
  | .moreToCome => { c with
      buffer := c.batch m
      bufferVersion := m.queryVersion }
  | .lastInBatch =>
    { objects := c.objects.applyBody (c.batch m)
      buffer := []
      bufferVersion := m.queryVersion
      progress := m.serverVersion }

-- ===== system

/-- An entry of the server's history. -/
structure FlxEntry where
  version : Nat
  /-- Its origin is the session's client file. -/
  own : Bool
  touched : List ObjectRef

/-- The objects that entries of other origins touch after a version, up
to another. -/
def touchedBetween (log : List FlxEntry) (after upTo : Nat) :
    List ObjectRef :=
  (log.filter fun e => !e.own && after < e.version
    && e.version ≤ upTo).flatMap (·.touched)

/-- The system. -/
structure FlxSystem where
  db : FlxDb
  version : Nat
  log : List FlxEntry
  /-- The newest version the session knows. -/
  known : Nat
  session : FlxSession
  /-- `pending_flx_forced_removals`. -/
  forced : List ObjectRef := []
  inflight : List FlxDownload := []
  client : FlxClient
  /-- The download progress before the bootstrap in progress. -/
  bootstrapFrom : Nat := 0

/-- What happens. -/
inductive FlxEvent
  | commit (db : FlxDb) (touched : List ObjectRef)
  | upload (db : FlxDb) (writes : List (ObjectRef × Option FlxHeld))
      (compensated forced : List ObjectRef)
  | finalize
  | send (upTo : Nat)
  | deliver
  | query (queryVersion : Nat) (queries : FlxQueries)
  | reconnect (restarted : Bool) (queryVersion : Nat)
      (queries : FlxQueries)

/-- The client's own writes. -/
def FlxContent.write (c : FlxContent)
    (writes : List (ObjectRef × Option FlxHeld)) : FlxContent :=
  writes.foldl (fun c w => Function.update c w.1 w.2) c

/-- The history entries of an upload: the upload's own, and the
compensating write's if there is one. -/
def uploadEntries (version : Nat) (touched compensated : List ObjectRef) :
    List FlxEntry :=
  ⟨version + 1, true, touched⟩ ::
    if compensated = [] then [] else [⟨version + 2, false, compensated⟩]

/-- The session is about to prepare a bootstrap. -/
def FlxSession.preparesBootstrap (s : FlxSession) : Bool :=
  s.bootstrapPending && s.bootstrap.isNone

/-- One event. -/
def FlxSystem.step (env : FlxEnv) (sys : FlxSystem) :
    FlxEvent → Option FlxSystem
  | .commit db touched =>
    some { sys with
      db := db
      version := sys.version + 1
      log := sys.log ++ [⟨sys.version + 1, false, touched⟩] }
  | .upload db writes compensated forced =>
    let entries :=
      uploadEntries sys.version (writes.map (·.1)) compensated
    some { sys with
      db := db
      version := sys.version + entries.length
      log := sys.log ++ entries
      forced := sys.forced ++ forced
      client := { sys.client with
        objects := sys.client.objects.write writes } }
  | .finalize =>
    some { sys with
      known := sys.version
      session := sys.forced.foldl FlxSession.forcedRemoval sys.session
      forced := [] }
  | .send upTo =>
    if sys.session.haveMoreToScan sys.known
        ∧ sys.session.downloadProgress ≤ upTo ∧ upTo ≤ sys.known then
      let scan := ⟨upTo,
        touchedBetween sys.log sys.session.downloadProgress upTo⟩
      let sent := sys.session.continueHistoryScan env sys.db sys.known scan
      some { sys with
        session := sent.1
        inflight := sys.inflight ++ [sent.2]
        bootstrapFrom := if sys.session.preparesBootstrap
          then sys.session.downloadProgress else sys.bootstrapFrom }
    else none
  | .deliver =>
    sys.inflight.head?.map fun m => { sys with
      inflight := sys.inflight.tail
      client := sys.client.receive m }
  | .query queryVersion queries =>
    if sys.session.queryVersion < queryVersion then
      some { sys with
        session := sys.session.receiveQuery queryVersion queries }
    else none
  | .reconnect restarted queryVersion queries =>
    some { sys with
      session := FlxSession.receiveIdent sys.session.visible
        sys.client.progress queryVersion queries
      inflight := []
      client := { sys.client with
        buffer := if restarted then [] else sys.client.buffer } }

-- ===== settling

/-- The client once the messages underway have arrived. -/
def FlxSystem.arrived (sys : FlxSystem) : FlxClient :=
  sys.inflight.foldl FlxClient.receive sys.client

/-- What the client will hold by what was sent so far, the parts of an
unfinished batch included. -/
def FlxSystem.settled (sys : FlxSystem) : FlxContent :=
  sys.arrived.objects.applyBody
    (sys.arrived.stored sys.session.queryVersion)

/-- The session has nothing more to send, knows the newest version, and
all it sent has arrived. -/
def FlxSystem.quiescent (sys : FlxSystem) : Prop :=
  sys.known = sys.version ∧ sys.forced = [] ∧ sys.inflight = []
    ∧ sys.session.haveMoreToScan sys.known = false

instance (sys : FlxSystem) : Decidable sys.quiescent :=
  inferInstanceAs (Decidable (_ ∧ _ ∧ _ ∧ _))

/-- An object is in the view of the newest state. -/
def FlxSystem.inView (env : FlxEnv) (sys : FlxSystem) (r : ObjectRef) :
    Bool :=
  env.isVisible sys.db sys.session.queries r

/-- A client holds an object as a snapshot has it: in each column that is
sent it has what would be sent. -/
def Agrees (held : Option FlxHeld)
    (image : Option (List (Bytes × List FlxInstr))) : Prop :=
  image.elim (held = none) fun changes =>
    ∃ h, held = some h
      ∧ ∀ name instrs, changes.lookup name = some instrs
        → h name = some instrs

end BarqSync.Flx
