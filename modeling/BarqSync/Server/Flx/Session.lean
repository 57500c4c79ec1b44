/-
The download side of a flexible sync session (`Session` of
`noinst/server/server.cpp`): which objects its user and its subscription
see, and the DOWNLOAD messages that bring them to the client.

# Two modes

After a query was accepted the session sends a bootstrap: the objects of
the new view that the client lacks and the removals of those it should
drop, from one snapshot, in as many messages as the size limit asks for.
Afterwards it is incremental: a scan of the history names the objects
that were touched, and each of them is sent or erased by what a newer
snapshot shows.

# What the session remembers

`visible` is the server's record of what the client holds. It follows
the messages as they are built, and it is stored with the file at the
same moments, so a later session of the client starts from it.

# Parameters

`FlxEnv` holds the configuration and the user, and two functions the
session calls: the query engine (`Query::eval_object`) and the size of an
encoded changeset.
-/
import Mathlib
import BarqSync.Protocol
import BarqSync.Server.Flx.Changes

namespace BarqSync.Flx

-- ===== rules

/-- `Server::Config::FLXRule::Mode`. -/
inductive FlxRuleMode
  | owner
  | publicReadOnly
deriving DecidableEq, Repr

/-- `Server::Config::FLXRule`. -/
structure FlxRule where
  table : Bytes
  mode : FlxRuleMode
  ownerField : Bytes
deriving DecidableEq, Repr

/-- What a session works with. -/
structure FlxEnv where
  rules : List FlxRule
  userIdentity : Bytes
  userIsAdmin : Bool
  maxDownloadSize : Nat
  /-- `table->query(query_string)` and `eval_object`. -/
  evalObject : Bytes → FlxDb → ObjectRef → Bool
  /-- `encode_changeset`. -/
  encodedSize : List FlxInstr → Nat

/-- `find_flx_rule_for_table`: by the table's name or its class name. -/
def findFlxRule (rules : List FlxRule) (table : Bytes) : Option FlxRule :=
  (rules.find? fun rule => rule.table = table).or
    (rules.find? fun rule => rule.table = tableNameToClassName table)

/-- `flx_object_owner_matches`: the owner column is a string and holds
the identity. -/
def ownerMatches (table : FlxTable) (fields : FlxFields)
    (ownerField identity : Bytes) : Bool :=
  (table.columns.lookup ownerField).any (fun col => col.type = .string) &&
    (fields.lookup ownerField).any fun
      | .mixed (.string s) => s = identity
      | _ => false

/-- `object_matches_flx_rule`. -/
def FlxEnv.matchesRule (env : FlxEnv) (rule : FlxRule) (table : FlxTable)
    (fields : FlxFields) : Bool :=
  env.userIsAdmin || rule.mode = .publicReadOnly
    || ownerMatches table fields rule.ownerField env.userIdentity

-- ===== queries

/-- `std::isspace`. -/
def isSpace (c : UInt8) : Bool := c = 32 || (9 ≤ c && c ≤ 13)

/-- The local function `trim`. -/
def trim (s : Bytes) : Bytes :=
  ((s.dropWhile isSpace).reverse.dropWhile isSpace).reverse

/-- Strip the parentheses around a query, as many as it has. -/
def stripParens : Nat → Bytes → Bytes
  | 0, s => s
  | n + 1, s =>
    if 2 ≤ s.length ∧ s.head? = some 40 ∧ s.getLast? = some 41
    then stripParens n (trim (s.drop 1).dropLast)
    else s

/-- `flx_query_is_match_all`. -/
def flxQueryIsMatchAll (query : Bytes) : Bool :=
  let stripped := stripParens query.length (trim query)
  stripped = [] || stripped = bytes ['T', 'R', 'U', 'E', 'P', 'R', 'E',
    'D', 'I', 'C', 'A', 'T', 'E']

/-- `m_flx_queries`: query strings by table or class name. -/
abbrev FlxQueries := List (Bytes × Bytes)

/-- `get_flx_table`: the name of the table a subscription is for. -/
def FlxDb.flxTable (db : FlxDb) (name : Bytes) : Option Bytes :=
  if (db.getTable name).isSome then some name
  else if (db.getTable (classNameToTableName name)).isSome
  then some (classNameToTableName name)
  else none

/-- `std::map` from strings. -/
abbrev StringMap (α : Type) := Std.ExtTreeMap Bytes α compare

/-- `compile_flx_queries`: the queries of each table that has a rule. -/
def FlxEnv.compileFlxQueries (env : FlxEnv) (db : FlxDb)
    (queries : FlxQueries) : StringMap (FlxRule × List Bytes) :=
  queries.foldl (fun compiled q =>
      ((db.flxTable q.1).bind fun name =>
        ((db.getTable name).filter fun t =>
          !t.embedded && !t.asymmetric).bind fun _ =>
        (findFlxRule env.rules name).map fun rule =>
          compiled.insert name
            (rule, (compiled[name]?.elim [] (·.2)) ++ [q.2])).getD compiled)
    ∅

/-- `object_matches_flx_compiled_table`. -/
def FlxEnv.matchesCompiledTable (env : FlxEnv) (db : FlxDb)
    (compiled : FlxRule × List Bytes) (table : FlxTable)
    (ref : ObjectRef) (fields : FlxFields) : Bool :=
  env.matchesRule compiled.1 table fields && compiled.2.any fun query =>
      flxQueryIsMatchAll query || env.evalObject query db ref

/-- The object is in the view: it exists and satisfies the rule of its
table and one of the queries. -/
def FlxEnv.isVisible (env : FlxEnv) (db : FlxDb) (queries : FlxQueries)
    (ref : ObjectRef) : Bool :=
  ((env.compileFlxQueries db queries)[ref.1]?).any fun compiled =>
    (db.getTable ref.1).any fun table =>
      (db.findObject ref).any fun fields =>
        env.matchesCompiledTable db compiled table ref fields

-- ===== session state

/-- `FLXVisibleObjects`. -/
abbrev VisibleObjects := StringMap ObjectRef

/-- `FLXBootstrapState`, prepared; `objects` and `removals` are what is
still to be sent. -/
structure FlxBootstrapState where
  serverVersion : Nat
  snapshot : FlxDb
  objects : List ObjectRef
  removals : List ObjectRef
  finalVisibleObjects : VisibleObjects

/-- `FLXIncrementalState`, prepared; `objects` are those still to be
looked at. -/
structure FlxIncrementalState where
  emittedMoreToCome : Bool
  /-- `download_progress.server_version`. -/
  serverVersion : Nat
  snapshot : FlxDb
  objects : List (Bytes × ObjectRef)

/-- The fields of `Session` that make an FLX download. -/
structure FlxSession where
  queryVersion : Nat := 0
  queries : FlxQueries := []
  bootstrapPending : Bool := false
  bootstrapSendAllObjects : Bool := true
  visible : VisibleObjects := ∅
  bootstrap : Option FlxBootstrapState := none
  incremental : Option FlxIncrementalState := none
  /-- `m_download_progress.server_version`. -/
  downloadProgress : Nat := 0
  oneDownloadMessageSent : Bool := false

/-- `set_flx_query`, once the query was accepted. -/
def FlxSession.setFlxQuery (s : FlxSession) (queryVersion : Nat)
    (queries : FlxQueries) (sendAll : Bool) : FlxSession :=
  { s with
    queryVersion := queryVersion
    queries := queries
    bootstrapPending := 0 < queryVersion
    bootstrapSendAllObjects := sendAll
    bootstrap := none
    incremental := none }

/-- `receive_query_message`. -/
def FlxSession.receiveQuery (s : FlxSession) (queryVersion : Nat)
    (queries : FlxQueries) : FlxSession :=
  { s.setFlxQuery queryVersion queries false with
    oneDownloadMessageSent := false }

/-- `receive_ident_message`: a new session of a client file whose visible
objects are known. -/
def FlxSession.receiveIdent (visible : VisibleObjects)
    (downloadProgress : Nat) (queryVersion : Nat) (queries : FlxQueries) :
    FlxSession :=
  FlxSession.setFlxQuery
    { visible := visible, downloadProgress := downloadProgress }
    queryVersion queries true

/-- `enqueue_flx_forced_removal`. -/
def FlxSession.forcedRemoval (s : FlxSession) (ref : ObjectRef) :
    FlxSession :=
  { s with visible := s.visible.insert (flxVisibleObjectKey ref) ref }

-- ===== bodies

/-- What is added to the changeset of a body at once: an object, with the
schema of its table if that is not in the changeset yet, or an erasure. -/
inductive FlxChange
  | object (schema : List FlxInstr) (ref : ObjectRef)
      (changes : List (Bytes × List FlxInstr))
  | erase (ref : ObjectRef)

/-- The instructions of a change. -/
def FlxChange.instrs : FlxChange → List FlxInstr
  | .object schema ref changes => schema ++ flxAddObject ref changes
  | .erase ref => [flxAddEraseObject ref]

/-- The table an object of the body belongs to. -/
def FlxChange.schemaTable : FlxChange → Option Bytes
  | .object _ ref _ => some ref.1
  | .erase _ => none

/-- The changeset of a body. -/
abbrev FlxBody := List FlxChange

/-- The instructions of the changeset. -/
def FlxBody.instrs (body : FlxBody) : List FlxInstr :=
  body.flatMap FlxChange.instrs

/-- `flx_accept_candidate_changeset`: the first change always fits. -/
def FlxEnv.accepts (env : FlxEnv) (body : FlxBody) (change : FlxChange) :
    Bool :=
  body.isEmpty || env.encodedSize (FlxBody.instrs (body ++ [change]))
      ≤ env.maxDownloadSize

/-- The change for an object that exists in a snapshot. The schema goes
along with the first object of its table. -/
def objectChange (db : FlxDb) (body : FlxBody) (ref : ObjectRef) :
    Option FlxChange :=
  (db.image ref).map <| .object
    (if some ref.1 ∈ body.map FlxChange.schemaTable then []
      else db.addSchema ref.1)
    ref

/-- The loop over the objects of a bootstrap: the changeset so far, and
the objects left over. -/
def FlxEnv.addObjects (env : FlxEnv) (db : FlxDb) :
    FlxBody → List ObjectRef → FlxBody × List ObjectRef
  | body, [] => (body, [])
  | body, ref :: refs =>
    (objectChange db body ref).elim (env.addObjects db body refs)
      fun change =>
        if env.accepts body change
        then env.addObjects db (body ++ [change]) refs
        else (body, ref :: refs)

/-- The loop over the removals of a bootstrap. -/
def FlxEnv.addRemovals (env : FlxEnv) :
    FlxBody → List ObjectRef → FlxBody × List ObjectRef
  | body, [] => (body, [])
  | body, ref :: refs =>
    if env.accepts body (.erase ref)
    then env.addRemovals (body ++ [.erase ref]) refs
    else (body, ref :: refs)

/-- The loop of `make_flx_incremental_body`: the changeset, the visible
objects and the touched objects left over. -/
def FlxEnv.addTouched (env : FlxEnv) (db : FlxDb) (queries : FlxQueries) :
    FlxBody → VisibleObjects → List (Bytes × ObjectRef)
      → FlxBody × VisibleObjects × List (Bytes × ObjectRef)
  | body, visible, [] => (body, visible, [])
  | body, visible, (key, ref) :: touched =>
    if env.isVisible db queries ref then
      (objectChange db body ref).elim
        (env.addTouched db queries body visible touched)
        fun change =>
          if env.accepts body change
          then env.addTouched db queries (body ++ [change])
            (visible.insert key ref) touched
          else (body, visible, (key, ref) :: touched)
    else
      (visible[key]?).elim (env.addTouched db queries body visible touched)
        fun old =>
          if env.accepts body (.erase old)
          then env.addTouched db queries (body ++ [.erase old])
            (visible.erase key) touched
          else (body, visible, (key, ref) :: touched)

-- ===== bootstrap

/-- The objects of all tables with queries that are in the view. -/
def FlxEnv.viewObjects (env : FlxEnv) (db : FlxDb) (queries : FlxQueries) :
    List ObjectRef :=
  (env.compileFlxQueries db queries).toList.flatMap fun compiled =>
    (db.objects.map (·.1)).filter fun ref =>
      ref.1 = compiled.1 && env.isVisible db queries ref

/-- `emplace`, which keeps an earlier entry. -/
def emplaceVisible (visible : VisibleObjects) (ref : ObjectRef) :
    VisibleObjects :=
  visible.insertIfNew (flxVisibleObjectKey ref) ref

/-- `final_visible_objects`. -/
def FlxEnv.finalVisible (env : FlxEnv) (db : FlxDb)
    (queries : FlxQueries) : VisibleObjects :=
  (env.viewObjects db queries).foldl emplaceVisible ∅

/-- `append_flx_bootstrap_object_with_dependencies`: the keys emitted and
the objects appended so far. `visiting` grows by a key of `final` on
every level, so that `fuel` need not exceed their number. -/
def appendWithDependencies (db : FlxDb) (final : VisibleObjects)
    (skip : Bytes → Bool) :
    Nat → List Bytes → List Bytes × List ObjectRef → Bytes → ObjectRef
      → List Bytes × List ObjectRef
  | 0, _, acc, _, _ => acc
  | fuel + 1, visiting, acc, key, ref =>
    if key ∈ acc.1 ∨ key ∈ visiting then acc
    else if skip key then (key :: acc.1, acc.2)
    else
      let deps := ((db.getTable ref.1).bind fun table =>
        (db.findObject ref).map (db.dependencies table)).getD []
      let acc := deps.foldl (fun acc dep =>
          (final[flxVisibleObjectKey dep]?).elim acc
            (appendWithDependencies db final skip fuel (key :: visiting)
              acc (flxVisibleObjectKey dep))) acc
      (key :: acc.1, acc.2 ++ [ref])

/-- `prepare_flx_bootstrap_state`. -/
def FlxSession.prepareBootstrap (s : FlxSession) (env : FlxEnv)
    (db : FlxDb) (serverVersion : Nat) : FlxBootstrapState :=
  let final := env.finalVisible db s.queries
  let skip := fun key =>
    !s.bootstrapSendAllObjects && s.visible.contains key
  { serverVersion := serverVersion
    snapshot := db
    objects := (final.toList.foldl
      (fun acc e => appendWithDependencies db final skip
        (final.size + 1) [] acc e.1 e.2) ([], [])).2
    removals := (s.visible.toList.filter fun e =>
      !final.contains e.1).map (·.2)
    finalVisibleObjects := final }

-- ===== messages

/-- A DOWNLOAD message. -/
structure FlxDownload where
  queryVersion : Nat
  batchState : DownloadBatchState
  serverVersion : Nat
  body : FlxBody

/-- A DOWNLOAD message of the bootstrap in progress. -/
def FlxSession.sendBootstrap (s : FlxSession) (env : FlxEnv)
    (b : FlxBootstrapState) : FlxSession × FlxDownload :=
  let objects := env.addObjects b.snapshot [] b.objects
  let removals := if objects.2 = [] then
    env.addRemovals objects.1 b.removals else (objects.1, b.removals)
  let message := fun state =>
    ⟨s.queryVersion, state, b.serverVersion, removals.1⟩
  let sent := { s with
    downloadProgress := b.serverVersion
    oneDownloadMessageSent := true }
  if objects.2 = [] ∧ removals.2 = [] then
    ({ sent with
        visible := b.finalVisibleObjects
        bootstrapPending := false
        bootstrap := none
        incremental := none }, message .lastInBatch)
  else
    ({ sent with
        bootstrap := some { b with
          objects := objects.2
          removals := removals.2 } }, message .moreToCome)

/-- A DOWNLOAD message of the incremental body in progress. -/
def FlxSession.sendIncremental (s : FlxSession) (env : FlxEnv)
    (i : FlxIncrementalState) : FlxSession × FlxDownload :=
  let made := env.addTouched i.snapshot s.queries [] s.visible i.objects
  let message := fun state =>
    ⟨s.queryVersion, state, i.serverVersion, made.1⟩
  let sent := { s with
    visible := made.2.1
    downloadProgress := i.serverVersion
    oneDownloadMessageSent := true }
  if made.2.2 = [] then
    ({ sent with
        bootstrap := if i.emittedMoreToCome then none else s.bootstrap
        incremental := none },
      message (if i.emittedMoreToCome then .lastInBatch else .steadyState))
  else
    ({ sent with
        incremental := some { i with
          emittedMoreToCome := true
          objects := made.2.2 } }, message .moreToCome)

/-- `touched_objects`: a later object with the same key replaces an
earlier one. -/
def touchedObjects (touched : List ObjectRef) : VisibleObjects :=
  touched.foldl (fun map ref => map.insert (flxVisibleObjectKey ref) ref) ∅

/-- `have_more_to_scan`, when the newest version the session knows is
`known`. -/
def FlxSession.haveMoreToScan (s : FlxSession) (known : Nat) : Bool :=
  s.downloadProgress < known || !s.oneDownloadMessageSent
    || s.bootstrapPending || s.incremental.isSome

/-- What `fetch_download_info` finds between the download progress and
the version it stops at: the objects that changesets of other origins
touch. -/
structure FlxScan where
  upTo : Nat
  touched : List ObjectRef

/-- The body of `continue_history_scan` when there is something to send.
`db` is the newest snapshot and `known` the newest version the session
knows. -/
def FlxSession.continueHistoryScan (s : FlxSession) (env : FlxEnv)
    (db : FlxDb) (known : Nat) (scan : FlxScan) :
    FlxSession × FlxDownload :=
  if s.bootstrapPending then
    s.sendBootstrap env
      (s.bootstrap.getD (s.prepareBootstrap env db known))
  else
    s.incremental.elim (if scan.touched = [] then
        ({ s with
            downloadProgress := scan.upTo
            oneDownloadMessageSent := true },
          ⟨s.queryVersion, .steadyState, scan.upTo, []⟩)
      else
        s.sendIncremental env
          ⟨false, scan.upTo, db, (touchedObjects scan.touched).toList⟩)
      (s.sendIncremental env)

end BarqSync.Flx
