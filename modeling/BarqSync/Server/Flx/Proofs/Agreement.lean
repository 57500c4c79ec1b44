/-
Two servers whose snapshots agree on the schema, on the view, and on what
its objects hold (`SameView`), and their sessions. Beyond the view they
may differ in everything.

Which touched objects a session looks at differs between the two. An
object that was never in the view leaves no trace in the loop over them
(`addTouched_filter`), so the loops do the same.
-/
import BarqSync.Server.Flx.Proofs.Emission
import BarqSync.Server.Flx.Proofs.Exact

namespace BarqSync.Flx

open FlxEnv FlxSession

-- ===== the inputs

/-- What reaches a session. The record of the client file stays from one
IDENT message to the next. -/
inductive FlxInput
  | ident (downloadProgress queryVersion : Nat) (queries : FlxQueries)
  | query (queryVersion : Nat) (queries : FlxQueries)
  | forced (ref : ObjectRef)
  | send (db : FlxDb) (known : Nat) (scan : FlxScan)

/-- The session after an input. -/
def FlxSession.take (env : FlxEnv) (s : FlxSession) : FlxInput → FlxSession
  | .ident downloadProgress queryVersion queries =>
    .receiveIdent s.visible downloadProgress queryVersion queries
  | .query queryVersion queries => s.receiveQuery queryVersion queries
  | .forced ref => s.forcedRemoval ref
  | .send db known scan => (s.continueHistoryScan env db known scan).1

/-- The snapshot the next body is built from, when `db` is the newest. -/
def FlxSession.bodySnapshot (s : FlxSession) (db : FlxDb) : FlxDb :=
  if s.bootstrapPending then s.bootstrap.elim db (·.snapshot)
  else s.incremental.elim db (·.snapshot)

/-- A message with what it was built from. -/
structure FlxSent where
  snapshot : FlxDb
  queries : FlxQueries
  message : FlxDownload

/-- What is sent at an input. -/
def FlxSession.give (env : FlxEnv) (s : FlxSession) :
    FlxInput → List FlxSent
  | .send db known scan =>
    [⟨s.bodySnapshot db, s.queries,
      (s.continueHistoryScan env db known scan).2⟩]
  | _ => []

/-- All that is sent. -/
def FlxSession.downloads (env : FlxEnv) :
    FlxSession → List FlxInput → List FlxSent
  | _, [] => []
  | s, e :: es => s.give env e ++ (s.take env e).downloads env es

/-- What a message shows: all but its version numbers. -/
def FlxSent.revealed (m : FlxSent) : Nat × DownloadBatchState × FlxBody :=
  (m.message.queryVersion, m.message.batchState, m.message.body)

-- ===== agreement

/-- Two snapshots agree on a user's view: on the schema, on which objects
are in it, and on their values and the objects these link to. -/
structure SameView (env : FlxEnv) (queries : FlxQueries)
    (db db' : FlxDb) : Prop where
  schema : SameSchema db db'
  visible : ∀ r, env.isVisible db queries r = env.isVisible db' queries r
  values : ∀ r, env.isVisible db queries r = true →
    db.findObject r = db'.findObject r
  links : ∀ r fields, env.isVisible db queries r = true →
    db.findObject r = some fields → SameHas db db' (fieldLinks fields)

/-- Two runs agree at each step; `seen` are the objects that were in the
view or in the record so far. The versions are free. -/
inductive SameInputs (env : FlxEnv) :
    FlxQueries → (ObjectRef → Bool) → List FlxInput → List FlxInput → Prop
  | nil {queries : FlxQueries} {seen : ObjectRef → Bool} :
      SameInputs env queries seen [] []
  | ident {queries queries' : FlxQueries} {seen : ObjectRef → Bool}
      {es es' : List FlxInput} (progress progress' queryVersion : Nat)
      (h : SameInputs env queries' seen es es') :
      SameInputs env queries seen
        (.ident progress queryVersion queries' :: es)
        (.ident progress' queryVersion queries' :: es')
  | query {queries queries' : FlxQueries} {seen : ObjectRef → Bool}
      {es es' : List FlxInput} (queryVersion : Nat)
      (h : SameInputs env queries' seen es es') :
      SameInputs env queries seen (.query queryVersion queries' :: es)
        (.query queryVersion queries' :: es')
  | forced {queries : FlxQueries} {seen : ObjectRef → Bool}
      {es es' : List FlxInput} (ref : ObjectRef)
      (h : SameInputs env queries (fun r => r = ref || seen r) es es') :
      SameInputs env queries seen (.forced ref :: es) (.forced ref :: es')
  | send {queries : FlxQueries} {seen : ObjectRef → Bool}
      {es es' : List FlxInput} {db db' : FlxDb} (known known' : Nat)
      {scan scan' : FlxScan} (hview : SameView env queries db db')
      (hscan : ∀ r, (seen r || env.isVisible db queries r) = true →
        (r ∈ scan.touched ↔ r ∈ scan'.touched))
      (h : SameInputs env queries
        (fun r => seen r || env.isVisible db queries r) es es') :
      SameInputs env queries seen (.send db known scan :: es)
        (.send db' known' scan' :: es')

/-- The condition on an input: no tab in the name of a table, and no
removal by force while an incremental body is half sent. -/
def Separated (s : FlxSession) : FlxInput → Prop
  | .forced ref => 9 ∉ ref.1 ∧ s.incremental = none
  | .send db _ scan => db.NoTab ∧ ∀ r ∈ scan.touched, 9 ∉ r.1
  | _ => True

-- ===== the loops

section loops

variable {env : FlxEnv} {queries : FlxQueries} {db db' : FlxDb}
  {r : ObjectRef}

section

variable (h : SameView env queries db db')

include h

/-- A visible object is found in both. -/
theorem SameView.found (hr : env.isVisible db queries r = true) :
    ∃ table fields, db.getTable r.1 = some table
      ∧ db.findObject r = some fields ∧ db'.getTable r.1 = some table
      ∧ db'.findObject r = some fields
      ∧ SameHas db db' (fieldLinks fields) := by
  obtain ⟨-, table, fields, -, ht, hf, -⟩ := isVisible_iff.1 hr
  refine ⟨table, fields, ht, hf, ?_, ?_, h.links r fields hr hf⟩
  · rw [← h.schema.getTable, ht]
  · rw [← h.values r hr, hf]

theorem SameView.image (hr : env.isVisible db queries r = true) :
    db.image r = db'.image r := by
  obtain ⟨table, fields, ht, hf, ht', hf', hlinks⟩ := h.found hr
  rw [FlxDb.image, FlxDb.image, ht, ht', Option.bind_some,
    Option.bind_some, hf, hf', Option.map_some, Option.map_some,
    fieldChanges_congr h.schema r table hlinks]

theorem SameView.objectChange
    (body : FlxBody) (hr : env.isVisible db queries r = true) :
    objectChange db body r = objectChange db' body r := by
  rw [BarqSync.Flx.objectChange, BarqSync.Flx.objectChange, h.image hr,
    h.schema.addSchema]

theorem SameView.addObjects {refs : List ObjectRef}
    (hrefs : ∀ r ∈ refs, env.isVisible db queries r = true) :
    ∀ body, env.addObjects db body refs = env.addObjects db' body refs := by
  induction refs with
  | nil => exact fun body => rfl
  | cons r refs ih =>
    have hrest := ih fun r' hr' => hrefs r' (List.mem_cons_of_mem _ hr')
    intro body
    rw [FlxEnv.addObjects, FlxEnv.addObjects,
      h.objectChange body (hrefs r List.mem_cons_self)]
    simp only [hrest]

theorem SameView.addTouched (touched : List (Bytes × ObjectRef)) :
    ∀ body visible, env.addTouched db queries body visible touched
      = env.addTouched db' queries body visible touched := by
  induction touched with
  | nil => exact fun body visible => rfl
  | cons e touched ih =>
    intro body visible
    obtain ⟨key, r⟩ := e
    rw [FlxEnv.addTouched, FlxEnv.addTouched, ← h.visible r]
    by_cases hr : env.isVisible db queries r = true
    · rw [if_pos hr, if_pos hr, h.objectChange body hr]
      simp only [ih]
    · rw [if_neg hr, if_neg hr]
      simp only [ih]

end

/-- Touched objects that are neither in the view nor in the record leave
no trace: the loop does the same without them, and it stops for the same
object. -/
theorem addTouched_filter {p : ObjectRef → Bool}
    (hview : ∀ r, env.isVisible db queries r = true → p r = true)
    (touched : List (Bytes × ObjectRef)) :
    ∀ body visible, TouchedList touched → Keyed visible →
      (∀ r, Tracks visible r → p r = true) →
      let made := env.addTouched db queries body visible touched
      env.addTouched db queries body visible
          (touched.filter fun e => p e.2)
        = (made.1, made.2.1, made.2.2.filter fun e => p e.2)
      ∧ (made.2.2 = [] ↔ (made.2.2.filter fun e => p e.2) = [])
      ∧ Keyed made.2.1 ∧ (∀ r, Tracks made.2.1 r → p r = true)
      ∧ TouchedList made.2.2 := by
  induction touched with
  | nil => exact fun body visible ht hv hp => ⟨rfl, Iff.rfl, hv, hp, ht⟩
  | cons e touched ih =>
    intro body visible htouched hkeyed hrecord
    obtain ⟨key, r⟩ := e
    obtain ⟨hkey, hnoTab⟩ := htouched.key (key, r) List.mem_cons_self
    have hkey : key = flxVisibleObjectKey r := hkey
    have hnoTab : 9 ∉ r.1 := hnoTab
    have htail := htouched.tail
    have hkeep (hpr : p r = true) :
        (((key, r) :: touched).filter fun e => p e.2)
          = (key, r) :: touched.filter fun e => p e.2 :=
      List.filter_cons_of_pos hpr
    by_cases hr : env.isVisible db queries r = true
    · -- in the view: sent or left over
      have hpr := hview r hr
      obtain ⟨changes, himage⟩ := image_of_isVisible hr
      obtain ⟨schema, hchange⟩ := objectChange_eq himage body
      rw [hkeep hpr]
      simp only [addTouched, if_pos hr, hchange, Option.elim_some]
      by_cases hfits : env.accepts body (.object schema r changes) = true
      · simp only [if_pos hfits, hkey]
        apply ih _ _ htail (hkeyed.insert hnoTab)
        intro r' hr'
        rcases (tracks_insert hkeyed hnoTab).1 hr' with rfl | hr'
        · exact hpr
        · exact hrecord r' hr'
      · simp only [if_neg hfits]
        refine ⟨by rw [hkeep hpr], ?_, hkeyed, hrecord, htouched⟩
        rw [hkeep hpr]
        simp
    · simp only [addTouched, if_neg hr]
      rcases hold : visible[key]? with _ | old
      · -- neither in the view nor in the record
        simp only [Option.elim_none]
        by_cases hpr : p r = true
        · rw [hkeep hpr]
          simp only [addTouched, if_neg hr, hold, Option.elim_none]
          exact ih body visible htail hkeyed hrecord
        · rw [List.filter_cons, if_neg hpr]
          exact ih body visible htail hkeyed hrecord
      · -- in the record: erased or left over
        have hsame : old = r := by
          rw [hkey] at hold
          exact hkeyed.eq_of_get hnoTab hold
        subst hsame
        have hpr : p old = true := by
          apply hrecord
          rw [Tracks, ← hkey]
          exact hold
        rw [hkeep hpr]
        simp only [addTouched, if_neg hr, hold, Option.elim_some]
        by_cases hfits : env.accepts body (.erase old) = true
        · simp only [if_pos hfits, hkey]
          apply ih _ _ htail (hkeyed.erase _)
          intro r' hr'
          exact hrecord r' ((tracks_erase hkeyed hnoTab).1 hr').2
        · simp only [if_neg hfits]
          refine ⟨by rw [hkeep hpr], ?_, hkeyed, hrecord, htouched⟩
          rw [hkeep hpr]
          simp

end loops

/-- The touched objects that matter are the same in the same order. -/
theorem touchedObjects_filter {touched touched' : List ObjectRef}
    (hnoTab : ∀ r ∈ touched, 9 ∉ r.1) (hnoTab' : ∀ r ∈ touched', 9 ∉ r.1)
    {p : ObjectRef → Bool}
    (h : ∀ r, p r = true → (r ∈ touched ↔ r ∈ touched')) :
    ((touchedObjects touched).toList.filter fun e => p e.2)
      = (touchedObjects touched').toList.filter fun e => p e.2 := by
  obtain ⟨hkeyed, htracks⟩ := touchedObjects_spec hnoTab
  obtain ⟨hkeyed', htracks'⟩ := touchedObjects_spec hnoTab'
  -- both are sorted by key, and they have the same entries
  let before (a b : Bytes × ObjectRef) : Prop := compare a.1 b.1 = .lt
  have : Std.Irrefl before := ⟨fun a ha => by
    have ha : compare a.1 a.1 = .lt := ha
    rw [Std.compare_self] at ha
    cases ha⟩
  have : Std.Antisymm before := ⟨fun a b hab hba => by
    have hab : compare a.1 b.1 = .lt := hab
    have hba : compare b.1 a.1 = .lt := hba
    have hswap : compare a.1 b.1 = (compare b.1 a.1).swap :=
      Std.OrientedCmp.eq_swap
    rw [hswap, hba] at hab
    cases hab⟩
  have hsorted (m : VisibleObjects) :
      (m.toList.filter fun e => p e.2).Pairwise before :=
    Std.ExtTreeMap.ordered_keys_toList.filter _
  refine List.Pairwise.eq_of_mem_iff (hsorted _) (hsorted _) ?_
  intro ⟨key, r⟩
  rw [List.mem_filter, List.mem_filter, hkeyed.mem_toList,
    hkeyed'.mem_toList, htracks, htracks']
  constructor
  · intro ⟨⟨hkey, hr⟩, hp⟩
    exact ⟨⟨hkey, (h r hp).1 hr⟩, hp⟩
  · intro ⟨⟨hkey, hr⟩, hp⟩
    exact ⟨⟨hkey, (h r hp).2 hr⟩, hp⟩

-- ===== bootstrap

section bootstrap

variable {env : FlxEnv} {queries : FlxQueries} {db db' : FlxDb}
  {final : VisibleObjects} {skip : Bytes → Bool}

section

variable (h : SameView env queries db db')

include h

/-- The objects a visible object has to follow. -/
theorem SameView.dependencies
    {r : ObjectRef} (hr : env.isVisible db queries r = true) :
    db.dependenciesOf r = db'.dependenciesOf r := by
  unfold FlxDb.dependenciesOf
  obtain ⟨table, fields, ht, hf, ht', hf', hlinks⟩ := h.found hr
  rw [ht, ht', Option.bind_some, Option.bind_some, hf, hf',
    Option.map_some, Option.map_some,
    dependencies_congr h.schema table hlinks]

theorem SameView.appendWithDependencies
    (hfinal : ∀ (key : Bytes) r, final[key]? = some r →
      env.isVisible db queries r = true) (fuel : Nat) :
    ∀ visiting acc (key : Bytes) r, final[key]? = some r →
      appendWithDependencies db final skip fuel visiting acc key r
        = appendWithDependencies db' final skip fuel visiting acc key r
    := by
  induction fuel with
  | zero => exact fun _ _ _ _ _ => rfl
  | succ fuel ih =>
    intro visiting acc key r hr
    have hone : appendDependency db final skip fuel (key :: visiting)
        = appendDependency db' final skip fuel (key :: visiting) := by
      funext acc dep
      unfold appendDependency
      cases hget : final[flxVisibleObjectKey dep]? with
      | none => rfl
      | some dref => exact ih _ acc _ dref hget
    simp only [appendWithDependencies_succ,
      h.dependencies (hfinal key r hr), hone]

/-- Two bootstraps of one view. -/
theorem SameView.prepareBootstrap
    (hdb : db.NoTab) (hdb' : db'.NoTab) {s s' : FlxSession}
    (hqueries : s.queries = queries) (hqueries' : s'.queries = queries)
    (hsendAll : s.bootstrapSendAllObjects = s'.bootstrapSendAllObjects)
    (hvisible : s.visible = s'.visible) (version version' : Nat) :
    let b := s.prepareBootstrap env db version
    let b' := s'.prepareBootstrap env db' version'
    b.objects = b'.objects ∧ b.removals = b'.removals
      ∧ b.finalVisibleObjects = b'.finalVisibleObjects := by
  obtain ⟨hkeyed, htracks⟩ := @finalVisible_spec env db queries hdb
  obtain ⟨hkeyed', htracks'⟩ := @finalVisible_spec env db' queries hdb'
  have hfinal : env.finalVisible db queries
      = env.finalVisible db' queries := by
    apply hkeyed.ext hkeyed'
    intro r
    rw [htracks, htracks', h.visible]
  have hinView : ∀ (key : Bytes) r,
      (env.finalVisible db' queries)[key]? = some r →
      env.isVisible db queries r = true := by
    intro key r hget
    rw [h.visible, ← htracks', Tracks, ← (hkeyed' key r hget).1, hget]
  have hfold : ∀ (skip : Bytes → Bool) fuel
      (entries : List (Bytes × ObjectRef)) acc,
      (∀ e ∈ entries, (env.finalVisible db' queries)[e.1]? = some e.2) →
      entries.foldl (fun acc e =>
          BarqSync.Flx.appendWithDependencies db
            (env.finalVisible db' queries) skip fuel [] acc e.1 e.2) acc
        = entries.foldl (fun acc e =>
          BarqSync.Flx.appendWithDependencies db'
            (env.finalVisible db' queries) skip fuel [] acc e.1 e.2)
          acc := by
    intro skip fuel entries acc hentries
    refine List.foldl_ext _ _ acc fun acc e he => ?_
    exact h.appendWithDependencies hinView fuel [] acc e.1 e.2
      (hentries e he)
  simp only [FlxSession.prepareBootstrap, hqueries, hqueries', hsendAll,
    hvisible, hfinal]
  refine ⟨?_, trivial, trivial⟩
  rw [hfold]
  intro e he
  exact Std.ExtTreeMap.mem_toList_iff_getElem?_eq_some.1 he

end

end bootstrap

-- ===== the sessions

/-- Two bootstraps in progress of one view; what they record was seen. -/
structure SameBootstrap (env : FlxEnv) (queries : FlxQueries)
    (seen : ObjectRef → Bool) (b b' : FlxBootstrapState) : Prop where
  view : SameView env queries b.snapshot b'.snapshot
  objects : b.objects = b'.objects
  removals : b.removals = b'.removals
  final : b.finalVisibleObjects = b'.finalVisibleObjects
  keyed : Keyed b.finalVisibleObjects
  inView : ∀ r ∈ b.objects, env.isVisible b.snapshot queries r = true
  seen : ∀ r, Tracks b.finalVisibleObjects r → seen r = true

/-- Two incremental bodies in progress that go on alike: the objects that
matter, in the view or in the record, are left over in both. -/
structure SameIncremental (env : FlxEnv) (queries : FlxQueries)
    (record : VisibleObjects) (seen : ObjectRef → Bool)
    (i i' : FlxIncrementalState) : Prop where
  view : SameView env queries i.snapshot i'.snapshot
  emitted : i.emittedMoreToCome = i'.emittedMoreToCome
  touched : TouchedList i.objects
  touched' : TouchedList i'.objects
  matter : ∃ p : ObjectRef → Bool, (∀ r, p r = true → seen r = true)
      ∧ (∀ r, env.isVisible i.snapshot queries r = true → p r = true)
      ∧ (∀ r, Tracks record r → p r = true)
      ∧ (i.objects.filter fun e => p e.2)
        = i'.objects.filter fun e => p e.2

/-- Two sessions that will send the same. -/
structure SameSession (env : FlxEnv) (seen : ObjectRef → Bool)
    (s s' : FlxSession) : Prop where
  queryVersion : s.queryVersion = s'.queryVersion
  queries : s.queries = s'.queries
  pending : s.bootstrapPending = s'.bootstrapPending
  sendAll : s.bootstrapSendAllObjects = s'.bootstrapSendAllObjects
  visible : s.visible = s'.visible
  keyed : Keyed s.visible
  recorded : ∀ r, Tracks s.visible r → seen r = true
  bootstrap : Option.Rel (SameBootstrap env s.queries seen) s.bootstrap
    s'.bootstrap
  incremental : Option.Rel
    (SameIncremental env s.queries s.visible seen) s.incremental
    s'.incremental

theorem rel_cases {α : Type*} {R : α → α → Prop} {a b : Option α}
    (h : Option.Rel R a b) :
    a = none ∧ b = none ∨ ∃ x y, a = some x ∧ b = some y ∧ R x y := by
  cases h with
  | none => exact .inl ⟨rfl, rfl⟩
  | some h => exact .inr ⟨_, _, rfl, rfl, h⟩

theorem rel_mono {α : Type*} {R S : α → α → Prop} {a b : Option α}
    (h : Option.Rel R a b) (hmono : ∀ x y, R x y → S x y) :
    Option.Rel S a b := by
  cases h with
  | none => exact .none
  | some h => exact .some (hmono _ _ h)

theorem rel_getD {α : Type*} {R : α → α → Prop} {a b : Option α} {x y : α}
    (h : Option.Rel R a b) (hxy : R x y) :
    R (a.getD x) (b.getD y) := by
  cases h with
  | none => exact hxy
  | some h => exact h

section sessions

variable {env : FlxEnv} {seen seen' : ObjectRef → Bool}
  {s s' : FlxSession}

section

variable (h : SameSession env seen s s')

include h

/-- More may have been seen. -/
theorem SameSession.mono (hseen : ∀ r, seen r = true → seen' r = true) :
    SameSession env seen' s s' where
  queryVersion := h.queryVersion
  queries := h.queries
  pending := h.pending
  sendAll := h.sendAll
  visible := h.visible
  keyed := h.keyed
  recorded r hr := hseen r (h.recorded r hr)
  bootstrap := rel_mono h.bootstrap fun _ _ hb =>
    { hb with
      seen := fun r hr => hseen r (hb.seen r hr) }
  incremental := rel_mono h.incremental fun _ _ hi =>
    let ⟨p, hp, hmatter⟩ := hi.matter
    { hi with
      matter := ⟨p, fun r hr => hseen r (hp r hr), hmatter⟩ }

/-- A query starts both afresh. -/
theorem SameSession.receiveQuery
    (queryVersion : Nat) (queries : FlxQueries) :
    SameSession env seen (s.receiveQuery queryVersion queries)
      (s'.receiveQuery queryVersion queries) where
  __ := h
  queryVersion := rfl
  queries := rfl
  pending := rfl
  sendAll := rfl
  bootstrap := .none
  incremental := .none

theorem SameSession.receiveIdent
    (progress progress' queryVersion : Nat) (queries : FlxQueries) :
    SameSession env seen
      (.receiveIdent s.visible progress queryVersion queries)
      (.receiveIdent s'.visible progress' queryVersion queries) where
  __ := h
  queryVersion := rfl
  queries := rfl
  pending := rfl
  sendAll := rfl
  bootstrap := .none
  incremental := .none

theorem SameSession.forcedRemoval
    {ref : ObjectRef} (hnoTab : 9 ∉ ref.1) (hnone : s.incremental = none) :
    SameSession env (fun r => r = ref || seen r) (s.forcedRemoval ref)
      (s'.forcedRemoval ref) := by
  have hmono : SameSession env (fun r => r = ref || seen r) s s' :=
    h.mono fun r hr => by rw [hr, Bool.or_true]
  have hnone' : s'.incremental = none := by
    rcases rel_cases h.incremental with ⟨-, h'⟩ | ⟨i, -, hi, -⟩
    · exact h'
    · rw [hnone] at hi
      cases hi
  exact
    { hmono with
      visible := by
        simp only [FlxSession.forcedRemoval, h.visible]
      keyed := h.keyed.insert hnoTab
      recorded := by
        intro r hr
        rcases (tracks_insert h.keyed hnoTab).1 hr with rfl | hr
        · simp
        · exact hmono.recorded r hr
      incremental := by
        show Option.Rel _ s.incremental s'.incremental
        rw [hnone, hnone']
        exact .none }

end

end sessions

end BarqSync.Flx
