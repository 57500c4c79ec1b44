/-
A flexible sync client holds nothing outside its view once the session
has nothing more to send.

# Runs

`Covered` is kept by every event that meets `Covers` (`Covered.step`).
What that asks of a bootstrap about to be prepared, that the record has
whatever the client will hold outside the new view, is itself kept by
every event that meets `Keeps` (`Recorded.step`): no erasure is underway
when the connection or the query is replaced, and parts that the client
has stored are of objects that are recorded or still in the view.
-/
import BarqSync.Server.Flx.Proofs.Writes
import BarqSync.Server.Flx.Proofs.Sends

namespace BarqSync.Flx

open FlxClient FlxContent FlxSession FlxSystem

-- ===== the step

section step

variable {env : FlxEnv} {sys sys' : FlxSystem} {upTo : Nat}

/-- A body made from a fresh scan. -/
theorem resumable_scan (h : Covered env sys)
    (hidle : sys.session.bootstrapPending = false)
    (hnone : sys.session.incremental = none)
    (hfrom : sys.session.downloadProgress ≤ upTo)
    (hto : upTo ≤ sys.known) :
    Resumable env sys ⟨false, upTo, sys.db, (touchedObjects
      (touchedBetween sys.log sys.session.downloadProgress upTo)).toList⟩
    := by
  obtain ⟨hkeyed, htracks⟩ := @touchedObjects_spec
    (touchedBetween sys.log sys.session.downloadProgress upTo) (by
      intro r hr
      obtain ⟨e, he, -, -, -, hr⟩ := mem_touchedBetween.1 hr
      exact h.logNoTab e he r hr)
  refine ⟨⟨hkeyed.touchedList, hto, fun r _ _ => ⟨rfl, rfl⟩⟩, hidle, hfrom,
    ?_, fun _ => h.buffered hidle hnone⟩
  intro r hr
  rw [stale, remaining, hnone] at hr
  have hr := hr.resolve_right (by simp)
  rcases (mem_touchedBetween_split hfrom (hto.trans h.known)).1 hr
    with hr | hr
  · refine .inl (List.mem_map.2 ⟨(flxVisibleObjectKey r, r), ?_, rfl⟩)
    exact hkeyed.mem_toList.2 ⟨rfl, (htracks r).2 hr⟩
  · exact .inr hr

/-- A body in progress. -/
theorem resumable_incremental (h : Covered env sys)
    {i : FlxIncrementalState} (hi : sys.session.incremental = some i) :
    Resumable env sys i := by
  obtain ⟨hok, hmore, hversion⟩ := h.incremental i hi
  refine ⟨hok, ?_, le_of_eq hversion.symm, ?_, ?_⟩
  · by_contra hc
    cases (h.pending (Bool.not_eq_false _ ▸ hc)).symm.trans hi
  · intro r hr
    rw [stale, remaining, hi] at hr
    rw [hversion]
    exact hr.symm
  · exact fun hc => by cases hmore.symm.trans hc

/-- A call sends a bootstrap that is due, or else an incremental body. A
scan that found nothing makes one, too. -/
theorem continueHistoryScan_eq {s : FlxSession} (db : FlxDb) (known : Nat)
    (scan : FlxScan) :
    s.continueHistoryScan env db known scan
      = if s.bootstrapPending then
          s.sendBootstrap env
            (s.bootstrap.getD (s.prepareBootstrap env db known))
        else
          s.sendIncremental env (s.incremental.getD
            ⟨false, scan.upTo, db,
              (touchedObjects scan.touched).toList⟩) := by
  rw [continueHistoryScan]
  by_cases hpending : s.bootstrapPending = true
  · rw [if_pos hpending, if_pos hpending]
  · rw [if_neg hpending, if_neg hpending]
    rcases hi : s.incremental with _ | i
    · by_cases hscan : scan.touched = []
      · have hlist : (touchedObjects []).toList = [] := rfl
        simp only [Bool.false_eq_true, if_false, Option.elim_none,
          Option.getD_none, hscan, if_true, hlist, sendIncremental,
          FlxEnv.addTouched]
      · rw [Option.elim_none, if_neg hscan, Option.getD_none]
    · rfl

/-- What sending does: a part of an incremental body, a part of the
bootstrap in progress, or the first part of a new one. -/
theorem send_cases (h : Covered env sys)
    (hstep : sys.step env (.send upTo) = some sys') :
    (∃ i, Resumable env sys i
        ∧ sys' = sys.sent (sys.session.sendIncremental env i).1
          (sys.session.sendIncremental env i).2 sys.bootstrapFrom)
      ∨ (∃ b, sys.session.bootstrap = some b
        ∧ sys' = sys.sent (sys.session.sendBootstrap env b).1
          (sys.session.sendBootstrap env b).2 sys.bootstrapFrom)
      ∨ (sys.session.bootstrapPending = true
        ∧ sys.session.bootstrap = none
        ∧ sys.session.preparesBootstrap = true
        ∧ ∃ b, (sys.prepared env).session.bootstrap = some b
          ∧ sys' = (sys.prepared env).sent
            ((sys.prepared env).session.sendBootstrap env b).1
            ((sys.prepared env).session.sendBootstrap env b).2
            sys.session.downloadProgress) := by
  simp only [step, continueHistoryScan_eq] at hstep
  split at hstep
  case isFalse => cases hstep
  case isTrue hguard =>
    obtain ⟨-, hfrom, hto⟩ := hguard
    cases hstep
    by_cases hpending : sys.session.bootstrapPending = true
    · simp only [preparesBootstrap, hpending, if_true]
      rcases hb : sys.session.bootstrap with _ | b
      · -- a bootstrap is prepared; `prepared` is the session in between
        exact .inr (.inr ⟨trivial, rfl, rfl, _, rfl, rfl⟩)
      · exact .inr (.inl ⟨b, rfl, rfl⟩)
    · have hidle := Bool.eq_false_iff.2 hpending
      simp only [preparesBootstrap, hidle, Bool.false_and,
        Bool.false_eq_true, if_false]
      rcases hi : sys.session.incremental with _ | i
      · exact .inl ⟨_, resumable_scan h hidle hi hfrom hto, rfl⟩
      · exact .inl ⟨i, resumable_incremental h hi, rfl⟩

/-- The objects of a bootstrap have images in its snapshot. -/
theorem Covered.images (h : Covered env sys) {b : FlxBootstrapState}
    (hb : sys.session.bootstrap = some b) (r : ObjectRef)
    (hr : r ∈ b.objects) :
    ∃ changes, b.snapshot.image r = some changes :=
  image_of_isVisible ((h.bootstrap b hb).objects r hr)

theorem Covered.sentBatch (h : Covered env sys) {b : FlxBootstrapState}
    (hb : sys.session.bootstrap = some b) :
    ∃ objects removals restObjects restRemovals, SentBatch sys.session b
      (sys.session.sendBootstrap env b).1
      (sys.session.sendBootstrap env b).2
      objects removals restObjects restRemovals :=
  Flx.sentBatch _ (h.images hb)

/-- Every event keeps the invariant. -/
theorem Covered.step (h : Covered env sys) {e : FlxEvent}
    (hok : Covers env sys e) (hstep : sys.step env e = some sys') :
    Covered env sys' := by
  cases e with
  | commit db touched =>
    cases hstep
    exact h.commit hok
  | upload db writes compensated forced =>
    cases hstep
    exact h.upload hok
  | finalize =>
    cases hstep
    exact h.finalize hok
  | send upTo =>
    rcases send_cases h hstep with
      ⟨i, hi, rfl⟩ | ⟨b, hb, rfl⟩ | ⟨hpending, -, hprepares, b, hb, rfl⟩
    · obtain ⟨looked, hp⟩ := sentPart h hi
      exact h.sendPart hp hi
    · obtain ⟨_, _, _, _, hp⟩ := h.sentBatch hb
      exact h.sendBatch hp hb
    · have h' := h.prepare hpending (hok hprepares)
      obtain ⟨_, _, _, _, hp⟩ := h'.sentBatch hb
      exact h'.sendBatch hp hb
  | deliver =>
    obtain ⟨m, hm, rfl⟩ := Option.map_eq_some_iff.1 hstep
    exact h.deliver hm
  | query queryVersion queries =>
    simp only [FlxSystem.step] at hstep
    split at hstep
    case isFalse => cases hstep
    case isTrue hversion =>
      cases hstep
      exact h.query hversion queries
  | reconnect restarted queryVersion queries =>
    cases hstep
    exact h.reconnect hok queries

end step

-- ===== the record

/-- What the client will hold by what was sent so far, without the parts
of a bootstrap that is due or in progress. -/
def FlxSystem.kept (sys : FlxSystem) : FlxContent :=
  if sys.session.bootstrapPending then sys.arrived.objects
  else sys.settled

/-- The client will hold the object, even if the bootstrap in progress is
cut off. Parts it has stored count before a bootstrap begins. -/
def FlxSystem.holds (sys : FlxSystem) (r : ObjectRef) : Prop :=
  sys.kept r ≠ none
    ∨ sys.session.bootstrap = none ∧ sys.settled r ≠ none

/-- The record has what the client will hold outside the view. -/
def FlxSystem.Recorded (env : FlxEnv) (sys : FlxSystem) : Prop :=
  ∀ r, sys.holds r → Tracks sys.session.visible r
    ∨ sys.inView env r = true ∨ r ∈ sys.forced

/-- A query takes over. The client is left with `objects` and with the
parts stored of the query's version. -/
structure TakesOver (env : FlxEnv) (sys : FlxSystem) (objects : FlxContent)
    (parts : FlxBody) (queries : FlxQueries) : Prop where
  /-- No erasure was underway, except of what the record still has. -/
  erasures : ∀ r, objects r ≠ none →
    sys.kept r ≠ none ∨ Tracks sys.session.visible r
  /-- What is in the view without being recorded stays in the view. -/
  unrecorded : ∀ r, objects r ≠ none → sys.inView env r = true →
    Tracks sys.session.visible r ∨ env.isVisible sys.db queries r = true
  parts : ∀ r ∈ parts.map FlxChange.ref,
    Tracks sys.session.visible r ∨ env.isVisible sys.db queries r = true

/-- The condition under which the record keeps having what the client
holds outside its view. Sending and arriving need none. -/
def Keeps (env : FlxEnv) (sys : FlxSystem) : FlxEvent → Prop
  | .commit db touched => Covers env sys (.commit db touched)
      ∧ ∀ r ∈ touched, sys.holds r → Tracks sys.session.visible r
        ∨ env.isVisible db sys.session.queries r = true ∨ r ∈ sys.forced
  | .upload db writes compensated forced =>
    Covers env sys (.upload db writes compensated forced)
      ∧ ∀ w ∈ writes, sys.client.objects.write writes w.1 ≠ none →
        Tracks sys.session.visible w.1
          ∨ env.isVisible db sys.session.queries w.1 = true
          ∨ w.1 ∈ forced
  | .finalize => Covers env sys .finalize
  | .send _ => True
  | .deliver => True
  | .query queryVersion queries =>
    TakesOver env sys sys.arrived.objects (sys.arrived.stored queryVersion)
      queries
  | .reconnect restarted queryVersion queries =>
    Covers env sys (.reconnect restarted queryVersion queries)
      ∧ TakesOver env sys sys.client.objects
        (if restarted then [] else sys.client.stored queryVersion) queries

section record

variable {env : FlxEnv} {sys sys' : FlxSystem} {e : FlxEvent}
  {queries : FlxQueries} {r : ObjectRef}

/-- What will be held has arrived or is in a stored part. -/
theorem FlxSystem.holds_cases (h : sys.holds r) :
    sys.arrived.objects r ≠ none
      ∨ r ∈ (sys.arrived.stored sys.session.queryVersion).map
        FlxChange.ref := by
  have hsettled (hr : sys.settled r ≠ none) : sys.arrived.objects r ≠ none
      ∨ r ∈ (sys.arrived.stored sys.session.queryVersion).map
        FlxChange.ref := by
    by_contra hc
    rw [not_or] at hc
    rw [settled, applyBody_of_notMem hc.2] at hr
    exact hc.1 hr
  rcases h with hr | ⟨-, hr⟩
  · rw [kept] at hr
    split at hr
    · exact .inl hr
    · exact hsettled hr
  · exact hsettled hr

/-- With a complete record the bootstrap about to be prepared erases all
that has to go. -/
theorem FlxSystem.Recorded.covers (h : sys.Recorded env)
    (hok : Keeps env sys e) : Covers env sys e := by
  cases e with
  | commit | upload | reconnect => exact hok.1
  | finalize => exact hok
  | deliver | query => trivial
  | send =>
    intro hprepares r hr
    rw [preparesBootstrap, Bool.and_eq_true] at hprepares
    exact h r (.inr ⟨Option.isNone_iff_eq_none.1 hprepares.2, hr⟩)

/-- Outside a bootstrap the record is what the session keeps track of. -/
theorem Covered.recorded (h : Covered env sys)
    (hidle : sys.session.bootstrapPending = false) : sys.Recorded env := by
  intro r hr
  have hnone := h.idle hidle
  have hsettled : sys.settled r ≠ none := by
    rw [holds, kept, hidle] at hr
    exact hr.elim id (·.2)
  have hcov := h.covered (fun hc => by cases hidle.symm.trans hc) r
    hsettled
  rwa [tracks, hnone] at hcov

/-- What the client is left with is recorded or in the new view. -/
theorem TakesOver.covered {objects : FlxContent} {parts : FlxBody}
    (ho : TakesOver env sys objects parts queries)
    (h : sys.Recorded env)
    (hr : objects r ≠ none ∨ r ∈ parts.map FlxChange.ref) :
    Tracks sys.session.visible r ∨ env.isVisible sys.db queries r = true
      ∨ r ∈ sys.forced := by
  rcases hr with hr | hr
  · rcases ho.erasures r hr with hkept | htr
    · rcases h r (.inl hkept) with htr | hview | hforced
      · exact .inl htr
      · exact (ho.unrecorded r hr hview).imp_right .inl
      · exact .inr (.inr hforced)
    · exact .inl htr
  · exact (ho.parts r hr).imp_right .inl

section grows

variable {written foreign : ObjectRef → Prop}
  (g : Grows env sys sys' written foreign)

include g

/-- What nobody wrote is held as before. -/
theorem Grows.holds (hw : ¬ written r) : sys'.holds r ↔ sys.holds r := by
  obtain ⟨hsettled, harrived⟩ := g.settled r hw
  have hkept : sys'.kept r = sys.kept r := by
    rw [kept, kept, g.session]
    split
    · exact harrived
    · exact hsettled
  rw [FlxSystem.holds, FlxSystem.holds, hkept, hsettled, g.session]

theorem FlxSystem.Recorded.grow (h : sys.Recorded env)
    (hwrote : ∀ r, written r → sys'.holds r →
      Tracks sys.session.visible r ∨ sys'.inView env r = true
        ∨ r ∈ sys'.forced) : sys'.Recorded env := by
  intro r hr
  rw [g.session]
  by_cases hw : written r
  · exact hwrote r hw hr
  · rw [(g.confined r hw).1]
    rcases h r ((g.holds hw).1 hr) with htr | hview | hforced
    · exact .inl htr
    · exact .inr (.inl hview)
    · exact .inr (.inr (g.forcedStay r hforced))

end grows

/-- Of an object that nothing sent so far is about the client holds what
it wrote. -/
theorem holds_uploaded {db : FlxDb} {compensated forced : List ObjectRef}
    {writes : List (ObjectRef × Option FlxHeld)} (hr : ¬ sys.sending r)
    (hheld : (sys.uploaded db writes compensated forced).holds r) :
    sys.client.objects.write writes r ≠ none := by
  obtain ⟨hsettled, harrived⟩ :=
    @settled_uploaded sys db compensated forced writes r hr
  rw [holds, kept, hsettled] at hheld
  rcases hheld with hheld | ⟨-, hheld⟩
  · split at hheld
    · rwa [harrived] at hheld
    · rwa [hsettled] at hheld
  · exact hheld

section

variable (h : sys.Recorded env) (hcov : Covered env sys)

include h hcov

/-- A part of a bootstrap leaves the record as it was, or completes it. -/
theorem FlxSystem.Recorded.sendBatch {b : FlxBootstrapState}
    {s' : FlxSession} {m : FlxDownload} {v : Nat}
    {sentObjects sentRemovals restObjects restRemovals : List ObjectRef}
    (hb : sys.session.bootstrap = some b)
    (hp : SentBatch sys.session b s' m sentObjects sentRemovals
      restObjects restRemovals) : (sys.sent s' m v).Recorded env := by
  rcases hp.rest with
    ⟨-, -, hidle, -⟩ | ⟨hsame, hmore, hvisible, hstate⟩
  · exact (hcov.sendBatch hp hb).recorded hidle
  · have hpending := hcov.pending_of_some hb
    have hpending' : (sys.sent s' m v).session.bootstrapPending = true :=
      hsame.trans hpending
    have hb' : (sys.sent s' m v).session.bootstrap ≠ none := by
      rw [show (sys.sent s' m v).session.bootstrap = _ from hmore]
      simp
    intro r hr
    have hr : (sys.sent s' m v).kept r ≠ none :=
      hr.resolve_right fun hc => hb' hc.1
    rw [inView_sent hp.queries]
    show Tracks s'.visible r ∨ _
    rw [hvisible]
    refine h r (.inl ?_)
    rw [kept, hpending', if_pos rfl, arrived_sent, receive, hstate] at hr
    rw [kept, hpending]
    exact hr

theorem FlxSystem.Recorded.send {upTo : Nat}
    (hstep : sys.step env (.send upTo) = some sys') :
    sys'.Recorded env := by
  rcases send_cases hcov hstep with
    ⟨i, hi, rfl⟩ | ⟨b, hb, rfl⟩ | ⟨hpending, hnone, -, b, hb, rfl⟩
  · obtain ⟨looked, hp⟩ := sentPart hcov hi
    exact (hcov.sendPart hp hi).recorded hp.idle.1
  · obtain ⟨_, _, _, _, hp⟩ := hcov.sentBatch hb
    exact h.sendBatch hcov hb hp
  · have hcov' := hcov.prepare hpending fun r hr => h r (.inr ⟨hnone, hr⟩)
    obtain ⟨_, _, _, _, hp⟩ := hcov'.sentBatch hb
    refine (show (sys.prepared env).Recorded env from
      fun r hr => h r (.inl ?_)).sendBatch hcov' hb hp
    have hr := hr.resolve_right fun hc => by cases hc.1
    rw [kept, hpending]
    rw [kept, show (sys.prepared env).session.bootstrapPending = true
      from hpending] at hr
    exact hr

/-- Every event keeps the record. -/
theorem FlxSystem.Recorded.step (hok : Keeps env sys e)
    (hstep : sys.step env e = some sys') : sys'.Recorded env := by
  cases e with
  | commit db touched =>
    cases hstep
    obtain ⟨⟨hdb, hnoTab, hconfined, -⟩, hcommit⟩ := hok
    exact h.grow (grows_commit hcov hdb hnoTab hconfined) hcommit
  | upload db writes compensated forced =>
    cases hstep
    obtain ⟨⟨hdb, hnoTab, hcompensated, hforced, hconfined, hsending, -⟩,
      hupload⟩ := hok
    refine h.grow (grows_upload hcov hdb hnoTab hcompensated hforced
      hconfined hsending) ?_
    intro r hr hheld
    obtain ⟨w, hw, rfl⟩ := List.mem_map.1 hr
    have hwritten := holds_uploaded (hsending w hw) hheld
    rcases hupload w hw hwritten with htr | hview | hmem
    · exact .inl htr
    · exact .inr (.inl hview)
    · exact .inr (.inr (List.mem_append_right _ hmem))
  | finalize =>
    cases hstep
    rw [foldl_forcedRemoval]
    obtain ⟨-, htracks⟩ := foldl_insert_spec
      (fun r hr => (hcov.forcedTouched r hr).1) sys.session.visible
      hcov.keyed
    intro r hr
    rcases h r hr with htr | hview | hforced
    · exact .inl ((htracks r).2 (.inl htr))
    · exact .inr (.inl hview)
    · exact .inl ((htracks r).2 (.inr hforced))
  | send upTo => exact h.send hcov hstep
  | deliver =>
    obtain ⟨m, hm, rfl⟩ := Option.map_eq_some_iff.1 hstep
    have hkept : (sys.delivered m).kept = sys.kept := by
      rw [kept, kept, arrived_delivered hm, settled_delivered hm]
      rfl
    intro r (hr : (sys.delivered m).holds r)
    rw [holds, hkept, settled_delivered hm] at hr
    exact h r hr
  | query queryVersion queries =>
    simp only [FlxSystem.step] at hstep
    split at hstep
    case isFalse => cases hstep
    case isTrue =>
      cases hstep
      exact fun r hr => hok.covered h (holds_cases hr)
  | reconnect restarted queryVersion queries =>
    cases hstep
    refine fun r hr => hok.2.covered h ((holds_cases hr).imp_right ?_)
    intro hmem
    cases restarted with
    | false => exact hmem
    | true =>
      have hempty : (sys.reconnected true queryVersion
          queries).arrived.stored queryVersion = [] := ite_self _
      exact hempty ▸ hmem

end

end record

-- ===== the result

/-- A client file's session right after an IDENT message, before the
client has stored parts of a batch. The record is what earlier sessions
left behind, the cursor and the query are the client's. -/
structure FlxSystem.Connected (sys : FlxSystem) : Prop where
  session : ∃ queryVersion queries, sys.session
      = FlxSession.receiveIdent sys.session.visible sys.client.progress
        queryVersion queries
    ∧ (0 < queryVersion ∨ ∀ r, sys.client.objects r = none)
  keyed : Keyed sys.session.visible
  noTab : sys.db.NoTab
  logNoTab : ∀ e ∈ sys.log, ∀ r ∈ e.touched, 9 ∉ r.1
  logVersion : ∀ e ∈ sys.log, e.version ≤ sys.version
  progress : sys.client.progress ≤ sys.known
  known : sys.known ≤ sys.version
  forced : sys.forced = []
  inflight : sys.inflight = []
  buffer : sys.client.buffer = []

section result

variable {env : FlxEnv} {sys : FlxSystem}

theorem FlxSystem.Connected.covered (h : sys.Connected) :
    Covered env sys := by
  obtain ⟨queryVersion, queries, hsession, hversion⟩ := h.session
  have hpending : sys.session.bootstrapPending
      = decide (0 < queryVersion) := by
    rw [hsession]
    rfl
  have hbootstrap : sys.session.bootstrap = none := by
    rw [hsession]
    rfl
  have hincremental : sys.session.incremental = none := by
    rw [hsession]
    rfl
  have harrived : sys.arrived = sys.client := by
    rw [arrived, h.inflight]
    rfl
  have hbuffer : sys.arrived.buffer = [] := by
    rw [harrived]
    exact h.buffer
  have hprogress : sys.session.downloadProgress = sys.client.progress := by
    rw [hsession]
    rfl
  -- without a bootstrap due the client has nothing
  have hnothing : sys.session.bootstrapPending = false →
      ∀ r, sys.settled r = none := by
    intro hc r
    rw [settled_eq_arrived fun _ => hbuffer, harrived]
    refine hversion.resolve_left (fun hpos => ?_) r
    rw [hpending, decide_eq_true hpos] at hc
    cases hc
  exact
    { h with
      progress := hprogress.trans_le h.progress
      arriving := by
        rw [h.inflight]
        exact ⟨h.progress, fun m hm => by cases hm⟩
      forcedTouched := by
        rw [h.forced]
        exact fun r hr => by cases hr
      idle := fun _ => hbootstrap
      pending := fun _ => hincremental
      bootstrap := fun b hb => by cases hbootstrap.symm.trans hb
      incremental := fun i hi => by cases hincremental.symm.trans hi
      buffered := fun _ _ _ => hbuffer
      covered := by
        intro hu r hheld
        by_cases hc : sys.session.bootstrapPending = true
        · have := hu hc
          rw [hbootstrap] at this
          cases this
        · exact absurd (hnothing (Bool.eq_false_iff.2 hc) r) hheld
      outside := fun hc r _ hheld => absurd (hnothing hc r) hheld
      shown := fun b hb => by cases hbootstrap.symm.trans hb }

theorem FlxSystem.Connected.recorded (h : sys.Connected)
    (hrecord : ∀ r, sys.client.objects r ≠ none →
      Tracks sys.session.visible r ∨ sys.inView env r = true) :
    sys.Recorded env := by
  intro r hr
  have harrived : sys.arrived = sys.client := by
    rw [arrived, h.inflight]
    rfl
  have hcases := holds_cases hr
  rw [harrived, stored, h.buffer, ite_self] at hcases
  exact (hrecord r (hcases.resolve_right (by simp))).imp_right .inl

/-- Once there is nothing more to send, nothing is stale and the client
holds what has settled. -/
theorem Covered.quiescent (h : Covered env sys) (hq : sys.quiescent) :
    sys.session.bootstrapPending = false ∧ (∀ r, ¬ sys.stale r)
      ∧ sys.settled = sys.client.objects := by
  obtain ⟨hknown, -, hinflight, hscan⟩ := hq
  simp only [haveMoreToScan, Bool.or_eq_false_iff,
    decide_eq_false_iff_not, Bool.not_eq_false'] at hscan
  obtain ⟨⟨⟨hprogress, -⟩, hidle⟩, hincremental⟩ := hscan
  have hnone : sys.session.incremental = none := by
    rw [← Option.not_isSome_iff_eq_none, hincremental]
    simp
  have harrived : sys.arrived = sys.client := by
    rw [arrived, hinflight]
    rfl
  refine ⟨hidle, fun r hr => ?_, ?_⟩
  · rw [stale, remaining, hnone] at hr
    have hr := hr.resolve_right (by simp)
    obtain ⟨e, -, -, hlt, hle, -⟩ := mem_touchedBetween.1 hr
    omega
  · rw [settled_eq_arrived (h.buffered hidle hnone), harrived]

end result

-- ===== instances

/-- The table `T`, with an integer primary key, a value and an owner. -/
def taskTable : Bytes := bytes ['c', 'l', 'a', 's', 's', '_', 'T']

def task (n : Int64) : ObjectRef := (taskTable, .int n)

def taskFields (n value : Int64) : FlxFields :=
  [([112], .mixed (.int n)), ([118], .mixed (.int value)),
    ([111], .mixed (.string [117]))]

def taskFile (objects : List (ObjectRef × FlxFields)) : FlxDb where
  tables := [(taskTable, ⟨false, false, some [112],
    [([112], ⟨.int, false, .single, [], .int⟩),
      ([118], ⟨.int, false, .single, [], .int⟩),
      ([111], ⟨.string, false, .single, [], .string⟩)]⟩)]
  objects := objects

/-- Users read and write what they own. A body holds one change. -/
def ownerEnv : FlxEnv where
  rules := [⟨[84], .owner, [111]⟩]
  userIdentity := [117]
  userIsAdmin := false
  maxDownloadSize := 0
  evalObject _ _ _ := false
  encodedSize _ := 1

/-- The subscription to all of `T`. -/
def allTasks : FlxQueries := [([84], [])]

/-- A new client subscribes to a table with one object. -/
def newClient : FlxSystem where
  db := taskFile [(task 1, taskFields 1 7)]
  version := 1
  log := [⟨1, false, [task 1]⟩]
  known := 1
  session := FlxSession.receiveIdent ∅ 0 1 allTasks
  client := { objects := fun _ => none }

theorem newClient_connected : newClient.Connected where
  session := ⟨1, allTasks, rfl, .inl (by decide)⟩
  keyed := keyed_empty
  noTab := by
    show ∀ t ∈ newClient.db.tables, 9 ∉ t.1
    decide
  logNoTab := by
    show ∀ e ∈ newClient.log, ∀ r ∈ e.touched, 9 ∉ r.1
    decide
  logVersion := by
    show ∀ e ∈ newClient.log, e.version ≤ 1
    decide
  progress := by decide
  known := le_refl _
  forced := rfl
  inflight := rfl
  buffer := rfl

/-- What a client holds of a task it received. -/
def heldTask (n value : Int64) : FlxHeld :=
  FlxHeld.put none
    (((taskFile [(task n, taskFields n value)]).image (task n)).getD [])

/-- A client returns with tasks 1 and 2, which the record has. The first
was erased while it was away, and a third was created. -/
def returning : FlxSystem where
  db := taskFile [(task 2, taskFields 2 5), (task 3, taskFields 3 6)]
  version := 2
  log := [⟨1, false, [task 1, task 2]⟩, ⟨2, false, [task 1, task 3]⟩]
  known := 2
  session := FlxSession.receiveIdent (((∅ : VisibleObjects).insert
    (flxVisibleObjectKey (task 1)) (task 1)).insert
      (flxVisibleObjectKey (task 2)) (task 2)) 1 1 allTasks
  client :=
    { objects := Function.update (Function.update (fun _ => none) (task 1)
        (some (heldTask 1 7))) (task 2) (some (heldTask 2 5))
      progress := 1 }

theorem returning_connected : returning.Connected where
  session := ⟨1, allTasks, rfl, .inl (by decide)⟩
  keyed := (keyed_empty.insert (by decide)).insert (by decide)
  noTab := by
    show ∀ t ∈ returning.db.tables, 9 ∉ t.1
    decide
  logNoTab := by
    show ∀ e ∈ returning.log, ∀ r ∈ e.touched, 9 ∉ r.1
    decide
  logVersion := by
    show ∀ e ∈ returning.log, e.version ≤ 2
    decide
  progress := by decide
  known := le_refl _
  forced := rfl
  inflight := rfl
  buffer := rfl

/-- What the client holds is recorded. -/
theorem returning_recorded {r : ObjectRef}
    (hr : returning.client.objects r ≠ none) :
    Tracks returning.session.visible r := by
  by_cases h2 : r = task 2
  · subst h2
    rfl
  by_cases h1 : r = task 1
  · subst h1
    rfl
  exact absurd ((Function.update_of_ne h2 _ _).trans
    (Function.update_of_ne h1 _ _)) hr

/-- Of the bootstrap's three parts the first is stored and the second is
lost with the connection. On the next one all three arrive. -/
def lostPart : List FlxEvent :=
  [.send 2, .deliver, .send 2, .reconnect false 1 allTasks, .send 2,
    .send 2, .send 2, .deliver, .deliver, .deliver]

theorem lostPart_keeps :
    Sys.ExecOk (FlxSystem.step ownerEnv) (Keeps ownerEnv) returning
      lostPart := by
  -- the connection is lost before anything was integrated
  obtain ⟨sys, hexec, hobjects, hkept, hvisible, hstored⟩ :
      ∃ sys, Sys.exec (step ownerEnv) returning
          [.send 2, .deliver, .send 2] = some sys
        ∧ sys.client.objects = returning.client.objects
        ∧ sys.kept = returning.client.objects
        ∧ sys.session.visible = returning.session.visible
        ∧ (sys.client.stored 1).map FlxChange.ref = [task 2] :=
    ⟨_, rfl, rfl, rfl, rfl, rfl⟩
  refine Sys.ExecOk.append hexec (.of_forall ?_)
    ⟨⟨.inl (by decide), ?_⟩, fun t _ => .of_forall ?_⟩
  · intro e he s
    fin_cases he <;> trivial
  · rw [hobjects]
    refine ⟨fun r hr => .inl ?_, fun r hr _ => .inl ?_, fun r hr => ?_⟩
    · rw [hkept]
      exact hr
    · rw [hvisible]
      exact returning_recorded hr
    · have hr : r ∈ (sys.client.stored 1).map FlxChange.ref := hr
      rw [hstored] at hr
      rw [hvisible, List.mem_singleton.1 hr]
      exact .inl rfl
  · intro e he s
    fin_cases he <;> trivial

/-- A new client subscribes to a table with two objects. -/
def twoTasks : FlxSystem :=
  { newClient with
    db := taskFile [(task 1, taskFields 1 7), (task 2, taskFields 2 5)]
    log := [⟨1, false, [task 1, task 2]⟩] }

theorem twoTasks_connected : twoTasks.Connected :=
  { newClient_connected with
    noTab := by
      show ∀ t ∈ twoTasks.db.tables, 9 ∉ t.1
      decide
    logNoTab := by
      show ∀ e ∈ twoTasks.log, ∀ r ∈ e.touched, 9 ∉ r.1
      decide
    logVersion := by
      show ∀ e ∈ twoTasks.log, e.version ≤ 1
      decide }

-- a stored part outlasts the connection, too, and its object is erased
-- before a record names it
example : ∃ sys, Sys.exec (FlxSystem.step ownerEnv) twoTasks
      [.send 1, .deliver, .commit (taskFile [(task 2, taskFields 2 5)])
          [task 1], .finalize, .reconnect false 1 allTasks, .send 2,
        .deliver] = some sys
    ∧ sys.quiescent ∧ sys.client.objects (task 1) ≠ none
    ∧ sys.inView ownerEnv (task 1) = false :=
  ⟨_, rfl, ⟨rfl, rfl, rfl, rfl⟩, (by intro hc; cases hc), rfl⟩

end BarqSync.Flx
