/-
Every DOWNLOAD message keeps what the session keeps track of: a part of
an incremental body (`Covered.sendPart`), a part of a bootstrap
(`Covered.sendBatch`), and the preparation of one (`Covered.prepare`).

`SentPart` and `SentBatch` say once what the session and the message are
after a part; all else is read off them.
-/
import BarqSync.Server.Flx.Proofs.Covered

namespace BarqSync.Flx

open FlxClient FlxContent FlxSession FlxSystem

-- ===== sending

/-- The session has built a message. -/
def FlxSystem.sent (sys : FlxSystem) (session : FlxSession)
    (m : FlxDownload) (bootstrapFrom : Nat) : FlxSystem :=
  { sys with
    session := session
    inflight := sys.inflight ++ [m]
    bootstrapFrom := bootstrapFrom }

section send

variable {env : FlxEnv} {sys : FlxSystem} {s : FlxSession}
  {m : FlxDownload} {v : Nat}

theorem arrived_sent : (sys.sent s m v).arrived = sys.arrived.receive m :=
  List.foldl_append

/-- A message adds its body to what the client will hold. A message of
the steady state comes only when no batch is in progress. -/
theorem settled_sent (hs : s.queryVersion = sys.session.queryVersion)
    (hm : m.queryVersion = sys.session.queryVersion)
    (hsteady : m.batchState = .steadyState →
      sys.arrived.bufferVersion = sys.session.queryVersion →
        sys.arrived.buffer = []) :
    (sys.sent s m v).settled = sys.settled.applyBody m.body := by
  -- the batch so far, and then the body
  have hbatch : sys.arrived.objects.applyBody (sys.arrived.batch m)
      = sys.settled.applyBody m.body := by
    rw [batch, applyBody_append, settled, hm]
  have hqv : (sys.sent s m v).session.queryVersion
      = sys.session.queryVersion := hs
  cases hstate : m.batchState with
  | steadyState =>
    rw [settled_eq_arrived, arrived_sent, receive,
      hstate, settled_eq_arrived (hsteady hstate)]
    rw [arrived_sent, receive, hstate, hqv]
    exact hsteady hstate
  | moreToCome =>
    rw [settled, arrived_sent, receive, hstate, stored,
      if_pos (hm.trans hqv.symm)]
    exact hbatch
  | lastInBatch =>
    rw [settled_eq_arrived, arrived_sent, receive, hstate]
    · exact hbatch
    · rw [arrived_sent, receive, hstate]
      exact fun _ => rfl

theorem inView_sent (hs : s.queries = sys.session.queries)
    (r : ObjectRef) : (sys.sent s m v).inView env r = sys.inView env r := by
  show env.isVisible sys.db s.queries r = _
  rw [hs]
  rfl

theorem Covered.arriving_sent (h : Covered env sys)
    (hm : m.serverVersion ≤ sys.known) : sys.client.progress ≤ sys.known
      ∧ ∀ m' ∈ sys.inflight ++ [m], m'.serverVersion ≤ sys.known := by
  refine ⟨h.arriving.1, List.forall_mem_append.2 ⟨h.arriving.2, ?_⟩⟩
  exact List.forall_mem_singleton.2 hm

/-- After the last part nothing is stored, and a message of the steady
state leaves what is stored alone. -/
theorem buffer_sent : (m.batchState = .lastInBatch
        → (sys.sent s m v).arrived.buffer = [])
      ∧ (m.batchState = .steadyState
        → (sys.sent s m v).arrived.buffer = sys.arrived.buffer
          ∧ (sys.sent s m v).arrived.bufferVersion
            = sys.arrived.bufferVersion) := by
  rw [arrived_sent, receive]
  cases m.batchState with
  | steadyState => exact ⟨fun hc => (by cases hc), fun _ => ⟨rfl, rfl⟩⟩
  | moreToCome =>
    exact ⟨fun hc => (by cases hc), fun hc => (by cases hc)⟩
  | lastInBatch => exact ⟨fun _ => rfl, fun hc => (by cases hc)⟩

end send

-- ===== incremental

section incremental

variable {env : FlxEnv} {sys : FlxSystem}

/-- An incremental body the session can go on with: one in progress, or
one made from a fresh scan. -/
structure Resumable (env : FlxEnv) (sys : FlxSystem)
    (i : FlxIncrementalState) : Prop where
  ok : IncrementalOk env sys i
  idle : sys.session.bootstrapPending = false
  scanned : sys.session.downloadProgress ≤ i.serverVersion
  stale : ∀ r, sys.stale r → r ∈ i.objects.map (·.2)
    ∨ r ∈ touchedBetween sys.log i.serverVersion sys.version
  buffered : i.emittedMoreToCome = false
    → sys.arrived.bufferVersion = sys.session.queryVersion
    → sys.arrived.buffer = []

/-- What the session `s'` and the message `m` are after a part of an
incremental body, `looked` being the touched objects it got to. -/
structure SentPart (env : FlxEnv) (sys : FlxSystem)
    (i : FlxIncrementalState) (s' : FlxSession) (m : FlxDownload)
    (looked : List (Bytes × ObjectRef)) : Prop where
  look : Looked env i.snapshot sys.session.queries []
    sys.session.visible i.objects (m.body, s'.visible,
      (env.addTouched i.snapshot sys.session.queries []
        sys.session.visible i.objects).2.2) looked
  remaining : i.objects.map (·.2) = looked.map (·.2) ++ s'.remaining
  queries : s'.queries = sys.session.queries
  queryVersion : s'.queryVersion = sys.session.queryVersion
  idle : s'.bootstrapPending = false ∧ s'.bootstrap = none
  progress : s'.downloadProgress = i.serverVersion
  messageQuery : m.queryVersion = sys.session.queryVersion
  messageVersion : m.serverVersion = i.serverVersion
  steady : m.batchState = .steadyState → i.emittedMoreToCome = false
  finished : s'.incremental = none → m.batchState ≠ .moreToCome
  incremental : ∀ i', s'.incremental = some i' →
    i'.emittedMoreToCome = true ∧ i'.serverVersion = i.serverVersion
      ∧ i'.snapshot = i.snapshot
      ∧ i.objects = looked ++ i'.objects

/-- The session after a part of an incremental body. -/
theorem sendIncremental_eq (s : FlxSession) (i : FlxIncrementalState) :
    let made := env.addTouched i.snapshot s.queries [] s.visible i.objects
    let sent := s.sendIncremental env i
    (made.2.2 = [] ∧ sent.1 = { s with
        visible := made.2.1
        downloadProgress := i.serverVersion
        oneDownloadMessageSent := true
        bootstrap := if i.emittedMoreToCome then none else s.bootstrap
        incremental := none }
      ∧ sent.2 = ⟨s.queryVersion,
        if i.emittedMoreToCome then .lastInBatch else .steadyState,
        i.serverVersion, made.1⟩)
    ∨ (made.2.2 ≠ [] ∧ sent.1 = { s with
        visible := made.2.1
        downloadProgress := i.serverVersion
        oneDownloadMessageSent := true
        incremental := some { i with
          emittedMoreToCome := true
          objects := made.2.2 } }
      ∧ sent.2 = ⟨s.queryVersion, .moreToCome, i.serverVersion,
        made.1⟩) := by
  simp only [sendIncremental]
  by_cases hrest : (env.addTouched i.snapshot s.queries [] s.visible
      i.objects).2.2 = []
  · rw [if_pos hrest]
    exact .inl ⟨hrest, rfl, rfl⟩
  · rw [if_neg hrest]
    exact .inr ⟨hrest, rfl, rfl⟩

/-- A part of an incremental body is as `SentPart` says. -/
theorem sentPart (h : Covered env sys) {i : FlxIncrementalState}
    (hi : Resumable env sys i) :
    ∃ looked, SentPart env sys i (sys.session.sendIncremental env i).1
      (sys.session.sendIncremental env i).2 looked := by
  obtain ⟨looked, hlook⟩ := @FlxEnv.addTouched_spec env i.snapshot
    sys.session.queries i.objects [] sys.session.visible hi.ok.touched
    h.keyed
  refine ⟨looked, ?_⟩
  have hnone := h.idle hi.idle
  have hsplit := congrArg (List.map (·.2)) hlook.split
  rw [List.map_append] at hsplit
  rcases @sendIncremental_eq env sys.session i with
    ⟨hrest, hsession, hmessage⟩ | ⟨-, hsession, hmessage⟩
  · rw [hrest, List.map_nil] at hsplit
    rw [hsession, hmessage]
    refine ⟨hlook, hsplit, rfl, rfl, ⟨hi.idle, ?_⟩, rfl, rfl, rfl, ?_, ?_,
      fun i' hi' => by cases hi'⟩
    · simp only [hnone, ite_self]
    · intro hstate
      by_contra hmore
      rw [Bool.not_eq_false] at hmore
      rw [hmore] at hstate
      cases hstate
    · show _ → (if i.emittedMoreToCome then _ else _) ≠ _
      split <;> simp
  · rw [hsession, hmessage]
    refine ⟨hlook, hsplit, rfl, rfl, ⟨hi.idle, hnone⟩, rfl, rfl, rfl,
      fun hc => (by cases hc), fun hc => (by cases hc), ?_⟩
    intro i' hi'
    cases hi'
    exact ⟨rfl, rfl, rfl, hlook.split⟩

section part

variable {i : FlxIncrementalState} {s' : FlxSession} {m : FlxDownload}
  {looked : List (Bytes × ObjectRef)} {v : Nat} {r : ObjectRef}
  (hp : SentPart env sys i s' m looked) (hi : Resumable env sys i)

include hp hi

theorem SentPart.settled :
    (sys.sent s' m v).settled = sys.settled.applyBody m.body :=
  settled_sent hp.queryVersion hp.messageQuery
    fun hstate => hi.buffered (hp.steady hstate)

/-- What was stale and was not looked at still is. -/
theorem SentPart.not_stale (hr : ¬ (sys.sent s' m v).stale r) :
    r ∉ touchedBetween sys.log i.serverVersion sys.version
      ∧ (r ∉ looked.map (·.2) → ¬ sys.stale r) := by
  have hr : ¬ (r ∈ touchedBetween sys.log s'.downloadProgress sys.version
      ∨ r ∈ s'.remaining) := hr
  rw [hp.progress, not_or] at hr
  refine ⟨hr.1, fun hnot hold => ?_⟩
  rcases hi.stale r hold with hmem | hmem
  · rw [hp.remaining, List.mem_append] at hmem
    exact hmem.elim hnot hr.2
  · exact hr.1 hmem

/-- An object looked at is as the newest snapshot shows it, unless it was
touched since. -/
theorem SentPart.same (hmem : r ∈ looked.map (·.2))
    (hr : r ∉ touchedBetween sys.log i.serverVersion sys.version) :
    env.isVisible i.snapshot sys.session.queries r = sys.inView env r
      ∧ i.snapshot.image r = sys.db.image r := by
  apply hi.ok.same r ?_ hr
  rw [hp.remaining]
  exact List.mem_append_left _ hmem

/-- What the client holds is tracked, in the view, or to be removed by
force. -/
theorem SentPart.covered (h : Covered env sys)
    (hheld : (sys.sent s' m v).settled r ≠ none) :
    Tracks s'.visible r ∨ sys.inView env r = true ∨ r ∈ sys.forced := by
  have hcov : sys.settled r ≠ none → Tracks sys.session.visible r
      ∨ sys.inView env r = true ∨ r ∈ sys.forced := by
    intro hheld
    have hcov := h.covered (fun hc => by rw [hi.idle] at hc; cases hc) r
      hheld
    rwa [tracks, h.idle hi.idle] at hcov
  rw [hp.settled hi] at hheld
  rw [hp.look.tracks]
  by_cases hmem : r ∈ looked.map (·.2)
  · rw [if_pos hmem]
    by_cases hview : env.isVisible i.snapshot sys.session.queries r = true
    · exact .inl hview
    · have hview := Bool.eq_false_iff.2 hview
      by_cases htr : Tracks sys.session.visible r
      · simp [hp.look.applied, hmem, FlxEnv.look, hview, htr] at hheld
      · rw [hp.look.applied, if_pos hmem, FlxEnv.look, hview,
          if_neg Bool.false_ne_true, if_neg htr] at hheld
        exact .inr ((hcov hheld).resolve_left htr)
  · rw [if_neg hmem]
    rw [hp.look.applied, if_neg hmem] at hheld
    exact hcov hheld

/-- What the client holds and is not stale is in the view. -/
theorem SentPart.outside (h : Covered env sys)
    (hr : ¬ (sys.sent s' m v).stale r)
    (hheld : (sys.sent s' m v).settled r ≠ none) :
    sys.inView env r = true := by
  obtain ⟨htouched, hstale⟩ := hp.not_stale hi hr
  by_cases hmem : r ∈ looked.map (·.2)
  · rcases hp.covered hi h hheld with htr | hview | hforced
    · rw [hp.look.tracks, if_pos hmem] at htr
      rw [← (hp.same hi hmem htouched).1]
      exact htr
    · exact hview
    · -- a forced removal is touched beyond what the session knows
      refine absurd ?_ htouched
      exact (mem_touchedBetween_split hi.ok.version h.known).2
        (.inr (h.forcedTouched r hforced).2)
  · rw [hp.settled hi, hp.look.applied, if_neg hmem] at hheld
    exact h.outside hi.idle r (hstale hmem) hheld

/-- The rest of the body can be gone on with. -/
theorem SentPart.incrementalOk {i' : FlxIncrementalState}
    (hi' : s'.incremental = some i') :
    IncrementalOk env (sys.sent s' m v) i' := by
  obtain ⟨-, hversion, hsnapshot, hsplit⟩ := hp.incremental i' hi'
  refine ⟨?_, by rw [hversion]; exact hi.ok.version, ?_⟩
  · have hlist := hi.ok.touched
    rw [hsplit] at hlist
    exact hlist.right
  · intro r hr hnot
    rw [hversion] at hnot
    rw [inView, hsnapshot]
    show env.isVisible i.snapshot s'.queries r
        = env.isVisible sys.db s'.queries r ∧ _
    rw [hp.queries]
    refine hi.ok.same r ?_ hnot
    rw [hsplit, List.map_append]
    exact List.mem_append_right _ hr

theorem Covered.sendPart (h : Covered env sys) :
    Covered env (sys.sent s' m v) := by
  have hview := @inView_sent env sys s' m v hp.queries
  obtain ⟨hlast, hsteady⟩ := @buffer_sent sys s' m v
  exact
    { h with
      keyed := hp.look.keyed
      progress := hp.progress.trans_le hi.ok.version
      arriving := h.arriving_sent (hp.messageVersion.trans_le hi.ok.version)
      idle := fun _ => hp.idle.2
      pending := fun hc => by cases hp.idle.1.symm.trans hc
      bootstrap := fun b hb => by cases hp.idle.2.symm.trans hb
      incremental := fun i' hi' =>
        let ⟨hmore, hversion, _⟩ := hp.incremental i' hi'
        ⟨hp.incrementalOk hi hi', hmore, hversion.trans hp.progress.symm⟩
      buffered := by
        intro _ hnone hqv
        cases hstate : m.batchState with
        | moreToCome => exact absurd hstate (hp.finished hnone)
        | lastInBatch => exact hlast hstate
        | steadyState =>
          obtain ⟨hsame, hsameVersion⟩ := hsteady hstate
          rw [hsame]
          apply hi.buffered (hp.steady hstate)
          rw [← hsameVersion, hqv]
          exact hp.queryVersion
      covered := by
        intro _ r hheld
        rw [tracks, hview]
        show s'.bootstrap.elim (Tracks s'.visible r) _ ∨ _
        rw [hp.idle.2]
        exact hp.covered hi h hheld
      outside := by
        intro _ r hr hheld
        rw [hview]
        exact hp.outside hi h hr hheld
      shown := fun b hb => by cases hp.idle.2.symm.trans hb }

end part

end incremental

-- ===== bootstrap

section bootstrap

variable {env : FlxEnv} {sys : FlxSystem} {b : FlxBootstrapState}

/-- What the session `s'` and the message `m` are after a part of a
bootstrap. -/
structure SentBatch (s : FlxSession) (b : FlxBootstrapState)
    (s' : FlxSession) (m : FlxDownload)
    (sentObjects sentRemovals restObjects restRemovals : List ObjectRef) :
    Prop where
  objects : b.objects = sentObjects ++ restObjects
  removals : b.removals = sentRemovals ++ restRemovals
  body : ∀ c r, FlxContent.applyBody c m.body r
    = if r ∈ sentRemovals then none
      else if r ∈ sentObjects
      then (b.snapshot.image r).map (FlxHeld.put (c r)) else c r
  queries : s'.queries = s.queries
  queryVersion : s'.queryVersion = s.queryVersion
  sendAll : s'.bootstrapSendAllObjects = s.bootstrapSendAllObjects
  progress : s'.downloadProgress = b.serverVersion
  messageQuery : m.queryVersion = s.queryVersion
  messageVersion : m.serverVersion = b.serverVersion
  incremental : s.incremental = none → s'.incremental = none
  rest : (restObjects = [] ∧ restRemovals = []
      ∧ s'.bootstrapPending = false ∧ s'.bootstrap = none
      ∧ s'.visible = b.finalVisibleObjects
      ∧ m.batchState = .lastInBatch)
    ∨ (s'.bootstrapPending = s.bootstrapPending
      ∧ s'.bootstrap = some { b with
        objects := restObjects
        removals := restRemovals }
      ∧ s'.visible = s.visible ∧ m.batchState = .moreToCome)

/-- A part of a bootstrap is as `SentBatch` says. -/
theorem sentBatch (s : FlxSession) (himage : ∀ r ∈ b.objects, ∃ changes,
      b.snapshot.image r = some changes) :
    ∃ objects removals restObjects restRemovals,
      SentBatch s b (s.sendBootstrap env b).1 (s.sendBootstrap env b).2
        objects removals restObjects restRemovals := by
  obtain ⟨objects, hobjects, hbody⟩ :=
    @FlxEnv.addObjects_spec env b.snapshot b.objects [] himage
  -- the removals come only after all objects
  have hremovals : ∃ removals restRemovals,
      b.removals = removals ++ restRemovals
        ∧ (if (env.addObjects b.snapshot [] b.objects).2 = []
            then env.addRemovals (env.addObjects b.snapshot []
              b.objects).1 b.removals
            else ((env.addObjects b.snapshot [] b.objects).1,
              b.removals)).2 = restRemovals
        ∧ ∀ c r, applyBody c
          (if (env.addObjects b.snapshot [] b.objects).2 = []
            then env.addRemovals (env.addObjects b.snapshot []
              b.objects).1 b.removals
            else ((env.addObjects b.snapshot [] b.objects).1,
              b.removals)).1 r
          = if r ∈ removals then none else applyBody c
            (env.addObjects b.snapshot [] b.objects).1 r := by
    by_cases hrest : (env.addObjects b.snapshot [] b.objects).2 = []
    · rw [if_pos hrest]
      obtain ⟨removals, hsplit, happly⟩ := @FlxEnv.addRemovals_spec env
        b.removals (env.addObjects b.snapshot [] b.objects).1
      exact ⟨removals, _, hsplit, rfl, happly⟩
    · rw [if_neg hrest]
      exact ⟨[], b.removals, rfl, rfl, fun c r => by simp⟩
  obtain ⟨removals, restRemovals, hsplit, hrestRemovals, happly⟩ :=
    hremovals
  refine ⟨objects, removals, (env.addObjects b.snapshot [] b.objects).2,
    restRemovals, ?_⟩
  have hbody' (c : FlxContent) (r : ObjectRef) :=
    (happly c r).trans (congrArg _ (hbody c r))
  simp only [sendBootstrap, hrestRemovals]
  by_cases hdone : (env.addObjects b.snapshot [] b.objects).2 = []
      ∧ restRemovals = []
  · rw [if_pos hdone]
    exact ⟨hobjects, hsplit, hbody', rfl, rfl, rfl, rfl, rfl, rfl,
      fun _ => rfl, .inl ⟨hdone.1, hdone.2, rfl, rfl, rfl, rfl⟩⟩
  · rw [if_neg hdone]
    exact ⟨hobjects, hsplit, hbody', rfl, rfl, rfl, rfl, rfl, rfl,
      fun h => h, .inr ⟨rfl, rfl, rfl, rfl⟩⟩

/-- The session has prepared a bootstrap and will now send the first part
of it. -/
def FlxSystem.prepared (env : FlxEnv) (sys : FlxSystem) : FlxSystem :=
  { sys with
    session := { sys.session with
      bootstrap := some (sys.session.prepareBootstrap env sys.db sys.known)
      downloadProgress := sys.known }
    bootstrapFrom := sys.session.downloadProgress }

/-- To prepare a bootstrap keeps the invariant, if what the client holds
outside the new view is recorded. -/
theorem Covered.prepare (h : Covered env sys)
    (hpending : sys.session.bootstrapPending = true)
    (hcovers : ∀ r, sys.settled r ≠ none →
      Tracks sys.session.visible r ∨ sys.inView env r = true
        ∨ r ∈ sys.forced) :
    Covered env (sys.prepared env) := by
  obtain ⟨hkeyed, hfinal⟩ :=
    @finalVisible_spec env sys.db sys.session.queries h.noTab
  -- a tracked object stays in the view or is removed
  have htracked (r : ObjectRef) (htr : Tracks sys.session.visible r) :
      sys.inView env r = true ∨ r ∈ (sys.session.prepareBootstrap env
        sys.db sys.known).removals := by
    by_cases hview : sys.inView env r = true
    · exact .inl hview
    · exact .inr ((mem_prepareBootstrap_removals h.noTab h.keyed).2
        ⟨htr, Bool.eq_false_iff.2 hview⟩)
  exact
    { h with
      progress := le_refl _
      idle := fun hc => by cases hpending.symm.trans hc
      bootstrap := fun b hb => by
        cases hb
        exact
          { version := rfl
            keyed := hkeyed
            final := hfinal
            objects := fun r hr =>
              ((mem_prepareBootstrap_objects h.noTab h.keyed).1 hr).1
            removals := fun r hr =>
              ((mem_prepareBootstrap_removals h.noTab h.keyed).1 hr).2 }
      incremental := fun i hi => by
        cases (h.pending hpending).symm.trans hi
      buffered := fun hc => by cases hpending.symm.trans hc
      covered := by
        intro _ r hheld
        rcases hcovers r hheld with htr | hview | hforced
        · rcases htracked r htr with hview | hrem
          · exact .inr (.inl hview)
          · exact .inl (.inr hrem)
        · exact .inr (.inl hview)
        · exact .inr (.inr hforced)
      outside := fun hc => by cases hpending.symm.trans hc
      shown := by
        intro b hb r hr
        cases hb
        refine ⟨fun hmem =>
          ((mem_prepareBootstrap_objects h.noTab h.keyed).1 hmem).1,
          fun hheld => ?_⟩
        rcases hcovers r hheld with htr | hview | hforced
        · exact htracked r htr
        · exact .inl hview
        · exact absurd (.inl (h.forcedTouched r hforced).2) hr }

theorem Covered.pending_of_some (h : Covered env sys)
    (hb : sys.session.bootstrap = some b) :
    sys.session.bootstrapPending = true := by
  by_contra hc
  cases (h.idle (Bool.not_eq_true _ ▸ hc)).symm.trans hb

section batch

variable {s' : FlxSession} {m : FlxDownload} {v : Nat} {r : ObjectRef}
  {sentObjects sentRemovals restObjects restRemovals : List ObjectRef}
  (hp : SentBatch sys.session b s' m sentObjects sentRemovals restObjects
    restRemovals)

include hp

theorem SentBatch.settled :
    (sys.sent s' m v).settled = sys.settled.applyBody m.body := by
  refine settled_sent hp.queryVersion hp.messageQuery fun hstate => ?_
  rcases hp.rest with ⟨-, -, -, -, -, hlast⟩ | ⟨-, -, -, hmore⟩
  · cases hlast.symm.trans hstate
  · cases hmore.symm.trans hstate

/-- What the client holds after a part of a bootstrap: it was sent in it,
or held before and not removed by it. -/
theorem SentBatch.held (hheld : (sys.sent s' m v).settled r ≠ none) :
    r ∉ sentRemovals ∧ (r ∈ sentObjects ∨ sys.settled r ≠ none) := by
  rw [hp.settled, hp.body] at hheld
  by_cases hrem : r ∈ sentRemovals
  · rw [if_pos hrem] at hheld
    exact absurd rfl hheld
  · rw [if_neg hrem] at hheld
    refine ⟨hrem, ?_⟩
    by_cases hobj : r ∈ sentObjects
    · exact .inl hobj
    · rw [if_neg hobj] at hheld
      exact .inr hheld

variable (h : Covered env sys) (hb : sys.session.bootstrap = some b)

include h hb

/-- What the client holds is in the bootstrap's view, still to be
removed, in the view, or to be removed by force. -/
theorem SentBatch.covered (hheld : (sys.sent s' m v).settled r ≠ none) :
    (Tracks b.finalVisibleObjects r ∨ r ∈ restRemovals)
      ∨ sys.inView env r = true ∨ r ∈ sys.forced := by
  obtain ⟨hrem, hobj | hheld⟩ := hp.held hheld
  · have hok := h.bootstrap b hb
    refine .inl (.inl ((hok.final r).2 (hok.objects r ?_)))
    rw [hp.objects]
    exact List.mem_append_left _ hobj
  · have hcov := h.covered (fun _ => by rw [hb]; rfl) r hheld
    rw [tracks, hb] at hcov
    rcases hcov with (hfinal | hmem) | hcov
    · exact .inl (.inl hfinal)
    · rw [hp.removals, List.mem_append] at hmem
      exact .inl (.inr (hmem.resolve_left hrem))
    · exact .inr hcov

/-- What the client holds and is not stale is in the view or still to be
removed. -/
theorem SentBatch.shown (hr : ¬ sys.stale r)
    (hheld : (sys.sent s' m v).settled r ≠ none) :
    sys.inView env r = true ∨ r ∈ restRemovals := by
  obtain ⟨hobjects, hshown⟩ := h.shown b hb r hr
  obtain ⟨hrem, hobj | hheld⟩ := hp.held hheld
  · refine .inl (hobjects ?_)
    rw [hp.objects]
    exact List.mem_append_left _ hobj
  · rcases hshown hheld with hview | hmem
    · exact .inl hview
    · rw [hp.removals, List.mem_append] at hmem
      exact .inr (hmem.resolve_left hrem)

/-- During a bootstrap only the history makes objects stale. -/
theorem SentBatch.stale (hnone : sys.session.incremental = none) :
    (sys.sent s' m v).stale r ↔ sys.stale r := by
  have hremaining : s'.remaining = sys.session.remaining := by
    rw [remaining, remaining, hp.incremental hnone, hnone]
  show r ∈ touchedBetween sys.log s'.downloadProgress sys.version
    ∨ r ∈ s'.remaining ↔ _
  rw [hp.progress, (h.bootstrap b hb).version, hremaining]
  exact Iff.rfl

theorem Covered.sendBatch : Covered env (sys.sent s' m v) := by
  have hok := h.bootstrap b hb
  have hpending := h.pending_of_some hb
  have hnone := h.pending hpending
  have hview := @inView_sent env sys s' m v hp.queries
  have hlast := (@buffer_sent sys s' m v).1
  have hversion : b.serverVersion ≤ sys.known :=
    hok.version.trans_le h.progress
  have harriving := h.arriving_sent (hp.messageVersion.trans_le hversion)
  have hincremental (i : FlxIncrementalState)
      (hi : s'.incremental = some i) : False := by
    cases (hp.incremental hnone).symm.trans hi
  have hprogress := hp.progress.trans_le hversion
  rcases hp.rest with
    ⟨hobjects, hremovals, hidle, hnoBootstrap, hvisible, hstate⟩
      | ⟨hsame, hmore, hvisible, hstate⟩
  · -- the last part: the record becomes the bootstrap's view
    exact
      { h with
        keyed := hvisible.symm ▸ hok.keyed
        progress := hprogress
        arriving := harriving
        idle := fun _ => hnoBootstrap
        pending := fun _ => hp.incremental hnone
        bootstrap := fun b' hb' => by cases hnoBootstrap.symm.trans hb'
        incremental := fun i hi => (hincremental i hi).elim
        buffered := fun _ _ _ => hlast hstate
        covered := by
          intro _ r hheld
          rw [tracks, hview]
          show s'.bootstrap.elim (Tracks s'.visible r) _ ∨ _
          rw [hnoBootstrap, hvisible]
          rcases hp.covered h hb hheld with (hfinal | hmem) | hcov
          · exact .inl hfinal
          · rw [hremovals] at hmem
            cases hmem
          · exact .inr hcov
        outside := by
          intro _ r hr hheld
          rw [hp.stale h hb hnone] at hr
          rw [hview]
          rcases hp.shown h hb hr hheld with hview | hmem
          · exact hview
          · rw [hremovals] at hmem
            cases hmem
        shown := fun b' hb' => by cases hnoBootstrap.symm.trans hb' }
  · have hpending' : s'.bootstrapPending = true := hsame.trans hpending
    exact
      { h with
        keyed := hvisible.symm ▸ h.keyed
        progress := hprogress
        arriving := harriving
        idle := fun hc => by cases hpending'.symm.trans hc
        pending := fun _ => hp.incremental hnone
        bootstrap := fun b' hb' => by
          cases hmore.symm.trans hb'
          refine ⟨hp.progress.symm, hok.keyed, ?_, ?_, ?_⟩
          · show ∀ r, _ ↔ env.isVisible b.snapshot s'.queries r = true
            rw [hp.queries]
            exact hok.final
          · show ∀ r ∈ restObjects,
              env.isVisible b.snapshot s'.queries r = true
            intro r hr
            rw [hp.queries]
            apply hok.objects
            rw [hp.objects]
            exact List.mem_append_right _ hr
          · show ∀ r ∈ restRemovals,
              env.isVisible b.snapshot s'.queries r = false
            intro r hr
            rw [hp.queries]
            apply hok.removals
            rw [hp.removals]
            exact List.mem_append_right _ hr
        incremental := fun i hi => (hincremental i hi).elim
        buffered := fun hc => by cases hpending'.symm.trans hc
        covered := by
          intro _ r hheld
          rw [tracks, hview]
          show s'.bootstrap.elim (Tracks s'.visible r) _ ∨ _
          rw [hmore]
          exact hp.covered h hb hheld
        outside := fun hc => by cases hpending'.symm.trans hc
        shown := by
          intro b' hb' r hr
          cases hmore.symm.trans hb'
          rw [hp.stale h hb hnone] at hr
          rw [hview]
          refine ⟨fun hmem => ?_, hp.shown h hb hr⟩
          apply (h.shown b hb r hr).1
          rw [hp.objects]
          exact List.mem_append_right _ hmem }

end batch

end bootstrap

end BarqSync.Flx
