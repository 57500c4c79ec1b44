/-
What a flexible sync client holds of the objects in its view is what the
server has, once the session has nothing more to send.

# Two ways to be up to date

In the incremental mode an object of the view is up to date at the client
or stale, and a stale object will be looked at again (`Current.view`).
A bootstrap sends the objects of the new view, except, after a QUERY,
those the record has: these have to be up to date by themselves
(`Current.record`).

# What breaks it

A bootstrap moves the download progress to the newest version the session
knows, so the history it skips is never scanned. After a QUERY that loses
the changes of recorded objects in the skipped stretch, what was left of
an incremental body, and, when it cuts off another bootstrap, what that
one had skipped before. `Follows` is the condition that rules these out.
-/
import BarqSync.Server.Flx.Proofs.View

namespace BarqSync.Flx

open FlxSystem

variable {sys : FlxSystem} {b : FlxBootstrapState}
  {image : Option (List (Bytes × List FlxInstr))}

-- ===== the conditions

/-- The condition under which the objects in the view stay up to date, on
top of `Covers`, as long as the connection stays. An upload leaves an
object it wrote alike on both sides if it was alike before, and it was,
unless the session will look at it again. -/
def Follows (env : FlxEnv) (sys : FlxSystem) : FlxEvent → Prop
  | .upload db writes compensated _ =>
    ∀ w ∈ writes, ¬ sys.stale w.1 → w.1 ∉ compensated →
      Agrees (sys.client.objects w.1) (sys.db.image w.1)
        ∧ (Agrees (sys.client.objects w.1) (sys.db.image w.1) →
          Agrees (sys.client.objects.write writes w.1) (db.image w.1))
  | .send _ => sys.session.preparesBootstrap = true →
      sys.session.bootstrapSendAllObjects = false →
        ∀ r, Tracks sys.session.visible r → sys.inView env r = true →
          r ∉ touchedBetween sys.log sys.session.downloadProgress sys.known
  | .query _ _ =>
    sys.session.incremental = none
      ∧ (sys.session.bootstrapPending = true →
        ∀ r, Tracks sys.session.visible r →
          sys.session.bootstrapSendAllObjects = false
            ∧ (sys.session.bootstrap.isSome = true →
              r ∉ touchedBetween sys.log sys.bootstrapFrom
                sys.session.downloadProgress))
  | .reconnect _ _ _ => False
  | _ => True

-- ===== the invariant

/-- The version after which a recorded object was not touched if it is up
to date. -/
def FlxSystem.recordFrom (sys : FlxSystem) : Nat :=
  if sys.session.bootstrap.isSome then sys.bootstrapFrom
  else sys.session.downloadProgress

/-- What the client holds of the recorded objects. The record changes
only when a bootstrap is complete, so its parts do not count. -/
def FlxSystem.recorded (sys : FlxSystem) : FlxContent :=
  if sys.session.bootstrap.isSome then sys.arrived.objects
  else sys.settled

/-- An object of the view that is not stale is up to date. -/
def FlxSystem.Shown (env : FlxEnv) (sys : FlxSystem) : Prop :=
  ∀ r, ¬ sys.stale r → sys.inView env r = true →
    Agrees (sys.settled r) (sys.db.image r)

/-- A bootstrap in progress will bring the objects that are not up to
date. -/
structure BatchOk (env : FlxEnv) (sys : FlxSystem)
    (b : FlxBootstrapState) : Prop where
  since : sys.bootstrapFrom ≤ sys.session.downloadProgress
  same : ∀ r ∈ b.objects, ¬ sys.stale r →
    b.snapshot.image r = sys.db.image r
  removed : ∀ r ∈ b.removals, ¬ sys.stale r → sys.inView env r = false
  view : ∀ r, ¬ sys.stale r →
    Tracks b.finalVisibleObjects r ∨ sys.inView env r = true →
      r ∈ b.objects ∨ Agrees (sys.settled r) (sys.db.image r)

/-- What holds of the objects in the view. -/
structure Current (env : FlxEnv) (sys : FlxSystem) : Prop where
  view : sys.session.bootstrapPending = false → sys.Shown env
  batch : ∀ b, sys.session.bootstrap = some b → BatchOk env sys b
  record : (sys.session.bootstrapPending = true
      → sys.session.bootstrapSendAllObjects = false) →
    ∀ r, Tracks sys.session.visible r →
      r ∉ touchedBetween sys.log sys.recordFrom sys.version →
        r ∉ sys.session.remaining →
          Agrees (sys.recorded r) (sys.db.image r)
  parts : sys.arrived.buffer ≠ []
    → sys.arrived.bufferVersion ≤ sys.session.queryVersion
  fresh : sys.session.bootstrapPending = true
    → sys.session.bootstrap = none
    → sys.arrived.bufferVersion = sys.session.queryVersion
    → sys.arrived.buffer = []

theorem FlxSystem.recordFrom_of_none (h : sys.session.bootstrap = none) :
    sys.recordFrom = sys.session.downloadProgress := by
  rw [recordFrom, h]
  rfl

theorem FlxSystem.recorded_of_none (h : sys.session.bootstrap = none) :
    sys.recorded = sys.settled := by
  rw [recorded, h]
  rfl

theorem FlxSystem.recordFrom_of_some (h : sys.session.bootstrap = some b) :
    sys.recordFrom = sys.bootstrapFrom := by
  rw [recordFrom, h]
  rfl

theorem FlxSystem.recorded_of_some (h : sys.session.bootstrap = some b) :
    sys.recorded = sys.arrived.objects := by
  rw [recorded, h]
  rfl

section basics

variable {env : FlxEnv} {sys : FlxSystem} {r : ObjectRef}

/-- Without a bootstrap in progress a recorded object is up to date
unless it is stale. -/
theorem Current.record_of_none (h : Current env sys)
    (hnone : sys.session.bootstrap = none)
    (hall : sys.session.bootstrapPending = true
      → sys.session.bootstrapSendAllObjects = false)
    (htr : Tracks sys.session.visible r) (hr : ¬ sys.stale r) :
    Agrees (sys.settled r) (sys.db.image r) := by
  rw [stale, not_or] at hr
  have hrecord := h.record hall r htr
  rw [recordFrom_of_none hnone, recorded_of_none hnone] at hrecord
  exact hrecord hr.1 hr.2

/-- Between two batches nothing waits at the client. -/
theorem Current.settled (h : Current env sys) (hcov : Covered env sys)
    (hnone : sys.session.bootstrap = none)
    (hincremental : sys.session.incremental = none) :
    sys.settled = sys.arrived.objects := by
  refine settled_eq_arrived ?_
  cases hp : sys.session.bootstrapPending with
  | true => exact h.fresh hp hnone
  | false => exact hcov.buffered hp hincremental

/-- The record never reaches back beyond what the session knows. -/
theorem Current.recordFrom_le (h : Current env sys) :
    sys.recordFrom ≤ sys.session.downloadProgress := by
  cases hb : sys.session.bootstrap with
  | none => exact le_of_eq (recordFrom_of_none hb)
  | some b =>
    rw [recordFrom_of_some hb]
    exact (h.batch b hb).since

/-- What is not touched since the record was right is not stale. -/
theorem Current.not_stale (h : Current env sys) (hcov : Covered env sys)
    (hr : r ∉ touchedBetween sys.log sys.recordFrom sys.version)
    (hrem : r ∉ sys.session.remaining) : ¬ sys.stale r := by
  rw [stale, not_or]
  refine ⟨fun hmem => hr ?_, hrem⟩
  have hle := hcov.progress.trans hcov.known
  exact (mem_touchedBetween_split h.recordFrom_le hle).2 (.inr hmem)

end basics

-- ===== the events

section events

variable {env : FlxEnv} {sys : FlxSystem} {queries : FlxQueries}
  {queryVersion : Nat}

theorem Current.deliver (h : Current env sys) {m : FlxDownload}
    (hm : sys.inflight.head? = some m) : Current env (sys.delivered m) := by
  have hrecorded : (sys.delivered m).recorded = sys.recorded := by
    rw [recorded, recorded, arrived_delivered hm, settled_delivered hm]
    rfl
  exact
    { view := by
        rw [Shown, settled_delivered hm]
        exact h.view
      batch := by
        intro b hb
        obtain ⟨hsince, hsame, hremoved, hview⟩ := h.batch b hb
        refine ⟨hsince, hsame, hremoved, ?_⟩
        rw [settled_delivered hm]
        exact hview
      record := by
        rw [hrecorded]
        exact h.record
      parts := by
        rw [arrived_delivered hm]
        exact h.parts
      fresh := by
        rw [arrived_delivered hm]
        exact h.fresh }

/-- A QUERY message: the record has to be right for what the client holds
without the batch that the query cuts off. -/
theorem Current.query (h : Current env sys) (hcov : Covered env sys)
    (hversion : sys.session.queryVersion < queryVersion)
    (hok : Follows env sys (.query queryVersion queries)) :
    Current env { sys with
      session := sys.session.receiveQuery queryVersion queries } := by
  obtain ⟨hnone, htracked⟩ := hok
  have hdue : (sys.session.receiveQuery queryVersion
      queries).bootstrapPending = true := decide_eq_true (by omega)
  -- what waits is of an older query
  have holder : sys.arrived.bufferVersion = queryVersion
      → sys.arrived.buffer = [] := by
    intro heq
    by_contra hne
    have := h.parts hne
    omega
  refine ⟨fun hc => ?_, fun b hb => (by cases hb), ?_,
    fun hne => (h.parts hne).trans hversion.le, fun _ _ => holder⟩
  · cases hdue.symm.trans hc
  · intro _ r htr hr _
    have htr : Tracks sys.session.visible r := htr
    have hr : r ∉ touchedBetween sys.log sys.session.downloadProgress
        sys.version := hr
    rw [recorded_of_none rfl, settled_eq_arrived holder]
    show Agrees (sys.arrived.objects r) (sys.db.image r)
    have hall : sys.session.bootstrapPending = true
        → sys.session.bootstrapSendAllObjects = false :=
      fun hp => (htracked hp r htr).1
    have hremaining : r ∉ sys.session.remaining := by
      rw [FlxSession.remaining, hnone]
      simp
    cases hb : sys.session.bootstrap with
    | none =>
      rw [← h.settled hcov hb hnone]
      exact h.record_of_none hb hall htr fun hs =>
        hs.elim hr hremaining
    | some b =>
      have hpending := hcov.pending_of_some hb
      have hskipped := (htracked hpending r htr).2 (by rw [hb]; rfl)
      have hrecord := h.record hall r htr
      rw [recordFrom_of_some hb, recorded_of_some hb] at hrecord
      refine hrecord (fun hmem => ?_) hremaining
      have hle := hcov.progress.trans hcov.known
      exact ((mem_touchedBetween_split (h.batch b hb).since hle).1
        hmem).elim hskipped hr

/-- Nothing is in the view of no queries. -/
theorem isVisible_nil (db : FlxDb) (r : ObjectRef) :
    env.isVisible db [] r = false := by
  rw [FlxEnv.isVisible]
  show ((∅ : StringMap (FlxRule × List Bytes))[r.1]?).any _ = false
  rw [Std.ExtTreeMap.getElem?_empty]
  rfl

/-- Objects removed by force are stale. -/
theorem Current.finalize (h : Current env sys) (hcov : Covered env sys) :
    Current env { sys with
      known := sys.version
      session := sys.forced.foldl FlxSession.forcedRemoval sys.session
      forced := [] } := by
  rw [foldl_forcedRemoval]
  obtain ⟨-, htracks⟩ := foldl_insert_spec
    (fun r hr => (hcov.forcedTouched r hr).1) sys.session.visible
    hcov.keyed
  refine ⟨h.view, fun b hb => ?_, ?_, h.parts, h.fresh⟩
  · obtain ⟨hsince, hsame, hremoved, hview⟩ := h.batch b hb
    exact ⟨hsince, hsame, hremoved, hview⟩
  · intro hall r htr hr hremaining
    rcases (htracks r).1 htr with htr | hforced
    · exact h.record hall r htr hr hremaining
    · have hle := h.recordFrom_le.trans hcov.progress
      exact absurd ((mem_touchedBetween_split hle hcov.known).2
        (.inr (hcov.forcedTouched r hforced).2)) hr

end events

-- ===== the history grows

section grows

variable {env : FlxEnv} {sys sys' : FlxSystem}
  {written foreign : ObjectRef → Prop} (hcov : Covered env sys)
  (g : Grows env sys sys' written foreign)

include hcov g

theorem FlxSystem.Shown.grow (h : sys.Shown env)
    (hwrote : ∀ r, written r → ¬ foreign r → ¬ sys.stale r →
      Agrees (sys'.settled r) (sys'.db.image r)) :
    sys'.Shown env := by
  intro r hr hview
  rw [g.stale hcov r, not_or] at hr
  by_cases hw : written r
  · exact hwrote r hw hr.2 hr.1
  · rw [(g.confined r hw).1] at hview
    rw [(g.confined r hw).2, (g.settled r hw).1]
    exact h r hr.1 hview

theorem BatchOk.grow (h : BatchOk env sys b)
    (hb : sys.session.bootstrap = some b)
    (hfrom : sys'.bootstrapFrom = sys.bootstrapFrom)
    (hwrote : ∀ r, written r → ¬ foreign r → ¬ sys.stale r →
      Agrees (sys'.settled r) (sys'.db.image r)) :
    BatchOk env sys' b := by
  -- no upload writes what the bootstrap is about to send
  have hunwritten (r : ObjectRef) (hr : r ∈ b.objects ∨ r ∈ b.removals)
      (hf : ¬ foreign r) : ¬ written r :=
    fun hw => g.sending r hw hf (.inr (.inr (.inr ⟨b, hb, hr⟩)))
  have hstale (r : ObjectRef) (hr : ¬ sys'.stale r) :
      ¬ sys.stale r ∧ ¬ foreign r := by
    rw [g.stale hcov r, not_or] at hr
    exact hr
  refine ⟨?_, ?_, ?_, ?_⟩
  · rw [hfrom, g.session]
    exact h.since
  · intro r hmem hr
    obtain ⟨hr, hf⟩ := hstale r hr
    rw [(g.confined r (hunwritten r (.inl hmem) hf)).2]
    exact h.same r hmem hr
  · intro r hmem hr
    obtain ⟨hr, hf⟩ := hstale r hr
    rw [(g.confined r (hunwritten r (.inr hmem) hf)).1]
    exact h.removed r hmem hr
  · intro r hr hview
    obtain ⟨hr, hf⟩ := hstale r hr
    by_cases hw : written r
    · exact .inr (hwrote r hw hf hr)
    · rw [(g.confined r hw).1] at hview
      rw [(g.confined r hw).2, (g.settled r hw).1]
      exact h.view r hr hview

theorem Current.grow (h : Current env sys)
    (hfrom : sys'.bootstrapFrom = sys.bootstrapFrom)
    (hwrote : ∀ r, written r → ¬ foreign r → ¬ sys.stale r →
      Agrees (sys'.settled r) (sys'.db.image r)
        ∧ Agrees (sys'.arrived.objects r) (sys'.db.image r)) :
    Current env sys' := by
  have hwroteSettled := fun r hw hf hr => (hwrote r hw hf hr).1
  have hrecordFrom : sys'.recordFrom = sys.recordFrom := by
    rw [recordFrom, recordFrom, g.session, hfrom]
  refine ⟨?_, ?_, ?_, ?_, ?_⟩
  · rw [g.session]
    intro hidle
    exact (h.view hidle).grow hcov g hwroteSettled
  · rw [g.session]
    intro b hb
    exact (h.batch b hb).grow hcov g hb hfrom hwroteSettled
  · rw [g.session, hrecordFrom]
    intro hall r htr hr hremaining
    have hle := h.recordFrom_le.trans (hcov.progress.trans hcov.known)
    rw [g.touched _ hle, not_or] at hr
    by_cases hw : written r
    · have hstale := h.not_stale hcov hr.1 hremaining
      obtain ⟨hsettled, hobjects⟩ := hwrote r hw hr.2 hstale
      rw [recorded]
      split
      · exact hobjects
      · exact hsettled
    · have hrecorded : sys'.recorded r = sys.recorded r := by
        rw [recorded, recorded, g.session]
        split
        · exact (g.settled r hw).2
        · exact (g.settled r hw).1
      rw [(g.confined r hw).2, hrecorded]
      exact h.record hall r htr hr.1 hremaining
  · rw [g.session, g.buffer, g.bufferVersion]
    exact h.parts
  · rw [g.session, g.buffer, g.bufferVersion]
    exact h.fresh

end grows

section writes

variable {env : FlxEnv} {sys : FlxSystem} {db : FlxDb}
  {compensated forced : List ObjectRef}
  {writes : List (ObjectRef × Option FlxHeld)}

theorem Current.commit (h : Current env sys) (hcov : Covered env sys)
    {touched : List ObjectRef}
    (hok : Covers env sys (.commit db touched)) :
    Current env (sys.committed db touched) := by
  obtain ⟨hdb, hnoTab, hconfined, -⟩ := hok
  refine h.grow hcov (grows_commit hcov hdb hnoTab hconfined) rfl ?_
  intro r hw hf
  exact absurd hw hf

/-- The objects an upload wrote are alike on both sides, in what has
arrived and in what will be held. -/
theorem agrees_uploaded (hsending : ∀ w ∈ writes, ¬ sys.sending w.1)
    (hfollows : Follows env sys (.upload db writes compensated forced))
    {r : ObjectRef} (hr : r ∈ writes.map (·.1)) (hf : r ∉ compensated)
    (hstale : ¬ sys.stale r) :
    Agrees ((sys.uploaded db writes compensated forced).settled r)
        (db.image r)
      ∧ Agrees ((sys.uploaded db writes compensated
        forced).arrived.objects r) (db.image r) := by
  obtain ⟨w, hw, rfl⟩ := List.mem_map.1 hr
  obtain ⟨hbefore, hafter⟩ := hfollows w hw hstale hf
  obtain ⟨hsettled, harrived⟩ :=
    @settled_uploaded sys db compensated forced writes w.1 (hsending w hw)
  rw [hsettled, harrived]
  exact ⟨hafter hbefore, hafter hbefore⟩

theorem Current.upload (h : Current env sys) (hcov : Covered env sys)
    (hok : Covers env sys (.upload db writes compensated forced))
    (hfollows : Follows env sys (.upload db writes compensated forced)) :
    Current env (sys.uploaded db writes compensated forced) := by
  obtain ⟨hdb, hnoTab, hcompensated, hforced, hconfined, hsending, -⟩ :=
    hok
  refine h.grow hcov (grows_upload hcov hdb hnoTab hcompensated hforced
    hconfined hsending) rfl ?_
  intro r hr hf hstale
  exact agrees_uploaded hsending hfollows hr hf hstale

end writes

-- ===== sending

/-- Parts that wait are of the query's version or an older one. -/
theorem Current.parts_sent {env : FlxEnv} {s' : FlxSession}
    {m : FlxDownload} {v : Nat} (h : Current env sys)
    (hs : s'.queryVersion = sys.session.queryVersion)
    (hm : m.queryVersion = sys.session.queryVersion) :
    (sys.sent s' m v).arrived.buffer ≠ []
      → (sys.sent s' m v).arrived.bufferVersion ≤ s'.queryVersion := by
  rw [arrived_sent, hs, FlxClient.receive]
  cases m.batchState with
  | steadyState => exact h.parts
  | moreToCome => exact fun _ => le_of_eq hm
  | lastInBatch => exact fun hne => absurd rfl hne

/-- An object that was sent is as it was sent. -/
theorem agrees_sent (h : ∃ changes, image = some changes)
    (held : Option FlxHeld) :
    Agrees (image.map (FlxHeld.put held)) image := by
  obtain ⟨changes, rfl⟩ := h
  exact agrees_put held changes

section incremental

variable {env : FlxEnv} {sys : FlxSystem} {i : FlxIncrementalState}
  {s' : FlxSession} {m : FlxDownload} {looked : List (Bytes × ObjectRef)}
  {v : Nat} {r : ObjectRef}

section part

variable (hp : SentPart env sys i s' m looked) (hi : Resumable env sys i)

include hp hi

/-- An object of the view that was looked at is up to date, unless it was
touched since. -/
theorem SentPart.agrees (hmem : r ∈ looked.map (·.2))
    (hview : env.isVisible i.snapshot sys.session.queries r = true)
    (hr : r ∉ touchedBetween sys.log i.serverVersion sys.version) :
    Agrees ((sys.sent s' m v).settled r) (sys.db.image r) := by
  rw [hp.settled hi, hp.look.applied, if_pos hmem, FlxEnv.look,
    if_pos hview, ← (hp.same hi hmem hr).2]
  exact agrees_sent (image_of_isVisible hview) _

theorem FlxSystem.Shown.sendPart (h : sys.Shown env) :
    (sys.sent s' m v).Shown env := by
  intro r hr hview
  have hview : env.isVisible sys.db s'.queries r = true := hview
  rw [hp.queries] at hview
  obtain ⟨htouched, hstale⟩ := hp.not_stale hi hr
  show Agrees _ (sys.db.image r)
  by_cases hmem : r ∈ looked.map (·.2)
  · refine hp.agrees hi hmem ?_ htouched
    rw [(hp.same hi hmem htouched).1]
    exact hview
  · rw [hp.settled hi, hp.look.applied, if_neg hmem]
    exact h r (hstale hmem) hview

theorem Current.sendPart (h : Current env sys) (hcov : Covered env sys) :
    Current env (sys.sent s' m v) := by
  have hnone : (sys.sent s' m v).session.bootstrap = none := hp.idle.2
  refine ⟨fun _ => (h.view hi.idle).sendPart hp hi, fun b hb => ?_, ?_,
    h.parts_sent hp.queryVersion hp.messageQuery,
    fun hc => (by cases hp.idle.1.symm.trans hc)⟩
  · cases hnone.symm.trans hb
  · intro _ r htr hr hremaining
    rw [recordFrom_of_none hnone] at hr
    rw [recorded_of_none hnone]
    obtain ⟨htouched, hstale⟩ :=
      hp.not_stale hi (fun hs => hs.elim hr hremaining)
    have htr := (hp.look.tracks r).1 htr
    show Agrees _ (sys.db.image r)
    by_cases hmem : r ∈ looked.map (·.2)
    · rw [if_pos hmem] at htr
      exact hp.agrees hi hmem htr htouched
    · rw [if_neg hmem] at htr
      rw [hp.settled hi, hp.look.applied, if_neg hmem]
      refine h.record_of_none (hcov.idle hi.idle) (fun hc => ?_) htr
        (hstale hmem)
      rw [hi.idle] at hc
      cases hc

end part

end incremental

section bootstrap

variable {env : FlxEnv} {sys : FlxSystem} {b : FlxBootstrapState}
  {s' : FlxSession} {m : FlxDownload} {v : Nat} {r : ObjectRef}
  {sentObjects sentRemovals restObjects restRemovals : List ObjectRef}

section batch

variable (hcov : Covered env sys) (hb : sys.session.bootstrap = some b)
  (hp : SentBatch sys.session b s' m sentObjects sentRemovals restObjects
    restRemovals)

include hcov hb hp

/-- After a part of a bootstrap an object is still to be sent or up to
date. -/
theorem BatchOk.agrees (h : BatchOk env sys b) (hr : ¬ sys.stale r)
    (hview : Tracks b.finalVisibleObjects r ∨ sys.inView env r = true) :
    r ∈ restObjects
      ∨ Agrees ((sys.sent s' m v).settled r) (sys.db.image r) := by
  have hok := hcov.bootstrap b hb
  have hremovals : r ∉ sentRemovals := by
    intro hmem
    have hmem : r ∈ b.removals := by
      rw [hp.removals]
      exact List.mem_append_left _ hmem
    rcases hview with hfinal | hview
    · have := (hok.final r).1 hfinal
      rw [hok.removals r hmem] at this
      cases this
    · rw [h.removed r hmem hr] at hview
      cases hview
  rw [hp.settled, hp.body, if_neg hremovals]
  by_cases hobj : r ∈ sentObjects
  · have hmem : r ∈ b.objects := by
      rw [hp.objects]
      exact List.mem_append_left _ hobj
    rw [if_pos hobj, ← h.same r hmem hr]
    exact .inr (agrees_sent (hcov.images hb r hmem) _)
  · rw [if_neg hobj]
    rcases h.view r hr hview with hmem | hagrees
    · rw [hp.objects, List.mem_append] at hmem
      exact .inl (hmem.resolve_left hobj)
    · exact .inr hagrees

theorem Current.sendBatch (h : Current env sys)
    (hv : v = sys.bootstrapFrom) : Current env (sys.sent s' m v) := by
  have hbatch := h.batch b hb
  have hpending := hcov.pending_of_some hb
  have hnone := hcov.pending hpending
  have hstale (r : ObjectRef) (hr : ¬ (sys.sent s' m v).stale r) :
      ¬ sys.stale r := by
    rwa [hp.stale hcov hb hnone] at hr
  have hview := @inView_sent env sys s' m v hp.queries
  have hparts : (sys.sent s' m v).arrived.buffer ≠ []
      → (sys.sent s' m v).arrived.bufferVersion ≤ s'.queryVersion :=
    h.parts_sent hp.queryVersion hp.messageQuery
  rcases hp.rest with
    ⟨hobjects, -, hidle, hnoBootstrap, hvisible, -⟩
      | ⟨hsame, hmore, hvisible, hstate⟩
  · -- the last part: nothing is left to be sent
    have hagrees (r : ObjectRef) (hr : ¬ (sys.sent s' m v).stale r)
        (hin : Tracks b.finalVisibleObjects r ∨ sys.inView env r = true) :
        Agrees ((sys.sent s' m v).settled r) (sys.db.image r) := by
      rcases hbatch.agrees hcov hb hp (hstale r hr) hin with hmem | hagrees
      · rw [hobjects] at hmem
        cases hmem
      · exact hagrees
    have hb' : (sys.sent s' m v).session.bootstrap = none := hnoBootstrap
    refine ⟨fun _ r hr hin => ?_, fun b' hb'' => ?_, ?_, hparts,
      fun hc => (by cases hidle.symm.trans hc)⟩
    · rw [hview] at hin
      exact hagrees r hr (.inr hin)
    · cases hb'.symm.trans hb''
    · intro _ r htr hr hremaining
      have htr : Tracks s'.visible r := htr
      rw [hvisible] at htr
      rw [recordFrom_of_none hb'] at hr
      rw [recorded_of_none hb']
      exact hagrees r (fun hs => hs.elim hr hremaining) (.inl htr)
  · have hb' : (sys.sent s' m v).session.bootstrap
        = some { b with
          objects := restObjects
          removals := restRemovals } := hmore
    refine ⟨fun hc => ?_, fun b' hb'' => ?_, ?_, hparts,
      fun _ hc => (by cases hmore.symm.trans hc)⟩
    · cases (hsame.trans hpending).symm.trans hc
    · cases hb'.symm.trans hb''
      refine ⟨?_, fun r hmem hr => ?_, fun r hmem hr => ?_,
        fun r hr hin => ?_⟩
      · show v ≤ s'.downloadProgress
        rw [hv, hp.progress, (hcov.bootstrap b hb).version]
        exact hbatch.since
      · refine hbatch.same r ?_ (hstale r hr)
        rw [hp.objects]
        exact List.mem_append_right _ hmem
      · rw [hview]
        refine hbatch.removed r ?_ (hstale r hr)
        rw [hp.removals]
        exact List.mem_append_right _ hmem
      · rw [hview] at hin
        exact hbatch.agrees hcov hb hp (hstale r hr) hin
    · -- what waits in the client's buffer does not count for the record
      have hrecorded : (sys.sent s' m v).recorded = sys.recorded := by
        rw [recorded_of_some hb', recorded_of_some hb,
          arrived_sent, FlxClient.receive, hstate]
      have hrecordFrom : (sys.sent s' m v).recordFrom
          = sys.recordFrom := by
        rw [recordFrom_of_some hb', recordFrom_of_some hb]
        exact hv
      rw [hrecorded, hrecordFrom]
      intro hall r htr hr _
      have htr : Tracks s'.visible r := htr
      rw [hvisible] at htr
      refine h.record (fun _ => ?_) r htr hr ?_
      · rw [← hp.sendAll]
        exact hall (hsame.trans hpending)
      · rw [FlxSession.remaining, hnone]
        simp

end batch

/-- To prepare a bootstrap: the objects that are not sent are up to date
by the record. -/
theorem Current.prepare (h : Current env sys) (hcov : Covered env sys)
    (hpending : sys.session.bootstrapPending = true)
    (hnone : sys.session.bootstrap = none)
    (hrecord : sys.session.bootstrapSendAllObjects = false →
      ∀ r, Tracks sys.session.visible r → sys.inView env r = true →
        r ∉ touchedBetween sys.log sys.session.downloadProgress
          sys.known) :
    Current env (sys.prepared env) := by
  obtain ⟨-, hfinal⟩ :=
    @finalVisible_spec env sys.db sys.session.queries hcov.noTab
  have hincremental := hcov.pending hpending
  refine ⟨fun hc => ?_, fun b hb => ?_, ?_, h.parts,
    fun _ hc => (by cases hc)⟩
  · cases hpending.symm.trans hc
  · cases hb
    refine ⟨hcov.progress, fun r _ _ => rfl, fun r hmem _ =>
      ((mem_prepareBootstrap_removals hcov.noTab hcov.keyed).1 hmem).2,
      fun r hr hin => ?_⟩
    have hin : sys.inView env r = true := hin.elim (hfinal r).1 id
    by_cases hskip : sys.session.bootstrapSendAllObjects = false
        ∧ Tracks sys.session.visible r
    · -- recorded, so it is not sent
      refine .inr (h.record_of_none hnone (fun _ => hskip.1) hskip.2 ?_)
      have hr : r ∉ touchedBetween sys.log sys.known sys.version :=
        fun hmem => hr (.inl hmem)
      have hskipped := hrecord hskip.1 r hskip.2 hin
      rw [stale, FlxSession.remaining, hincremental,
        mem_touchedBetween_split hcov.progress hcov.known]
      simp only [Option.elim_none, List.not_mem_nil, or_false, not_or]
      exact ⟨hskipped, hr⟩
    · refine .inl ((mem_prepareBootstrap_objects hcov.noTab
        hcov.keyed).2 ⟨hin, fun hall htr => hskip ⟨hall, htr⟩⟩)
  · intro hall r htr hr hremaining
    have hrecorded : (sys.prepared env).recorded = sys.settled :=
      (h.settled hcov hnone hincremental).symm
    rw [hrecorded]
    exact h.record_of_none hnone hall htr fun hs => hs.elim hr hremaining

end bootstrap

-- ===== the step

section step

variable {env : FlxEnv} {sys sys' : FlxSystem} {e : FlxEvent}

/-- Every event keeps the invariant. -/
theorem Current.step (h : Current env sys) (hcov : Covered env sys)
    (hcovers : Covers env sys e) (hfollows : Follows env sys e)
    (hstep : sys.step env e = some sys') : Current env sys' := by
  cases e with
  | commit db touched =>
    cases hstep
    exact h.commit hcov hcovers
  | upload db writes compensated forced =>
    cases hstep
    exact h.upload hcov hcovers hfollows
  | finalize =>
    cases hstep
    exact h.finalize hcov
  | send upTo =>
    rcases send_cases hcov hstep with
      ⟨i, hi, rfl⟩ | ⟨b, hb, rfl⟩ | ⟨hpending, hnone, hprepares, b, hb, rfl⟩
    · obtain ⟨looked, hp⟩ := sentPart hcov hi
      exact h.sendPart hp hi hcov
    · obtain ⟨_, _, _, _, hp⟩ := hcov.sentBatch hb
      exact h.sendBatch hcov hb hp rfl
    · have hcov' := hcov.prepare hpending (hcovers hprepares)
      have h' := h.prepare hcov hpending hnone (hfollows hprepares)
      obtain ⟨_, _, _, _, hp⟩ := hcov'.sentBatch hb
      exact h'.sendBatch hcov' hb hp rfl
  | deliver =>
    obtain ⟨m, hm, rfl⟩ := Option.map_eq_some_iff.1 hstep
    exact h.deliver hm
  | query queryVersion queries =>
    simp only [step] at hstep
    split at hstep
    case isFalse => cases hstep
    case isTrue hversion =>
      cases hstep
      exact h.query hcov hversion hfollows
  | reconnect => exact hfollows.elim

/-- The subscription and the connection stay. -/
def FlxEvent.Steady : FlxEvent → Prop
  | .query _ _ => False
  | .reconnect _ _ _ => False
  | _ => True

/-- The incremental mode goes on, and its invariant needs no record. -/
theorem FlxSystem.Shown.step (h : sys.Shown env)
    (hidle : sys.session.bootstrapPending = false)
    (hcov : Covered env sys) (hsteady : e.Steady)
    (hcovers : Covers env sys e) (hfollows : Follows env sys e)
    (hstep : sys.step env e = some sys') :
    sys'.Shown env ∧ sys'.session.bootstrapPending = false := by
  cases e with
  | commit db touched =>
    cases hstep
    obtain ⟨hdb, hnoTab, hconfined, -⟩ := hcovers
    refine ⟨h.grow hcov (grows_commit hcov hdb hnoTab hconfined) ?_, hidle⟩
    intro r hw hf
    exact absurd hw hf
  | upload db writes compensated forced =>
    cases hstep
    obtain ⟨hdb, hnoTab, hcompensated, hforced, hconfined, hsending, -⟩
      := hcovers
    refine ⟨h.grow hcov (grows_upload hcov hdb hnoTab hcompensated
      hforced hconfined hsending) ?_, hidle⟩
    intro r hr hf hstale
    exact (agrees_uploaded hsending hfollows hr hf hstale).1
  | finalize =>
    cases hstep
    rw [foldl_forcedRemoval]
    exact ⟨h, hidle⟩
  | send upTo =>
    rcases send_cases hcov hstep with
      ⟨i, hi, rfl⟩ | ⟨b, hb, -⟩ | ⟨hpending, -⟩
    · obtain ⟨looked, hp⟩ := sentPart hcov hi
      exact ⟨h.sendPart hp hi, hp.idle.1⟩
    · cases (hcov.idle hidle).symm.trans hb
    · cases hidle.symm.trans hpending
  | deliver =>
    obtain ⟨m, hm, rfl⟩ := Option.map_eq_some_iff.1 hstep
    refine ⟨?_, hidle⟩
    show (sys.delivered m).Shown env
    rw [Shown, settled_delivered hm]
    exact h
  | query | reconnect => exact hsteady.elim

end step

end BarqSync.Flx
