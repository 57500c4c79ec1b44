/-
What a flexible sync session keeps track of, and that the events that
send nothing and write nothing keep it.

# The record

Whatever the client holds outside the view has to be in the session's
record of visible objects, or nothing will ever erase it
(`Covered.covered`). Three things break that: an upload of the client's
own, whose history entries the session never scans; a commit that
changes what is in the view without touching it; and an erasure that was
sent, and taken out of the record, but lost. `Covers` is the condition on
an event that rules them out.

# Stale objects

Between the download progress and the newest version, and in the rest of
a half sent body, are the objects the session will still look at
(`stale`). What is not stale is as it should be (`Covered.outside`).
-/
import BarqSync.Server.Flx.Proofs.Bodies
import BarqSync.Sys.Runs

namespace BarqSync.Flx

open FlxClient FlxContent FlxSession FlxSystem

variable {sys : FlxSystem}

-- ===== history

section history

variable {log : List FlxEntry} {a b c : Nat} {r : ObjectRef}

theorem mem_touchedBetween : r ∈ touchedBetween log a b
      ↔ ∃ e ∈ log, e.own = false ∧ a < e.version ∧ e.version ≤ b
        ∧ r ∈ e.touched := by
  simp only [touchedBetween, List.mem_flatMap, List.mem_filter,
    Bool.and_eq_true, Bool.not_eq_true', decide_eq_true_eq]
  constructor
  · intro ⟨e, ⟨he, ⟨hown, ha⟩, hb⟩, hr⟩
    exact ⟨e, he, hown, ha, hb, hr⟩
  · intro ⟨e, he, hown, ha, hb, hr⟩
    exact ⟨e, ⟨he, ⟨hown, ha⟩, hb⟩, hr⟩

/-- A stretch of the history splits at every version in between. -/
theorem mem_touchedBetween_split (hab : a ≤ b) (hbc : b ≤ c) :
    r ∈ touchedBetween log a c
      ↔ r ∈ touchedBetween log a b ∨ r ∈ touchedBetween log b c := by
  simp only [mem_touchedBetween]
  constructor
  · intro ⟨e, he, hown, ha, hc, hr⟩
    rcases Nat.lt_or_ge b e.version with hb | hb
    · exact .inr ⟨e, he, hown, hb, hc, hr⟩
    · exact .inl ⟨e, he, hown, ha, hb, hr⟩
  · intro h
    rcases h with ⟨e, he, hown, ha, hb, hr⟩ | ⟨e, he, hown, hb, hc, hr⟩
    · exact ⟨e, he, hown, ha, by omega, hr⟩
    · exact ⟨e, he, hown, by omega, hc, hr⟩

/-- New entries add to a stretch that reaches to them. -/
theorem mem_touchedBetween_append {entries : List FlxEntry} {v : Nat}
    (hlog : ∀ e ∈ log, e.version ≤ v) (hvc : v ≤ c)
    (hentries : ∀ e ∈ entries, v < e.version ∧ e.version ≤ c)
    (hav : a ≤ v) :
    r ∈ touchedBetween (log ++ entries) a c
      ↔ r ∈ touchedBetween log a v
        ∨ ∃ e ∈ entries, e.own = false ∧ r ∈ e.touched := by
  simp only [mem_touchedBetween, List.mem_append]
  constructor
  · intro ⟨e, he, hown, ha, hc, hr⟩
    rcases he with he | he
    · exact .inl ⟨e, he, hown, ha, hlog e he, hr⟩
    · exact .inr ⟨e, he, hown, hr⟩
  · intro h
    rcases h with ⟨e, he, hown, ha, hb, hr⟩ | ⟨e, he, hown, hr⟩
    · exact ⟨e, .inl he, hown, ha, by omega, hr⟩
    · have := hentries e he
      exact ⟨e, .inr he, hown, by omega, by omega, hr⟩

end history

-- ===== the session

/-- What is left of the incremental body in progress. -/
def FlxSession.remaining (s : FlxSession) : List ObjectRef :=
  s.incremental.elim [] fun i => i.objects.map (·.2)

/-- The session will still look at the object. -/
def FlxSystem.stale (sys : FlxSystem) (r : ObjectRef) : Prop :=
  r ∈ touchedBetween sys.log sys.session.downloadProgress sys.version
    ∨ r ∈ sys.session.remaining

/-- The session's record has the object, or will have it when the
bootstrap in progress is complete, or the bootstrap will erase it. -/
def FlxSystem.tracks (sys : FlxSystem) (r : ObjectRef) : Prop :=
  sys.session.bootstrap.elim (Tracks sys.session.visible r) fun b =>
    Tracks b.finalVisibleObjects r ∨ r ∈ b.removals

/-- No bootstrap is due that has not begun. -/
def FlxSystem.underway (sys : FlxSystem) : Prop :=
  sys.session.bootstrapPending = true
    → sys.session.bootstrap.isSome = true

/-- The object is in a message underway, in a part that waits at the
client, or in what is left of a body or bootstrap. -/
def FlxSystem.sending (sys : FlxSystem) (r : ObjectRef) : Prop :=
  (∃ m ∈ sys.inflight, r ∈ m.body.map FlxChange.ref)
    ∨ r ∈ sys.client.buffer.map FlxChange.ref
    ∨ r ∈ sys.session.remaining
    ∨ ∃ b, sys.session.bootstrap = some b ∧ (r ∈ b.objects ∨ r ∈ b.removals)

-- ===== the conditions

/-- A commit changes neither the visibility nor the image of an object it
does not touch, whether or not the session would send that object. -/
def FlxSystem.Confined (env : FlxEnv) (sys : FlxSystem) (db : FlxDb)
    (touched : List ObjectRef) : Prop :=
  ∀ r, r ∉ touched →
    env.isVisible db sys.session.queries r = sys.inView env r
      ∧ db.image r = sys.db.image r

/-- The condition under which what the client holds outside its view
stays recorded. -/
def Covers (env : FlxEnv) (sys : FlxSystem) : FlxEvent → Prop
  | .commit db touched =>
    db.NoTab ∧ (∀ r ∈ touched, 9 ∉ r.1) ∧ sys.Confined env db touched
      ∧ (sys.underway → ∀ r ∈ touched, sys.settled r ≠ none →
        sys.tracks r ∨ env.isVisible db sys.session.queries r = true
          ∨ r ∈ sys.forced)
  | .upload db writes compensated forced =>
    db.NoTab ∧ (∀ w ∈ writes, 9 ∉ w.1.1)
      ∧ (∀ r ∈ compensated, r ∈ writes.map (·.1))
      ∧ (∀ r ∈ forced, r ∈ compensated)
      ∧ sys.Confined env db (writes.map (·.1))
      ∧ (∀ w ∈ writes, ¬ sys.sending w.1)
      ∧ (sys.underway → ∀ w ∈ writes,
        sys.client.objects.write writes w.1 ≠ none →
          env.isVisible db sys.session.queries w.1 = true
            ∨ w.1 ∈ forced
            ∨ sys.tracks w.1 ∧ (w.1 ∈ compensated ∨ w.1 ∈ touchedBetween
              sys.log sys.session.downloadProgress sys.version))
  | .finalize => sys.forced = [] ∨ sys.session.bootstrap = none
  | .send _ => sys.session.preparesBootstrap = true →
      ∀ r, sys.settled r ≠ none →
        Tracks sys.session.visible r ∨ sys.inView env r = true
          ∨ r ∈ sys.forced
  | .deliver => True
  | .query _ _ => True
  | .reconnect _ queryVersion _ => 0 < queryVersion
      ∨ sys.client.buffer = [] ∧ ∀ r, sys.client.objects r = none

-- ===== the invariant

/-- A bootstrap in progress: all of it is by its snapshot. -/
structure BootstrapOk (env : FlxEnv) (sys : FlxSystem)
    (b : FlxBootstrapState) : Prop where
  version : b.serverVersion = sys.session.downloadProgress
  keyed : Keyed b.finalVisibleObjects
  final : ∀ r, Tracks b.finalVisibleObjects r
    ↔ env.isVisible b.snapshot sys.session.queries r = true
  objects : ∀ r ∈ b.objects,
    env.isVisible b.snapshot sys.session.queries r = true
  removals : ∀ r ∈ b.removals,
    env.isVisible b.snapshot sys.session.queries r = false

/-- An incremental body in progress: its snapshot shows an object as the
newest one does, unless that was touched since. -/
structure IncrementalOk (env : FlxEnv) (sys : FlxSystem)
    (i : FlxIncrementalState) : Prop where
  touched : TouchedList i.objects
  version : i.serverVersion ≤ sys.known
  same : ∀ r ∈ i.objects.map (·.2),
    r ∉ touchedBetween sys.log i.serverVersion sys.version →
      env.isVisible i.snapshot sys.session.queries r = sys.inView env r
        ∧ i.snapshot.image r = sys.db.image r

/-- What holds between the session, the history and the client. -/
structure Covered (env : FlxEnv) (sys : FlxSystem) : Prop where
  keyed : Keyed sys.session.visible
  noTab : sys.db.NoTab
  logNoTab : ∀ e ∈ sys.log, ∀ r ∈ e.touched, 9 ∉ r.1
  logVersion : ∀ e ∈ sys.log, e.version ≤ sys.version
  progress : sys.session.downloadProgress ≤ sys.known
  known : sys.known ≤ sys.version
  arriving : sys.client.progress ≤ sys.known
    ∧ ∀ m ∈ sys.inflight, m.serverVersion ≤ sys.known
  forcedTouched : ∀ r ∈ sys.forced, 9 ∉ r.1
    ∧ r ∈ touchedBetween sys.log sys.known sys.version
  idle : sys.session.bootstrapPending = false
    → sys.session.bootstrap = none
  pending : sys.session.bootstrapPending = true
    → sys.session.incremental = none
  bootstrap : ∀ b, sys.session.bootstrap = some b → BootstrapOk env sys b
  incremental : ∀ i, sys.session.incremental = some i →
    IncrementalOk env sys i ∧ i.emittedMoreToCome = true
      ∧ i.serverVersion = sys.session.downloadProgress
  buffered : sys.session.bootstrapPending = false
    → sys.session.incremental = none
    → sys.arrived.bufferVersion = sys.session.queryVersion
    → sys.arrived.buffer = []
  covered : sys.underway → ∀ r, sys.settled r ≠ none →
    sys.tracks r ∨ sys.inView env r = true ∨ r ∈ sys.forced
  outside : sys.session.bootstrapPending = false → ∀ r, ¬ sys.stale r
    → sys.settled r ≠ none → sys.inView env r = true
  shown : ∀ b, sys.session.bootstrap = some b → ∀ r, ¬ sys.stale r →
    (r ∈ b.objects → sys.inView env r = true)
      ∧ (sys.settled r ≠ none
        → sys.inView env r = true ∨ r ∈ b.removals)

-- ===== the messages

section receive

variable {c : FlxClient} {m : FlxDownload} {ms : List FlxDownload}
  {r : ObjectRef} {c' : FlxClient}

/-- The stored cursor is the client's or the message's. -/
theorem FlxClient.receive_progress {v : Nat} (hc : c.progress ≤ v)
    (hm : m.serverVersion ≤ v) : (c.receive m).progress ≤ v := by
  rw [receive]
  cases m.batchState with
  | steadyState => exact hm
  | moreToCome => exact hc
  | lastInBatch => exact hm

section

variable (hbuffer : c'.buffer = c.buffer) (hversion : c'.bufferVersion =
  c.bufferVersion)

include hbuffer hversion

/-- What a message does to the buffer does not depend on what the client
holds, and what it does to an object depends on that object only. -/
theorem FlxClient.receive_congr :
    (c'.receive m).buffer = (c.receive m).buffer
      ∧ (c'.receive m).bufferVersion = (c.receive m).bufferVersion
      ∧ ∀ r, c'.objects r = c.objects r
        → (c'.receive m).objects r = (c.receive m).objects r := by
  have hbatch : c'.batch m = c.batch m := by
    rw [batch, batch, stored, stored, hbuffer, hversion]
  simp only [receive, hbatch]
  cases m.batchState with
  | steadyState =>
    exact ⟨hbuffer, hversion, fun r h => applyBody_congr h⟩
  | moreToCome => exact ⟨rfl, rfl, fun r h => h⟩
  | lastInBatch =>
    exact ⟨rfl, rfl, fun r h => applyBody_congr h⟩

theorem FlxClient.arrive_congr : (ms.foldl FlxClient.receive c').buffer
        = (ms.foldl FlxClient.receive c).buffer
      ∧ (ms.foldl FlxClient.receive c').bufferVersion
        = (ms.foldl FlxClient.receive c).bufferVersion
      ∧ ∀ r, c'.objects r = c.objects r
        → (ms.foldl FlxClient.receive c').objects r
          = (ms.foldl FlxClient.receive c).objects r := by
  induction ms generalizing c c' with
  | nil => exact ⟨hbuffer, hversion, fun r h => h⟩
  | cons m ms ih =>
    obtain ⟨hb, hv, ho⟩ := receive_congr hbuffer hversion
    obtain ⟨hb', hv', ho'⟩ := ih hb hv
    exact ⟨hb', hv', fun r h => ho' r (ho r h)⟩

end

theorem FlxClient.batch_notMem (hbuffer : r ∉ c.buffer.map FlxChange.ref)
    (hm : r ∉ m.body.map FlxChange.ref) :
    r ∉ (c.batch m).map FlxChange.ref := by
  rw [batch, stored, List.map_append, List.mem_append, not_or]
  refine ⟨?_, hm⟩
  by_cases h : c.bufferVersion = m.queryVersion
  · rwa [if_pos h]
  · rw [if_neg h]
    simp

/-- Messages and waiting parts without an object leave it alone. -/
theorem FlxClient.arrive_of_notMem
    (hbuffer : r ∉ c.buffer.map FlxChange.ref)
    (hms : ∀ m ∈ ms, r ∉ m.body.map FlxChange.ref) :
    (ms.foldl FlxClient.receive c).objects r = c.objects r
      ∧ r ∉ (ms.foldl FlxClient.receive c).buffer.map FlxChange.ref := by
  induction ms generalizing c with
  | nil => exact ⟨rfl, hbuffer⟩
  | cons m ms ih =>
    have hm := hms m List.mem_cons_self
    have hbatch := batch_notMem hbuffer hm
    have hone : (c.receive m).objects r = c.objects r
        ∧ r ∉ (c.receive m).buffer.map FlxChange.ref := by
      rw [receive]
      cases m.batchState with
      | steadyState =>
        exact ⟨applyBody_of_notMem hm, hbuffer⟩
      | moreToCome => exact ⟨rfl, hbatch⟩
      | lastInBatch =>
        exact ⟨applyBody_of_notMem hbatch, by simp⟩
    obtain ⟨hrest, hbuffer'⟩ :=
      ih hone.2 (fun m' hm' => hms m' (List.mem_cons_of_mem _ hm'))
    exact ⟨hrest.trans hone.1, hbuffer'⟩

end receive

/-- What will be held of an object follows from what has arrived. -/
theorem FlxSystem.settled_congr {sys' : FlxSystem} {r : ObjectRef}
    (hquery : sys'.session.queryVersion = sys.session.queryVersion)
    (hbuffer : sys'.arrived.buffer = sys.arrived.buffer)
    (hversion : sys'.arrived.bufferVersion = sys.arrived.bufferVersion)
    (hobjects : sys'.arrived.objects r = sys.arrived.objects r) :
    sys'.settled r = sys.settled r := by
  simp only [settled, stored, hquery, hversion, hbuffer]
  exact applyBody_congr hobjects

/-- Nothing waits at the client that belongs to no batch in progress. -/
theorem FlxSystem.settled_eq_arrived
    (h : sys.arrived.bufferVersion = sys.session.queryVersion
      → sys.arrived.buffer = []) :
    sys.settled = sys.arrived.objects := by
  rw [settled, stored, ite_eq_right_iff.2 h]
  rfl

-- ===== the events

section events

variable {env : FlxEnv} {sys : FlxSystem} {queryVersion : Nat}
  {m : FlxDownload}

/-- The first message underway arrives. -/
def FlxSystem.delivered (sys : FlxSystem) (m : FlxDownload) : FlxSystem :=
  { sys with
    inflight := sys.inflight.tail
    client := sys.client.receive m }

theorem arrived_delivered (hm : sys.inflight.head? = some m) :
    (sys.delivered m).arrived = sys.arrived := by
  obtain ⟨rest, hrest⟩ := List.head?_eq_some_iff.1 hm
  simp only [arrived, delivered, hrest, List.tail_cons, List.foldl_cons]

theorem settled_delivered (hm : sys.inflight.head? = some m) :
    (sys.delivered m).settled = sys.settled := by
  rw [settled, settled, arrived_delivered hm]
  rfl

theorem Covered.deliver (h : Covered env sys)
    (hm : sys.inflight.head? = some m) : Covered env (sys.delivered m) :=
  { h with
    arriving := by
      refine ⟨receive_progress h.arriving.1 ?_,
        fun m' hm' => h.arriving.2 m' (List.mem_of_mem_tail hm')⟩
      exact h.arriving.2 m (List.mem_of_mem_head? hm)
    bootstrap := fun b hb => { h.bootstrap b hb with }
    incremental := fun i hi =>
      ⟨{ (h.incremental i hi).1 with }, (h.incremental i hi).2⟩
    buffered := by
      rw [arrived_delivered hm]
      exact h.buffered
    covered := by
      rw [settled_delivered hm]
      exact h.covered
    outside := by
      rw [settled_delivered hm]
      exact h.outside
    shown := by
      rw [settled_delivered hm]
      exact h.shown }

/-- A QUERY message with a new version: what is sent of the old query's
batch will be dropped, and the new one's bootstrap is due. -/
theorem Covered.query (h : Covered env sys)
    (hversion : sys.session.queryVersion < queryVersion)
    (queries : FlxQueries) :
    Covered env { sys with
      session := sys.session.receiveQuery queryVersion queries } := by
  have hpositive : 0 < queryVersion := by omega
  have hdue : (sys.session.receiveQuery queryVersion
      queries).bootstrapPending = true := decide_eq_true hpositive
  exact
    { h with
      idle := fun _ => rfl
      pending := fun _ => rfl
      bootstrap := fun b hb => by cases hb
      incremental := fun i hi => by cases hi
      buffered := fun hp => by cases hdue.symm.trans hp
      covered := fun hu => by cases hu hdue
      outside := fun hp => by cases hdue.symm.trans hp
      shown := fun b hb => by cases hb }

/-- A new connection: the messages underway are lost, and the bootstrap
of the query the client comes with is due. -/
def FlxSystem.reconnected (sys : FlxSystem) (restarted : Bool)
    (queryVersion : Nat) (queries : FlxQueries) : FlxSystem :=
  { sys with
    session := FlxSession.receiveIdent sys.session.visible
      sys.client.progress queryVersion queries
    inflight := []
    client := { sys.client with
      buffer := if restarted then [] else sys.client.buffer } }

theorem Covered.reconnect (h : Covered env sys) {restarted : Bool}
    (hversion : 0 < queryVersion
      ∨ sys.client.buffer = [] ∧ ∀ r, sys.client.objects r = none)
    (queries : FlxQueries) :
    Covered env (sys.reconnected restarted queryVersion queries) := by
  have hdue : (sys.reconnected restarted queryVersion
      queries).session.bootstrapPending = decide (0 < queryVersion) := rfl
  -- without a bootstrap due the client has nothing, stored or integrated
  have hnothing : ¬ 0 < queryVersion →
      (sys.reconnected restarted queryVersion queries).arrived.buffer = []
        ∧ ∀ r, (sys.reconnected restarted queryVersion queries).settled r
          = none := by
    intro hzero
    obtain ⟨hbuffer, hobjects⟩ := hversion.resolve_left hzero
    have hempty : (sys.reconnected restarted queryVersion
        queries).arrived.buffer = [] := by
      show (if restarted then [] else sys.client.buffer) = []
      rw [hbuffer, ite_self]
    refine ⟨hempty, fun r => ?_⟩
    rw [settled_eq_arrived fun _ => hempty]
    exact hobjects r
  have hzero (hp : (sys.reconnected restarted queryVersion
      queries).session.bootstrapPending = false) : ¬ 0 < queryVersion :=
    of_decide_eq_false (hdue.symm.trans hp)
  exact
    { h with
      progress := h.arriving.1
      arriving := ⟨h.arriving.1, fun m hm => by cases hm⟩
      idle := fun _ => rfl
      pending := fun _ => rfl
      bootstrap := fun b hb => by cases hb
      incremental := fun i hi => by cases hi
      buffered := fun hp _ _ => (hnothing (hzero hp)).1
      covered := by
        intro hu r hr
        by_cases hpos : 0 < queryVersion
        · cases hu (hdue.trans (decide_eq_true hpos))
        · exact absurd ((hnothing hpos).2 r) hr
      outside := fun hp r _ hr => absurd ((hnothing (hzero hp)).2 r) hr
      shown := fun b hb => by cases hb }

/-- The worker's result becomes known, and what it removed by force is
recorded. -/
theorem Covered.finalize (h : Covered env sys)
    (hforced : sys.forced = [] ∨ sys.session.bootstrap = none) :
    Covered env { sys with
      known := sys.version
      session := sys.forced.foldl FlxSession.forcedRemoval sys.session
      forced := [] } := by
  rw [foldl_forcedRemoval]
  obtain ⟨hkeyed, htracks⟩ := foldl_insert_spec
    (fun r hr => (h.forcedTouched r hr).1) sys.session.visible h.keyed
  have hprogress := h.progress
  have hknown := h.known
  exact
    { h with
      keyed := hkeyed
      progress := hprogress.trans hknown
      known := le_refl _
      arriving := ⟨h.arriving.1.trans hknown,
        fun m hm => (h.arriving.2 m hm).trans hknown⟩
      forcedTouched := fun r hr => by cases hr
      bootstrap := fun b hb => { h.bootstrap b hb with }
      incremental := fun i hi =>
        let ⟨⟨h1, h2, h3⟩, h4⟩ := h.incremental i hi
        ⟨⟨h1, h2.trans hknown, h3⟩, h4⟩
      covered := by
        intro hu r hr
        rcases h.covered hu r hr with htr | hview | hr
        · refine .inl ?_
          rw [tracks] at htr ⊢
          show sys.session.bootstrap.elim (Tracks _ r) _
          cases hb : sys.session.bootstrap with
          | none =>
            rw [hb] at htr
            exact (htracks r).2 (.inl htr)
          | some b =>
            rw [hb] at htr
            exact htr
        · exact .inr (.inl hview)
        · -- only without a bootstrap in progress may there be forced
          -- removals
          refine .inl ?_
          have hnone := hforced.resolve_left (List.ne_nil_of_mem hr)
          rw [tracks]
          show sys.session.bootstrap.elim (Tracks _ r) _
          rw [hnone]
          exact (htracks r).2 (.inr hr) }

end events

end BarqSync.Flx
