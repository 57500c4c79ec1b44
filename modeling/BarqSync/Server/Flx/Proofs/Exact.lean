/-
Once the session has nothing more to send, the client holds of the
objects in its view what the server has: in the incremental mode, and
after QUERY messages on one connection.
-/
import BarqSync.Server.Flx.Proofs.Current

namespace BarqSync.Flx

open FlxSystem

-- ===== the results

/-- The client holds the view of the newest state, each object as the
server has it, and nothing else. -/
def FlxSystem.Exact (env : FlxEnv) (sys : FlxSystem) : Prop :=
  ∀ r, (sys.inView env r = true
      → Agrees (sys.client.objects r) (sys.db.image r))
    ∧ (sys.inView env r = false → sys.client.objects r = none)

/-- A session in the incremental mode that has sent everything. -/
structure FlxSystem.Idle (sys : FlxSystem) : Prop where
  pending : sys.session.bootstrapPending = false
  bootstrap : sys.session.bootstrap = none
  incremental : sys.session.incremental = none
  keyed : Keyed sys.session.visible
  noTab : sys.db.NoTab
  logNoTab : ∀ e ∈ sys.log, ∀ r ∈ e.touched, 9 ∉ r.1
  logVersion : ∀ e ∈ sys.log, e.version ≤ sys.version
  progress : sys.session.downloadProgress = sys.version
  known : sys.known = sys.version
  clientProgress : sys.client.progress ≤ sys.version
  forced : sys.forced = []
  inflight : sys.inflight = []
  buffer : sys.client.buffer = []

section results

variable {env : FlxEnv} {sys start : FlxSystem}

theorem FlxSystem.Shown.exact (h : sys.Shown env) (hcov : Covered env sys)
    (hq : sys.quiescent) : sys.Exact env := by
  obtain ⟨hidle, hstale, hsettled⟩ := hcov.quiescent hq
  intro r
  rw [← hsettled]
  refine ⟨h r (hstale r), fun hview => ?_⟩
  by_contra hheld
  rw [hcov.outside hidle r (hstale r) hheld] at hview
  cases hview

theorem FlxSystem.Idle.settled (h : start.Idle) :
    start.settled = start.client.objects := by
  have harrived : start.arrived = start.client := by
    rw [arrived, h.inflight]
    rfl
  rw [settled_eq_arrived, harrived]
  rw [harrived]
  exact fun _ => h.buffer

theorem FlxSystem.Idle.covered (h : start.Idle)
    (hexact : start.Exact env) : Covered env start := by
  have hview (r : ObjectRef) (hheld : start.settled r ≠ none) :
      start.inView env r = true := by
    by_contra hc
    rw [h.settled] at hheld
    exact hheld ((hexact r).2 (Bool.eq_false_iff.2 hc))
  have hbuffer : start.arrived.buffer = [] := by
    rw [arrived, h.inflight]
    exact h.buffer
  exact
    { h with
      progress := by rw [h.progress, h.known]
      known := le_of_eq h.known
      arriving := by
        rw [h.known, h.inflight]
        exact ⟨h.clientProgress, fun m hm => by cases hm⟩
      forcedTouched := by
        rw [h.forced]
        exact fun r hr => by cases hr
      idle := fun _ => h.bootstrap
      pending := fun _ => h.incremental
      bootstrap := fun b hb => by cases h.bootstrap.symm.trans hb
      incremental := fun i hi => by cases h.incremental.symm.trans hi
      buffered := fun _ _ _ => hbuffer
      covered := fun _ r hheld => .inr (.inl (hview r hheld))
      outside := fun _ r _ hheld => hview r hheld
      shown := fun b hb => by cases h.bootstrap.symm.trans hb }

theorem FlxSystem.Connected.current (h : start.Connected)
    (hzero : start.session.queryVersion = 0 →
      start.session.queries = [] ∧ start.session.visible = ∅) :
    Current env start := by
  obtain ⟨queryVersion, queries, hsession, -⟩ := h.session
  have hdue : start.session.bootstrapPending
      = decide (0 < start.session.queryVersion) := by
    rw [hsession]
    rfl
  have hall : start.session.bootstrapSendAllObjects = true := by
    rw [hsession]
    rfl
  have hnone : start.session.bootstrap = none := by
    rw [hsession]
    rfl
  -- without a bootstrap due there is no query and no record
  have hempty : start.session.bootstrapPending = false →
      start.session.queries = [] ∧ start.session.visible = ∅ := by
    intro hc
    apply hzero
    by_contra hpos
    rw [hdue, decide_eq_true (Nat.pos_of_ne_zero hpos)] at hc
    cases hc
  have hbuffer : start.arrived.buffer = [] := by
    rw [arrived, h.inflight]
    exact h.buffer
  refine ⟨fun hc r _ hview => ?_, fun b hb => ?_, fun hrecord r htr => ?_,
    fun hne => absurd hbuffer hne, fun _ _ _ => hbuffer⟩
  · rw [inView, (hempty hc).1, isVisible_nil] at hview
    cases hview
  · rw [hnone] at hb
    cases hb
  · cases hc : start.session.bootstrapPending with
    | true =>
      rw [hall] at hrecord
      cases hrecord hc
    | false =>
      rw [(hempty hc).2] at htr
      exact absurd htr (not_tracks_empty r)

end results

-- ===== instances

section absent

variable {env : FlxEnv} {db : FlxDb} {queries : FlxQueries}
  {r : ObjectRef}

theorem FlxDb.findObject_of_notMem (h : r ∉ db.objects.map (·.1)) :
    db.findObject r = none := by
  rw [FlxDb.findObject, FlxDb.stored, Option.map_eq_none_iff,
    List.lookup_eq_none_iff]
  intro e he
  rw [bne_iff_ne]
  intro heq
  exact h (List.mem_map.2 ⟨e, he, heq.symm⟩)

/-- What the file does not have is not in the view and is not sent. -/
theorem absent_of_notMem (h : r ∉ db.objects.map (·.1)) :
    env.isVisible db queries r = false ∧ db.image r = none := by
  have hnone := FlxDb.findObject_of_notMem h
  constructor
  · rw [Bool.eq_false_iff]
    intro hview
    obtain ⟨-, -, fields, -, -, hf, -⟩ := FlxEnv.isVisible_iff.1 hview
    rw [hnone] at hf
    cases hf
  · rw [FlxDb.image, hnone]
    cases db.getTable r.1 with
    | none => rfl
    | some table => rfl

end absent

/-- A client in the incremental mode that holds the one object of its
view. -/
def upToDate : FlxSystem where
  db := taskFile [(task 1, taskFields 1 7)]
  version := 1
  log := [⟨1, false, [task 1]⟩]
  known := 1
  session :=
    { queryVersion := 1
      queries := allTasks
      visible := (∅ : VisibleObjects).insert
        (flxVisibleObjectKey (task 1)) (task 1)
      downloadProgress := 1
      oneDownloadMessageSent := true }
  client :=
    { objects := Function.update (fun _ => none) (task 1)
        (some (heldTask 1 7))
      bufferVersion := 1
      progress := 1 }

theorem upToDate_idle : upToDate.Idle where
  pending := rfl
  bootstrap := rfl
  incremental := rfl
  keyed := keyed_empty.insert (by decide)
  noTab := by
    show ∀ t ∈ upToDate.db.tables, 9 ∉ t.1
    decide
  logNoTab := by
    show ∀ e ∈ upToDate.log, ∀ r ∈ e.touched, 9 ∉ r.1
    decide
  logVersion := by
    show ∀ e ∈ upToDate.log, e.version ≤ 1
    decide
  progress := rfl
  known := rfl
  clientProgress := le_refl _
  forced := rfl
  inflight := rfl
  buffer := rfl

theorem upToDate_exact : upToDate.Exact ownerEnv := by
  intro r
  by_cases hr : r = task 1
  · subst hr
    exact ⟨fun _ => agrees_put none _, fun hc => absurd hc (by decide)⟩
  · have hnot : r ∉ upToDate.db.objects.map (·.1) := by
      intro hmem
      exact hr (List.mem_singleton.1 hmem)
    obtain ⟨hview, -⟩ := @absent_of_notMem ownerEnv _
      upToDate.session.queries r hnot
    refine ⟨fun hc => ?_, fun _ => ?_⟩
    · rw [inView, hview] at hc
      cases hc
    · show Function.update (fun _ => none : FlxContent) (task 1) _ r
        = none
      rw [Function.update_of_ne hr]

/-- Another client changes the object of the view. -/
def foreignChange : List FlxEvent :=
  [.commit (taskFile [(task 1, taskFields 1 8)]) [task 1], .finalize,
    .send 2, .deliver]

theorem foreignChange_ok : Sys.ExecOk (FlxSystem.step ownerEnv)
      (fun sys e => e.Steady ∧ Covers ownerEnv sys e
        ∧ Follows ownerEnv sys e) upToDate foreignChange := by
  refine ⟨⟨trivial, ⟨?_, ?_, ?_, ?_⟩, trivial⟩, fun t ht => ?_⟩
  · show ∀ t ∈ (taskFile [(task 1, taskFields 1 8)]).tables, 9 ∉ t.1
    decide
  · decide
  · -- whatever else there may be is in neither file
    intro r hr
    have hold : r ∉ upToDate.db.objects.map (·.1) := hr
    have hnew : r ∉ (taskFile [(task 1, taskFields 1 8)]).objects.map
      (·.1) := hr
    obtain ⟨hview, himage⟩ := @absent_of_notMem ownerEnv _
      upToDate.session.queries r hold
    obtain ⟨hview', himage'⟩ := @absent_of_notMem ownerEnv _
      upToDate.session.queries r hnew
    exact ⟨hview'.trans hview.symm, himage'.trans himage.symm⟩
  · intro _ r hr _
    rw [List.mem_singleton.1 hr]
    exact .inl rfl
  · cases ht
    refine ⟨⟨trivial, .inl rfl, trivial⟩, fun t ht => ?_⟩
    cases ht
    refine ⟨⟨trivial, fun hc => (by cases hc), fun hc => (by cases hc)⟩,
      fun t ht => ?_⟩
    cases ht
    exact ⟨⟨trivial, trivial, trivial⟩, fun t ht => trivial⟩

/-- Queries with conditions ask for task 2. -/
def conditionEnv : FlxEnv :=
  { ownerEnv with evalObject := fun _ _ r => r == task 2 }

/-- The subscription to some of `T`. -/
def someTasks : FlxQueries := [([84], [118])]

/-- The client has received everything and narrows its subscription. -/
def resubscription : List FlxEvent :=
  [.send 1, .send 1, .deliver, .deliver, .query 2 someTasks, .send 1,
    .deliver]

theorem resubscription_ok : Sys.ExecOk (FlxSystem.step conditionEnv)
      (fun sys e => Covers conditionEnv sys e
        ∧ Follows conditionEnv sys e) twoTasks resubscription := by
  obtain ⟨s₁, hexec₁, hbegun⟩ :
      ∃ sys, Sys.exec (step conditionEnv) twoTasks [.send 1] = some sys
        ∧ sys.session.preparesBootstrap = false :=
    Sys.exists_exec (by decide +kernel)
  -- when the QUERY arrives the bootstrap is complete
  obtain ⟨s₂, hexec₂, hincremental, hidle⟩ :
      ∃ sys, Sys.exec (step conditionEnv) twoTasks
          [.send 1, .send 1, .deliver, .deliver] = some sys
        ∧ sys.session.incremental.isNone = true
        ∧ sys.session.bootstrapPending = false :=
    Sys.exists_exec (by decide +kernel)
  -- then the client holds the two tasks, and the record has them
  obtain ⟨s₃, held₁, held₂, hexec₃, hsettled, htr₁, htr₂, htouched⟩ :
      ∃ sys held₁ held₂, Sys.exec (step conditionEnv) twoTasks
          [.send 1, .send 1, .deliver, .deliver, .query 2 someTasks]
          = some sys
        ∧ sys.settled = Function.update (Function.update (fun _ => none)
          (task 1) held₁) (task 2) held₂
        ∧ Tracks sys.session.visible (task 1)
        ∧ Tracks sys.session.visible (task 2)
        ∧ touchedBetween sys.log sys.session.downloadProgress sys.known
          = [] :=
    ⟨_, _, _, rfl, rfl, rfl, rfl, rfl⟩
  refine Sys.ExecOk.append hexec₃ (Sys.ExecOk.append hexec₂
    (Sys.ExecOk.append hexec₁ ⟨?_, fun _ _ => trivial⟩ ⟨?_, fun _ _ =>
      ⟨⟨trivial, trivial⟩, fun _ _ => ⟨⟨trivial, trivial⟩, fun _ _ =>
        trivial⟩⟩⟩) ⟨⟨trivial, ?_⟩, fun _ _ => trivial⟩)
    ⟨?_, fun _ _ => ⟨⟨trivial, trivial⟩, fun _ _ => trivial⟩⟩
  · exact ⟨fun _ r hr => absurd rfl hr, fun _ hc => (by cases hc)⟩
  · constructor <;> intro hc <;> cases hbegun.symm.trans hc
  · refine ⟨Option.isNone_iff_eq_none.1 hincremental, fun hc => ?_⟩
    cases hidle.symm.trans hc
  · refine ⟨fun _ r hr => .inl ?_, fun _ _ r _ _ hmem => ?_⟩
    · by_cases hr₂ : r = task 2
      · rwa [hr₂]
      by_cases hr₁ : r = task 1
      · rwa [hr₁]
      rw [hsettled, Function.update_of_ne hr₂,
        Function.update_of_ne hr₁] at hr
      exact absurd rfl hr
    · rw [htouched] at hmem
      cases hmem

/-- A column that the client and the server have alike. -/
theorem Agrees.column {held : Option FlxHeld} (h : Agrees held image)
    {name : Bytes} {instrs : List FlxInstr}
    (himage : image.bind (·.lookup name) = some instrs) :
    held.bind (· name) = some instrs := by
  obtain ⟨changes, rfl, hlookup⟩ := Option.bind_eq_some_iff.1 himage
  obtain ⟨column, rfl, hcolumn⟩ := h
  exact hcolumn name instrs hlookup

/-- What is sent of the value of a task. -/
def taskValue (n value : Int64) : List FlxInstr :=
  (heldTask n value [118]).getD []

end BarqSync.Flx
