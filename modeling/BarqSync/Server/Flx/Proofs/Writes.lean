/-
Commits of other clients and uploads of the session's own keep what the
session keeps track of (`Covered.commit`, `Covered.upload`).

Both are the history growing (`Grows`). What a foreign entry touches
becomes stale; what only the client's own entry touches does not, so an
upload has to leave it as it should be.
-/
import BarqSync.Server.Flx.Proofs.Covered

namespace BarqSync.Flx

open FlxClient FlxContent FlxSession FlxSystem

-- ===== the history grows

/-- The history grows: `written` are the objects the new entries touch,
`foreign` those touched by entries of other origins. -/
structure Grows (env : FlxEnv) (sys sys' : FlxSystem)
    (written foreign : ObjectRef → Prop) : Prop where
  session : sys'.session = sys.session
  known : sys'.known = sys.known
  version : sys.version ≤ sys'.version
  noTab : sys'.db.NoTab
  logNoTab : ∀ e ∈ sys'.log, ∀ r ∈ e.touched, 9 ∉ r.1
  logVersion : ∀ e ∈ sys'.log, e.version ≤ sys'.version
  touched : ∀ a ≤ sys.version, ∀ r,
    r ∈ touchedBetween sys'.log a sys'.version
      ↔ r ∈ touchedBetween sys.log a sys.version ∨ foreign r
  foreignWritten : ∀ r, foreign r → written r
  confined : ∀ r, ¬ written r → sys'.inView env r = sys.inView env r
    ∧ sys'.db.image r = sys.db.image r
  forced : ∀ r ∈ sys'.forced, r ∈ sys.forced ∨ foreign r ∧ 9 ∉ r.1
  forcedStay : ∀ r ∈ sys.forced, r ∈ sys'.forced
  inflight : sys'.inflight = sys.inflight
  clientProgress : sys'.client.progress = sys.client.progress
  buffer : sys'.arrived.buffer = sys.arrived.buffer
  bufferVersion : sys'.arrived.bufferVersion = sys.arrived.bufferVersion
  settled : ∀ r, ¬ written r → sys'.settled r = sys.settled r
    ∧ sys'.arrived.objects r = sys.arrived.objects r
  sending : ∀ r, written r → ¬ foreign r → ¬ sys.sending r

section grows

variable {env : FlxEnv} {sys sys' : FlxSystem}
  {written foreign : ObjectRef → Prop}

section

variable (g : Grows env sys sys' written foreign)

include g

/-- What other origins touch becomes stale. -/
theorem Grows.stale (h : Covered env sys) (r : ObjectRef) :
    sys'.stale r ↔ sys.stale r ∨ foreign r := by
  have hle : sys.session.downloadProgress ≤ sys.version :=
    h.progress.trans h.known
  rw [FlxSystem.stale, FlxSystem.stale, g.session, g.touched _ hle]
  tauto

theorem Grows.tracks (r : ObjectRef) : sys'.tracks r ↔ sys.tracks r := by
  rw [FlxSystem.tracks, FlxSystem.tracks, g.session]

theorem Grows.underway : sys'.underway ↔ sys.underway := by
  rw [FlxSystem.underway, FlxSystem.underway, g.session]

/-- An incremental body in progress is not affected. -/
theorem Grows.incrementalOk (h : Covered env sys) {i : FlxIncrementalState}
    (hi : sys.session.incremental = some i)
    (hok : IncrementalOk env sys i) : IncrementalOk env sys' i := by
  refine ⟨hok.touched, by rw [g.known]; exact hok.version, ?_⟩
  intro r hr hnot
  have hle := hok.version.trans h.known
  rw [g.touched _ hle, not_or] at hnot
  -- the object is in the rest of the body, so no upload wrote it
  have hwritten : ¬ written r := by
    intro hw
    refine g.sending r hw hnot.2 (.inr (.inr (.inl ?_)))
    rw [remaining, hi]
    exact hr
  obtain ⟨hview, himage⟩ := g.confined r hwritten
  rw [g.session, hview, himage]
  exact hok.same r hr hnot.1

end

theorem Covered.grow (h : Covered env sys)
    (g : Grows env sys sys' written foreign)
    (hcovered : sys.underway → ∀ r, written r → sys'.settled r ≠ none →
      sys.tracks r ∨ sys'.inView env r = true ∨ r ∈ sys'.forced)
    (houtside : sys.underway → ∀ r, written r → ¬ foreign r →
      ¬ sys.stale r → sys'.settled r ≠ none → sys'.inView env r = true) :
    Covered env sys' := by
  -- an object that is not stale was not stale before
  have hstale (r : ObjectRef) (hr : ¬ sys'.stale r) :
      ¬ sys.stale r ∧ ¬ foreign r := by
    rw [g.stale h r, not_or] at hr
    exact hr
  exact
    { keyed := g.session ▸ h.keyed
      noTab := g.noTab
      logNoTab := g.logNoTab
      logVersion := g.logVersion
      progress := by
        rw [g.session, g.known]
        exact h.progress
      known := by
        rw [g.known]
        exact h.known.trans g.version
      arriving := by
        rw [g.clientProgress, g.known, g.inflight]
        exact h.arriving
      forcedTouched := by
        intro r hr
        rw [g.known, g.touched _ h.known]
        rcases g.forced r hr with hr | hr
        · obtain ⟨hnoTab, htouched⟩ := h.forcedTouched r hr
          exact ⟨hnoTab, .inl htouched⟩
        · exact ⟨hr.2, .inr hr.1⟩
      idle := g.session ▸ h.idle
      pending := g.session ▸ h.pending
      bootstrap := by
        rw [g.session]
        intro b hb
        obtain ⟨h1, h2, h3, h4, h5⟩ := h.bootstrap b hb
        refine ⟨?_, h2, ?_, ?_, ?_⟩ <;> rw [g.session] <;> assumption
      incremental := by
        rw [g.session]
        intro i hi
        obtain ⟨hok, hmore, hversion⟩ := h.incremental i hi
        exact ⟨g.incrementalOk h hi hok, hmore, hversion⟩
      buffered := by
        rw [g.session, g.buffer, g.bufferVersion]
        exact h.buffered
      covered := by
        intro hu r hr
        have hu := g.underway.1 hu
        rw [g.tracks]
        by_cases hw : written r
        · exact hcovered hu r hw hr
        · rw [(g.settled r hw).1] at hr
          rw [(g.confined r hw).1]
          rcases h.covered hu r hr with htr | hview | hforced
          · exact .inl htr
          · exact .inr (.inl hview)
          · exact .inr (.inr (g.forcedStay r hforced))
      outside := by
        rw [g.session]
        intro hp r hr hheld
        obtain ⟨hstale', hforeign⟩ := hstale r hr
        by_cases hw : written r
        · refine houtside ?_ r hw hforeign hstale' hheld
          exact fun hpending => by cases hp.symm.trans hpending
        · rw [(g.settled r hw).1] at hheld
          rw [(g.confined r hw).1]
          exact h.outside hp r hstale' hheld
      shown := by
        rw [g.session]
        intro b hb r hr
        obtain ⟨hstale', hforeign⟩ := hstale r hr
        have hu : sys.underway := by
          intro _
          rw [hb]
          rfl
        by_cases hw : written r
        · refine ⟨fun hmem => ?_,
            fun hheld => .inl (houtside hu r hw hforeign hstale' hheld)⟩
          exact absurd (.inr (.inr (.inr ⟨b, hb, .inl hmem⟩)))
            (g.sending r hw hforeign)
        · rw [(g.settled r hw).1, (g.confined r hw).1]
          exact h.shown b hb r hstale' }

end grows

section writes

variable {env : FlxEnv} {sys : FlxSystem} {db : FlxDb}
  {compensated forced touched : List ObjectRef}
  {writes : List (ObjectRef × Option FlxHeld)} {r : ObjectRef}

/-- Another client's changeset is committed. -/
def FlxSystem.committed (sys : FlxSystem) (db : FlxDb)
    (touched : List ObjectRef) : FlxSystem :=
  { sys with
    db := db
    version := sys.version + 1
    log := sys.log ++ [⟨sys.version + 1, false, touched⟩] }

theorem grows_commit (h : Covered env sys) (hdb : db.NoTab)
    (hnoTab : ∀ r ∈ touched, 9 ∉ r.1)
    (hconfined : sys.Confined env db touched) :
    Grows env sys (sys.committed db touched) (· ∈ touched)
      (· ∈ touched) where
  session := rfl
  known := rfl
  version := by
    show sys.version ≤ sys.version + 1
    omega
  noTab := hdb
  logNoTab := List.forall_mem_append.2
    ⟨h.logNoTab, List.forall_mem_singleton.2 hnoTab⟩
  logVersion := List.forall_mem_append.2
    ⟨fun e he => (h.logVersion e he).trans (Nat.le_succ _),
      List.forall_mem_singleton.2 le_rfl⟩
  touched a ha r := by
    refine (mem_touchedBetween_append h.logVersion
      (by omega : sys.version ≤ sys.version + 1) ?_ ha).trans ?_
    · intro e he
      cases List.mem_singleton.1 he
      exact ⟨Nat.lt_succ_self _, le_refl _⟩
    · simp
  foreignWritten _ hr := hr
  confined r hr := hconfined r hr
  forced r hr := .inl hr
  forcedStay _ hr := hr
  inflight := rfl
  clientProgress := rfl
  buffer := rfl
  bufferVersion := rfl
  settled _ _ := ⟨rfl, rfl⟩
  sending r hw hf := absurd hw hf

theorem FlxContent.write_of_notMem (c : FlxContent)
    (hr : r ∉ writes.map (·.1)) : c.write writes r = c r := by
  induction writes generalizing c with
  | nil => rfl
  | cons w writes ih =>
    rw [List.map_cons, List.mem_cons, not_or] at hr
    exact (ih _ hr.2).trans (Function.update_of_ne hr.1 _ _)

/-- The client's own changeset is committed, and perhaps undone in
part. -/
def FlxSystem.uploaded (sys : FlxSystem) (db : FlxDb)
    (writes : List (ObjectRef × Option FlxHeld))
    (compensated forced : List ObjectRef) : FlxSystem :=
  { sys with
    db := db
    version := sys.version
      + (uploadEntries sys.version (writes.map (·.1)) compensated).length
    log := sys.log
      ++ uploadEntries sys.version (writes.map (·.1)) compensated
    forced := sys.forced ++ forced
    client := { sys.client with
      objects := sys.client.objects.write writes } }

/-- The entries of an upload follow the newest version, and the
compensating write's is the only one of another origin. -/
theorem mem_uploadEntries {version : Nat} {e : FlxEntry}
    (he : e ∈ uploadEntries version touched compensated) :
    version < e.version
      ∧ e.version
        ≤ version + (uploadEntries version touched compensated).length
      ∧ (e.own = true ∧ e.touched = touched
        ∨ e.own = false ∧ e.touched = compensated) := by
  rw [uploadEntries] at he ⊢
  by_cases hc : compensated = []
  · rw [if_pos hc] at he ⊢
    cases List.mem_singleton.1 he
    exact ⟨Nat.lt_succ_self _, le_refl _, .inl ⟨rfl, rfl⟩⟩
  · rw [if_neg hc] at he ⊢
    rcases List.mem_pair.1 he with rfl | rfl
    · exact ⟨by simp, by simp, .inl ⟨rfl, rfl⟩⟩
    · exact ⟨by simp, by simp, .inr ⟨rfl, rfl⟩⟩

/-- What an upload leaves the client with of an object that nothing sent
so far is about. -/
theorem settled_uploaded (hr : ¬ sys.sending r) :
    (sys.uploaded db writes compensated forced).settled r
        = sys.client.objects.write writes r
      ∧ (sys.uploaded db writes compensated forced).arrived.objects r
        = sys.client.objects.write writes r := by
  simp only [sending, not_or, not_exists, not_and] at hr
  obtain ⟨hobjects, hbuffer⟩ := @arrive_of_notMem
    { sys.client with
      objects := sys.client.objects.write writes } sys.inflight r
    hr.2.1 hr.1
  refine ⟨?_, hobjects⟩
  rw [settled, stored]
  split
  · exact (applyBody_of_notMem hbuffer).trans hobjects
  · exact hobjects

theorem grows_upload (h : Covered env sys) (hdb : db.NoTab)
    (hnoTab : ∀ w ∈ writes, 9 ∉ w.1.1)
    (hcompensated : ∀ r ∈ compensated, r ∈ writes.map (·.1))
    (hforced : ∀ r ∈ forced, r ∈ compensated)
    (hconfined : sys.Confined env db (writes.map (·.1)))
    (hsending : ∀ w ∈ writes, ¬ sys.sending w.1) :
    Grows env sys (sys.uploaded db writes compensated forced)
      (· ∈ writes.map (·.1)) (· ∈ compensated) := by
  have hwrites : ∀ r ∈ writes.map (·.1), 9 ∉ r.1 := by
    intro r hr
    obtain ⟨w, hw, rfl⟩ := List.mem_map.1 hr
    exact hnoTab w hw
  obtain ⟨hbuffer, hversion, hobjects⟩ := @arrive_congr
    sys.client sys.inflight
    { sys.client with
      objects := sys.client.objects.write writes } rfl rfl
  exact
    { session := rfl
      known := rfl
      version := Nat.le_add_right _ _
      noTab := hdb
      logNoTab := by
        refine List.forall_mem_append.2 ⟨h.logNoTab, fun e he => ?_⟩
        obtain ⟨-, -, ⟨-, heq⟩ | ⟨-, heq⟩⟩ := mem_uploadEntries he
        · rw [heq]
          exact hwrites
        · rw [heq]
          exact fun r hr => hwrites r (hcompensated r hr)
      logVersion := List.forall_mem_append.2
        ⟨fun e he => (h.logVersion e he).trans (Nat.le_add_right _ _),
          fun e he => (mem_uploadEntries he).2.1⟩
      touched := by
        intro a ha r
        refine (mem_touchedBetween_append h.logVersion
          (Nat.le_add_right _ _) (fun e he => ?_) ha).trans ?_
        · obtain ⟨hlt, hle, -⟩ := mem_uploadEntries he
          exact ⟨hlt, hle⟩
        · refine or_congr_right ?_
          constructor
          · intro ⟨e, he, hown, hr⟩
            obtain ⟨-, -, ⟨hown', -⟩ | ⟨-, heq⟩⟩ := mem_uploadEntries he
            · rw [hown] at hown'
              cases hown'
            · rwa [heq] at hr
          · intro hr
            refine ⟨⟨sys.version + 2, false, compensated⟩, ?_, rfl, hr⟩
            rw [uploadEntries, if_neg (List.ne_nil_of_mem hr)]
            exact List.mem_cons_of_mem _ List.mem_cons_self
      foreignWritten := hcompensated
      confined := fun r hr => hconfined r hr
      forced := by
        intro r hr
        rcases List.mem_append.1 hr with hr | hr
        · exact .inl hr
        · exact .inr ⟨hforced r hr,
            hwrites r (hcompensated r (hforced r hr))⟩
      forcedStay := fun r hr => List.mem_append_left _ hr
      inflight := rfl
      clientProgress := rfl
      buffer := hbuffer
      bufferVersion := hversion
      settled := fun r hr =>
        have hsame := hobjects r (sys.client.objects.write_of_notMem hr)
        ⟨settled_congr rfl hbuffer hversion hsame, hsame⟩
      sending := by
        intro r hr _
        obtain ⟨w, hw, rfl⟩ := List.mem_map.1 hr
        exact hsending w hw }

theorem Covered.commit (h : Covered env sys)
    (hok : Covers env sys (.commit db touched)) :
    Covered env (sys.committed db touched) := by
  obtain ⟨hdb, hnoTab, hconfined, hcovers⟩ := hok
  refine h.grow (grows_commit h hdb hnoTab hconfined) hcovers ?_
  intro _ r hw hf
  exact absurd hw hf

theorem Covered.upload (h : Covered env sys)
    (hok : Covers env sys (.upload db writes compensated forced)) :
    Covered env (sys.uploaded db writes compensated forced) := by
  obtain ⟨hdb, hnoTab, hcompensated, hforced, hconfined, hsending,
    hcovers⟩ := hok
  -- what the client is left with of an object it wrote
  have hwrote (hu : sys.underway) (r : ObjectRef)
      (hr : r ∈ writes.map (·.1))
      (hheld : (sys.uploaded db writes compensated forced).settled r
        ≠ none) :
      env.isVisible db sys.session.queries r = true ∨ r ∈ forced
        ∨ sys.tracks r ∧ (r ∈ compensated ∨ r ∈ touchedBetween sys.log
          sys.session.downloadProgress sys.version) := by
    obtain ⟨w, hw, rfl⟩ := List.mem_map.1 hr
    rw [(settled_uploaded (hsending w hw)).1] at hheld
    exact hcovers hu w hw hheld
  refine h.grow (grows_upload h hdb hnoTab hcompensated hforced hconfined
    hsending) ?_ ?_
  · intro hu r hr hheld
    rcases hwrote hu r hr hheld with hview | hr | hr
    · exact .inr (.inl hview)
    · exact .inr (.inr (List.mem_append_right _ hr))
    · exact .inl hr.1
  · intro hu r hr hf hstale hheld
    rcases hwrote hu r hr hheld with hview | hr | hr
    · exact hview
    · exact absurd (hforced r hr) hf
    · rcases hr.2 with hr | hr
      · exact absurd hr hf
      · exact absurd (.inl hr) hstale

end writes

end BarqSync.Flx
