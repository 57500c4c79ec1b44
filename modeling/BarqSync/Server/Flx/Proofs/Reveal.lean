/-
The downloads of a flexible sync session show the user's view and nothing
else.

# Two runs

Two servers get the same IDENT and QUERY messages of a client, and their
snapshots agree on the view. Then they send the same bodies
(`downloads_reveal_view`).

# Names

The session knows objects by a string in which a table's name and a
primary key are divided by a tab. With a tab in a table's name two
objects can have one string, and then what happens to a hidden object
shows in what is sent for a visible one (`hidden_touch_shows`).
-/
import BarqSync.Server.Flx.Proofs.Agreement

namespace BarqSync.Flx

open FlxEnv FlxSession

-- ===== sending

/-- What the client gets to see of a message. -/
def FlxDownload.shown (m : FlxDownload) :
    Nat × DownloadBatchState × FlxBody :=
  (m.queryVersion, m.batchState, m.body)

section sending

variable {env : FlxEnv} {seen : ObjectRef → Bool} {s s' : FlxSession}
  {i i' : FlxIncrementalState}

/-- Two loops over what was touched: the same body, the same record, and
they stop for the same object. -/
theorem SameIncremental.addTouched {queries : FlxQueries}
    {record : VisibleObjects}
    (h : SameIncremental env queries record seen i i')
    (hkeyed : Keyed record) :
    let made := env.addTouched i.snapshot queries [] record i.objects
    let made' := env.addTouched i'.snapshot queries [] record i'.objects
    made.1 = made'.1 ∧ made.2.1 = made'.2.1
      ∧ (made.2.2 = [] ↔ made'.2.2 = [])
      ∧ Keyed made.2.1 ∧ (∀ r, Tracks made.2.1 r → seen r = true)
      ∧ SameIncremental env queries made.2.1 seen
        { i with
          emittedMoreToCome := true
          objects := made.2.2 }
        { i' with
          emittedMoreToCome := true
          objects := made'.2.2 } := by
  obtain ⟨p, hseen, hview, hrecord, hsame⟩ := h.matter
  have hview' (r : ObjectRef)
      (hr : env.isVisible i'.snapshot queries r = true) : p r = true := by
    apply hview
    rw [h.view.visible, hr]
  obtain ⟨hfilter, hempty, hkeyed1, htracks, hlist⟩ :=
    addTouched_filter hview i.objects [] record h.touched hkeyed hrecord
  obtain ⟨hfilter', hempty', -, -, hlist'⟩ :=
    addTouched_filter hview' i'.objects [] record h.touched' hkeyed hrecord
  rw [h.view.addTouched, hsame, hfilter'] at hfilter
  simp only [Prod.mk.injEq] at hfilter
  obtain ⟨hbody, hvisible, hrest⟩ := hfilter
  refine ⟨hbody.symm, hvisible.symm, ?_, hkeyed1,
    fun r hr => hseen r (htracks r hr), h.view, rfl, hlist, hlist',
    p, hseen, hview, htracks, hrest.symm⟩
  rw [hempty, hempty', hrest]

theorem SameSession.sendIncremental (h : SameSession env seen s s')
    (hi : SameIncremental env s.queries s.visible seen i i') :
    SameSession env seen (s.sendIncremental env i).1
        (s'.sendIncremental env i').1
      ∧ (s.sendIncremental env i).2.shown
        = (s'.sendIncremental env i').2.shown := by
  obtain ⟨hbody, hvisible, hempty, hkeyed, hrecorded, hrest⟩ :=
    hi.addTouched h.keyed
  simp only [FlxSession.sendIncremental, ← h.queries, ← h.visible]
  by_cases hdone : (env.addTouched i.snapshot s.queries [] s.visible
      i.objects).2.2 = []
  · have hbootstrap : Option.Rel (SameBootstrap env s.queries seen)
        (if i.emittedMoreToCome then none else s.bootstrap)
        (if i'.emittedMoreToCome then none else s'.bootstrap) := by
      rw [← hi.emitted]
      split
      · exact .none
      · exact h.bootstrap
    rw [if_pos hdone, if_pos (hempty.1 hdone)]
    refine ⟨{ h with
      queries := rfl
      visible := hvisible
      keyed := hkeyed
      recorded := hrecorded
      bootstrap := hbootstrap
      incremental := .none }, ?_⟩
    simp only [FlxDownload.shown, hi.emitted, h.queryVersion, hbody]
  · rw [if_neg hdone, if_neg (fun hc => hdone (hempty.2 hc))]
    refine ⟨{ h with
      queries := rfl
      visible := hvisible
      keyed := hkeyed
      recorded := hrecorded
      incremental := .some hrest }, ?_⟩
    simp only [FlxDownload.shown, h.queryVersion, hbody]

theorem SameSession.sendBootstrap (h : SameSession env seen s s')
    {b b' : FlxBootstrapState}
    (hb : SameBootstrap env s.queries seen b b') :
    SameSession env seen (s.sendBootstrap env b).1
        (s'.sendBootstrap env b').1
      ∧ (s.sendBootstrap env b).2.shown
        = (s'.sendBootstrap env b').2.shown := by
  have hobjects := hb.view.addObjects hb.inView []
  have hleft : ∀ r ∈ (env.addObjects b.snapshot [] b.objects).2,
      r ∈ b.objects := by
    obtain ⟨sent, hsplit, -⟩ := @addObjects_spec env b.snapshot
      b.objects [] fun r hr => image_of_isVisible (hb.inView r hr)
    intro r hr
    rw [hsplit]
    exact List.mem_append_right _ hr
  simp only [FlxSession.sendBootstrap, ← hb.objects, ← hb.removals,
    ← hobjects, FlxDownload.shown]
  generalize (if (env.addObjects b.snapshot [] b.objects).2 = [] then
    env.addRemovals (env.addObjects b.snapshot [] b.objects).1 b.removals
    else ((env.addObjects b.snapshot [] b.objects).1, b.removals)) = made
  by_cases hdone : (env.addObjects b.snapshot [] b.objects).2 = []
      ∧ made.2 = []
  · rw [if_pos hdone, if_pos hdone]
    exact ⟨{ h with
      visible := hb.final
      keyed := hb.keyed
      recorded := hb.seen
      pending := rfl
      bootstrap := .none
      incremental := .none }, by rw [h.queryVersion]⟩
  · rw [if_neg hdone, if_neg hdone]
    exact ⟨{ h with
      bootstrap := .some
        { hb with
          objects := rfl
          removals := rfl
          inView := fun r hr => hb.inView r (hleft r hr) } },
      by rw [h.queryVersion]⟩

/-- Sending keeps the queries. -/
theorem continueHistoryScan_queries (db : FlxDb) (known : Nat)
    (scan : FlxScan) :
    (s.continueHistoryScan env db known scan).1.queries = s.queries := by
  have hbatch (b : FlxBootstrapState) :
      (s.sendBootstrap env b).1.queries = s.queries := by
    simp only [sendBootstrap]
    generalize (if (env.addObjects b.snapshot [] b.objects).2 = [] then
      _ else _) = made
    split
    · rfl
    · rfl
  have hpart (i : FlxIncrementalState) :
      (s.sendIncremental env i).1.queries = s.queries := by
    simp only [sendIncremental]
    split
    · rfl
    · rfl
  rw [continueHistoryScan_eq]
  split
  · exact hbatch _
  · exact hpart _

/-- One call of `continue_history_scan` in each run. -/
theorem SameSession.send (h : SameSession env seen s s') {db db' : FlxDb}
    (known known' : Nat) {scan scan' : FlxScan}
    (hview : SameView env s.queries db db')
    (hscan : ∀ r, (seen r || env.isVisible db s.queries r) = true →
      (r ∈ scan.touched ↔ r ∈ scan'.touched))
    (hsep : Separated s (.send db known scan))
    (hsep' : Separated s' (.send db' known' scan')) :
    SameSession env (fun r => seen r || env.isVisible db s.queries r)
        (s.continueHistoryScan env db known scan).1
        (s'.continueHistoryScan env db' known' scan').1
      ∧ (s.continueHistoryScan env db known scan).2.shown
        = (s'.continueHistoryScan env db' known' scan').2.shown := by
  obtain ⟨hdb, hnoTab⟩ := hsep
  obtain ⟨hdb', hnoTab'⟩ := hsep'
  have h' : SameSession env
      (fun r => seen r || env.isVisible db s.queries r) s s' :=
    h.mono fun r hr => by rw [hr, Bool.true_or]
  have hinView : ∀ r, env.isVisible db s.queries r = true →
      (seen r || env.isVisible db s.queries r) = true := by
    intro r hr
    rw [hr, Bool.or_true]
  rw [continueHistoryScan_eq, continueHistoryScan_eq, ← h.pending]
  split
  · obtain ⟨hkeyed, htracks⟩ := @finalVisible_spec env db s.queries hdb
    obtain ⟨hobjects, hremovals, hfinal⟩ :=
      @SameView.prepareBootstrap env s.queries db db' hview hdb hdb' s
        s' rfl h.queries.symm h.sendAll h.visible known known'
    exact h'.sendBootstrap (rel_getD h'.bootstrap
      { view := hview
        objects := hobjects
        removals := hremovals
        final := hfinal
        keyed := hkeyed
        inView := fun r hr =>
          ((mem_prepareBootstrap_objects hdb h.keyed).1 hr).1
        seen := fun r hr => hinView r ((htracks r).1 hr) })
  · obtain ⟨hkeyed, -⟩ := touchedObjects_spec hnoTab
    obtain ⟨hkeyed', -⟩ := touchedObjects_spec hnoTab'
    exact h'.sendIncremental (rel_getD h'.incremental
      { view := hview
        emitted := rfl
        touched := hkeyed.touchedList
        touched' := hkeyed'.touchedList
        matter := ⟨_, fun _ hr => hr, hinView, h'.recorded,
          touchedObjects_filter hnoTab hnoTab' hscan⟩ })

end sending

-- ===== the view

/-- The instructions of a change, the schema and erasures apart, are
about objects in a view. -/
def FlxChange.Concerns (env : FlxEnv) (db : FlxDb) (queries : FlxQueries)
    (change : FlxChange) : Prop :=
  ∀ instr ∈ change.instrs, ∀ o, subject instr = some o →
    ∃ r, env.isVisible db queries r = true
      ∧ o = (tableNameToClassName r.1, r.2)

section concerns

variable {env : FlxEnv} {db : FlxDb} {queries : FlxQueries}
  {body : FlxBody} {change : FlxChange}

theorem concerns_object {r : ObjectRef}
    (hr : env.isVisible db queries r = true)
    (h : objectChange db body r = some change) :
    change.Concerns env db queries := by
  intro instr hmem o ho
  exact ⟨r, hr, about_objectChange h instr hmem o ho⟩

theorem concerns_erase (r : ObjectRef) :
    (FlxChange.erase r).Concerns env db queries := by
  intro instr hmem o ho
  rw [List.mem_singleton.1 hmem] at ho
  cases ho

/-- A change at the end of a body of the view. -/
theorem concerns_append (hbody : ∀ c ∈ body, c.Concerns env db queries)
    (hchange : change.Concerns env db queries) :
    ∀ c ∈ body ++ [change], c.Concerns env db queries :=
  List.forall_mem_append.2 ⟨hbody, List.forall_mem_singleton.2 hchange⟩

theorem concerns_addObjects {refs : List ObjectRef}
    (hrefs : ∀ r ∈ refs, env.isVisible db queries r = true) :
    ∀ body : FlxBody, (∀ c ∈ body, c.Concerns env db queries) →
      ∀ c ∈ (env.addObjects db body refs).1,
        c.Concerns env db queries := by
  induction refs with
  | nil => exact fun body hbody => hbody
  | cons r refs ih =>
    have hrest := ih fun r' hr' => hrefs r' (List.mem_cons_of_mem _ hr')
    intro body hbody
    rw [addObjects]
    cases hchange : objectChange db body r with
    | none => exact hrest body hbody
    | some change =>
      rw [Option.elim_some]
      split
      · exact hrest _ (concerns_append hbody
          (concerns_object (hrefs r List.mem_cons_self) hchange))
      · exact hbody

theorem concerns_addRemovals (refs : List ObjectRef) :
    ∀ body : FlxBody, (∀ c ∈ body, c.Concerns env db queries) →
      ∀ c ∈ (env.addRemovals body refs).1, c.Concerns env db queries := by
  induction refs with
  | nil => exact fun body hbody => hbody
  | cons r refs ih =>
    intro body hbody
    rw [addRemovals]
    split
    · exact ih _ (concerns_append hbody (concerns_erase r))
    · exact hbody

theorem concerns_addTouched (touched : List (Bytes × ObjectRef)) :
    ∀ (body : FlxBody) visible, (∀ c ∈ body, c.Concerns env db queries) →
      ∀ c ∈ (env.addTouched db queries body visible touched).1,
        c.Concerns env db queries := by
  induction touched with
  | nil => exact fun body visible hbody => hbody
  | cons e touched ih =>
    intro body visible hbody
    obtain ⟨key, r⟩ := e
    rw [addTouched]
    by_cases hr : env.isVisible db queries r = true
    · rw [if_pos hr]
      cases hchange : objectChange db body r with
      | none => exact ih body visible hbody
      | some change =>
        rw [Option.elim_some]
        split
        · exact ih _ _ (concerns_append hbody (concerns_object hr hchange))
        · exact hbody
    · rw [if_neg hr]
      cases visible[key]? with
      | none => exact ih body visible hbody
      | some old =>
        rw [Option.elim_some]
        split
        · exact ih _ _ (concerns_append hbody (concerns_erase old))
        · exact hbody

/-- A message is about the view in the snapshot it was built from. -/
theorem SameSession.concerns {seen : ObjectRef → Bool}
    {s s' : FlxSession} (h : SameSession env seen s s') (hdb : db.NoTab)
    (known : Nat) (scan : FlxScan) :
    ∀ c ∈ (s.continueHistoryScan env db known scan).2.body,
      c.Concerns env (s.bodySnapshot db) s.queries := by
  have hnil : ∀ db, ∀ c ∈ ([] : FlxBody), c.Concerns env db s.queries :=
    fun db c hc => by cases hc
  -- a bootstrap, prepared or in progress
  have hbatch : ∀ b : FlxBootstrapState,
      (∀ r ∈ b.objects, env.isVisible b.snapshot s.queries r = true) →
      ∀ c ∈ (s.sendBootstrap env b).2.body,
        c.Concerns env b.snapshot s.queries := by
    intro b hb
    have hobjects := concerns_addObjects hb [] (hnil _)
    simp only [FlxSession.sendBootstrap]
    split
    · split
      · exact concerns_addRemovals _ _ hobjects
      · exact concerns_addRemovals _ _ hobjects
    · split
      · exact hobjects
      · exact hobjects
  have hbody : ∀ i : FlxIncrementalState,
      ∀ c ∈ (s.sendIncremental env i).2.body,
        c.Concerns env i.snapshot s.queries := by
    intro i
    have htouched := @concerns_addTouched env i.snapshot s.queries
      i.objects [] s.visible (hnil i.snapshot)
    simp only [FlxSession.sendIncremental]
    split
    · exact htouched
    · exact htouched
  rw [bodySnapshot, continueHistoryScan_eq]
  by_cases hpending : s.bootstrapPending = true
  · rw [if_pos hpending, if_pos hpending]
    rcases rel_cases h.bootstrap with ⟨hb, -⟩ | ⟨b, b', hb, -, hrel⟩
    · rw [hb, Option.getD_none]
      exact hbatch _ fun r hr =>
        ((mem_prepareBootstrap_objects hdb h.keyed).1 hr).1
    · rw [hb, Option.getD_some]
      exact hbatch b hrel.inView
  · rw [if_neg hpending, if_neg hpending]
    cases s.incremental with
    | none => exact hbody _
    | some i => exact hbody i

end concerns

-- ===== the result

/-- The objects in a client file's record. -/
def recordedIn (record : VisibleObjects) (r : ObjectRef) : Bool :=
  record[flxVisibleObjectKey r]? = some r

/-- All inputs of a session meet the condition. -/
def AllSeparated (env : FlxEnv) (s : FlxSession) (es : List FlxInput) :
    Prop :=
  Sys.ExecOk (fun s e => some (FlxSession.take env s e)) Separated s es

section result

variable {env : FlxEnv}

theorem SameInputs.downloads {queries : FlxQueries}
    {seen : ObjectRef → Bool} {es es' : List FlxInput}
    (hsame : SameInputs env queries seen es es') :
    ∀ s s' : FlxSession, s.queries = queries →
      SameSession env seen s s' → AllSeparated env s es →
      AllSeparated env s' es' →
      (s.downloads env es).map FlxSent.revealed
          = (s'.downloads env es').map FlxSent.revealed
        ∧ ∀ m ∈ s.downloads env es, ∀ c ∈ m.message.body,
          c.Concerns env m.snapshot m.queries := by
  induction hsame with
  | nil => exact fun s s' _ _ _ _ => ⟨rfl, fun m hm => by cases hm⟩
  | ident progress progress' queryVersion _ ih =>
    intro s s' _ h hsep hsep'
    exact ih _ _ rfl (h.receiveIdent progress progress' queryVersion _)
      (hsep.2 _ rfl) (hsep'.2 _ rfl)
  | query queryVersion _ ih =>
    intro s s' _ h hsep hsep'
    exact ih _ _ rfl (h.receiveQuery queryVersion _) (hsep.2 _ rfl)
      (hsep'.2 _ rfl)
  | forced ref _ ih =>
    intro s s' hqueries h hsep hsep'
    exact ih _ _ hqueries (h.forcedRemoval hsep.1.1 hsep.1.2)
      (hsep.2 _ rfl) (hsep'.2 _ rfl)
  | @send queries seen es es' db db' known known' scan scan' hview hscan
      _ ih =>
      intro s s' hqueries h hsep hsep'
      subst hqueries
      obtain ⟨hnext, hshown⟩ :=
        h.send known known' hview hscan hsep.1 hsep'.1
      obtain ⟨hrest, hconcerns⟩ := ih _ _
        (continueHistoryScan_queries db known scan) hnext (hsep.2 _ rfl)
        (hsep'.2 _ rfl)
      constructor
      · rw [FlxSession.downloads, FlxSession.downloads, List.map_append,
          List.map_append]
        exact congrArg₂ _ (congrArg List.singleton hshown) hrest
      · refine List.forall_mem_append.2 ⟨fun m hm => ?_, hconcerns⟩
        rw [List.mem_singleton.1 hm]
        exact h.concerns hsep.1.1 known scan

/-- Two runs that agree at each step on the view and on what was in it:
the bodies are the same, and all their instructions but erasures and
schema are about objects in the view of the snapshot the body was built
from. -/
theorem downloads_reveal_view {record : VisibleObjects}
    (hrecord : Keyed record) {es es' : List FlxInput}
    (hsame : SameInputs env [] (recordedIn record) es es')
    (hsep : AllSeparated env { visible := record } es)
    (hsep' : AllSeparated env { visible := record } es') :
    (FlxSession.downloads env { visible := record } es).map
          FlxSent.revealed
        = (FlxSession.downloads env { visible := record } es').map
          FlxSent.revealed
      ∧ ∀ m ∈ FlxSession.downloads env { visible := record } es,
        ∀ instr ∈ m.message.body.instrs, ∀ o, subject instr = some o →
          ∃ r, env.isVisible m.snapshot m.queries r = true
            ∧ o = (tableNameToClassName r.1, r.2) := by
  have hstart : SameSession env (recordedIn record)
      { visible := record } { visible := record } :=
    { queryVersion := rfl
      queries := rfl
      pending := rfl
      sendAll := rfl
      visible := rfl
      keyed := hrecord
      recorded := fun r hr => decide_eq_true hr
      bootstrap := .none
      incremental := .none }
  obtain ⟨hrevealed, hconcerns⟩ :=
    hsame.downloads _ _ rfl hstart hsep hsep'
  refine ⟨hrevealed, fun m hm instr hinstr => ?_⟩
  obtain ⟨c, hc, hinstr⟩ := List.mem_flatMap.1 hinstr
  exact hconcerns m hm c hc instr hinstr

end result

-- ===== instances

/-- The file of another user's task beside the user's own. -/
def sharedFile : FlxDb :=
  taskFile [(task 1, taskFields 1 7),
    (task 2, [([112], .mixed (.int 2)), ([118], .mixed (.int 5)),
      ([111], .mixed (.string [119]))])]

theorem sameView_sharedFile :
    SameView ownerEnv allTasks (taskFile [(task 1, taskFields 1 7)])
      sharedFile := by
  have hvisible (r : ObjectRef) (hr : r ≠ task 1) : ownerEnv.isVisible
        (taskFile [(task 1, taskFields 1 7)]) allTasks r = false
      ∧ ownerEnv.isVisible sharedFile allTasks r = false := by
    refine ⟨(absent_of_notMem fun hmem =>
      hr (List.mem_singleton.1 hmem)).1, ?_⟩
    by_cases hr' : r = task 2
    · rw [hr']
      decide
    · refine (absent_of_notMem fun hmem => ?_).1
      rcases List.mem_pair.1 hmem with hmem | hmem
      · exact hr hmem
      · exact hr' hmem
  have honly (r : ObjectRef) (hr : ownerEnv.isVisible
      (taskFile [(task 1, taskFields 1 7)]) allTasks r = true) :
      r = task 1 := by
    by_contra hne
    rw [(hvisible r hne).1] at hr
    cases hr
  refine ⟨rfl, fun r => ?_, fun r hr => ?_, fun r fields hr hf => ?_⟩
  · by_cases hr : r = task 1
    · rw [hr]
      decide
    · rw [(hvisible r hr).1, (hvisible r hr).2]
  · rw [honly r hr]
    rfl
  · -- a task has no links
    rw [honly r hr] at hf
    cases hf
    exact fun ref href => by cases href

/-- One server has the other user's task and scans a change of it, the
other server has not. -/
theorem downloads_reveal_view_sharedFile :
    (FlxSession.downloads ownerEnv {} [.ident 0 1 allTasks,
        .send (taskFile [(task 1, taskFields 1 7)]) 1 ⟨1, []⟩,
        .send (taskFile [(task 1, taskFields 1 7)]) 1 ⟨1, []⟩]).map
        FlxSent.revealed
      = (FlxSession.downloads ownerEnv {} [.ident 0 1 allTasks,
        .send sharedFile 2 ⟨2, []⟩, .send sharedFile 3 ⟨3, [task 2]⟩]).map
        FlxSent.revealed := by
  refine (@downloads_reveal_view ownerEnv ∅ keyed_empty _ _
    (.ident 0 0 1 (.send 1 2 sameView_sharedFile (fun r _ => Iff.rfl)
      (.send 1 3 sameView_sharedFile (fun r hr => ?_) .nil))) ?_ ?_).1
  · constructor
    · intro hmem
      cases hmem
    · intro hmem
      rw [List.mem_singleton.1 hmem] at hr
      exact absurd hr (by decide)
  · refine ⟨trivial, fun t ht => ?_⟩
    cases ht
    refine ⟨⟨by show ∀ t ∈ _, _; decide, by decide⟩, fun t ht => ?_⟩
    cases ht
    exact ⟨⟨by show ∀ t ∈ _, _; decide, by decide⟩, fun t ht => trivial⟩
  · refine ⟨trivial, fun t ht => ?_⟩
    cases ht
    refine ⟨⟨by show ∀ t ∈ _, _; decide, by decide⟩, fun t ht => ?_⟩
    cases ht
    exact ⟨⟨by show ∀ t ∈ _, _; decide, by decide⟩, fun t ht => trivial⟩

/-- The table `T\tstring:7:a`, which has no rule. -/
def tabbedTable : Bytes :=
  taskTable ++ 9 :: bytes ['s', 't', 'r', 'i', 'n', 'g', ':', '7', ':', 'a']

/-- An object of `T` in the view, its primary key the string `a\tint:5`,
and object 5 of the other table, with the same name. -/
def namedObject : ObjectRef :=
  (taskTable, .string (97 :: 9 :: bytes ['i', 'n', 't', ':', '5']))

def hiddenObject : ObjectRef := (tabbedTable, .int 5)

def tabbedFile : FlxDb where
  tables :=
    [(taskTable, ⟨false, false, some [112],
      [([112], ⟨.string, false, .single, [], .string⟩),
        ([111], ⟨.string, false, .single, [], .string⟩)]⟩),
      (tabbedTable, ⟨false, false, some [112],
        [([112], ⟨.int, false, .single, [], .int⟩)]⟩)]
  objects :=
    [(namedObject, [([112], .mixed (.string (97 :: 9 :: bytes
      ['i', 'n', 't', ':', '5']))), ([111], .mixed (.string [117]))]),
      (hiddenObject, [([112], .mixed (.int 5))])]

/-- A change of the hidden object erases the visible one at the client:
two runs with the same view that differ in nothing but this change do not
send the same. -/
theorem hidden_touch_shows : ∃ es es' : List FlxInput,
      SameInputs ownerEnv [] (recordedIn ∅) es es'
        ∧ (FlxSession.downloads ownerEnv {} es).map FlxSent.revealed
          ≠ (FlxSession.downloads ownerEnv {} es').map
            FlxSent.revealed := by
  have hview : SameView ownerEnv allTasks tabbedFile tabbedFile :=
    ⟨rfl, fun _ => rfl, fun _ _ => rfl, fun _ _ _ _ _ _ => rfl⟩
  refine ⟨[.ident 0 1 allTasks, .send tabbedFile 1 ⟨1, []⟩,
      .send tabbedFile 2 ⟨2, [hiddenObject]⟩],
    [.ident 0 1 allTasks, .send tabbedFile 1 ⟨1, []⟩,
      .send tabbedFile 2 ⟨2, []⟩],
    .ident 0 0 1 (.send 1 1 hview (fun r _ => Iff.rfl)
      (.send 2 2 hview (fun r hr => ?_) .nil)), ?_⟩
  · constructor
    · intro hmem
      rw [List.mem_singleton.1 hmem] at hr
      exact absurd hr (by decide)
    · intro hmem
      cases hmem
  · intro heq
    have hlengths := congrArg (List.map fun m => m.2.2.length) heq
    exact absurd hlengths (by decide)

end BarqSync.Flx
