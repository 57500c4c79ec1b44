/-
A pending bootstrap is integrated whole or not at all: the invariant of
the client's bootstrap store over batches, lost connections, restarts
and the turns of the integration loop.

# The argument

Between two commits the table holds nothing, one incomplete bootstrap or
one complete one (`Shape`). Of an incomplete bootstrap nothing has been
integrated. A complete one is exactly what the server sent, with the
part that is integrated already removed from its front; it is there only
while the loop is running, so no further batch can be added to it.

# What can go wrong

The store recognises a bootstrap by its query version only. When the
connection is lost in the middle of a bootstrap and the server begins
the same query version again, the batches are added to the ones that are
left over. `Fresh` excludes just that.
-/
import BarqSync.Client.Bootstrap
import BarqSync.Sys.Runs

namespace BarqSync.Client

variable {queryVersion : Int} {subs subs' : SubscriptionSets}

open Sys SubscriptionStore

-- ===== subscription sets

theorem lookup_setState (subs : SubscriptionSets) (version v : Int)
    (state : SubscriptionState) :
    (subs.setState version state).lookup v
      = if v = version then (subs.lookup v).map fun _ => state
        else subs.lookup v := by
  unfold SubscriptionSets.setState
  induction subs with
  | nil =>
    rw [List.map_nil, List.lookup_nil]
    split <;> rfl
  | cons set subs ih =>
    obtain ⟨w, st⟩ := set
    rw [List.map_cons]
    by_cases hw : w = version
    · subst hw
      by_cases hv : v = w
      · subst hv
        simp
      · have hne : (v == w) = false := by simpa using hv
        rw [if_pos rfl, List.lookup_cons, List.lookup_cons, hne, ih]
    · rw [if_neg hw]
      by_cases hv : v = w
      · subst hv
        simp [hw]
      · have hne : (v == w) = false := by simpa using hv
        rw [List.lookup_cons, List.lookup_cons, hne, ih]

/-- A lookup in a table with some versions removed. -/
theorem lookup_filter_some {subs : SubscriptionSets} {keep : Int → Bool}
    {v : Int} {state : SubscriptionState}
    (h : (subs.filter fun set => keep set.1).lookup v = some state) :
    subs.lookup v = some state := by
  induction subs with
  | nil => exact h
  | cons set subs ih =>
    obtain ⟨w, st⟩ := set
    rw [List.filter_cons] at h
    rw [List.lookup_cons]
    split at h
    · rw [List.lookup_cons] at h
      split at h
      · exact h
      · exact ih h
    · rename_i hkeep
      -- A version that was removed is not found below either.
      have hne : (v == w) = false := by
        by_contra heq
        rw [Bool.not_eq_false, beq_iff_eq] at heq
        obtain ⟨l1, l2, hmem, -⟩ := List.lookup_eq_some_iff.1 h
        have hin : (v, state) ∈ subs.filter fun set => keep set.1 := by
          rw [hmem]
          exact List.mem_append_right _ List.mem_cons_self
        rw [heq] at hin
        exact hkeep (List.mem_filter.1 hin).2
      rw [hne]
      exact ih h

theorem beginBootstrap_cases
    (h : beginBootstrap subs queryVersion = .ok subs') :
    subs' = subs
      ∨ subs' = subs.setState queryVersion .bootstrapping := by
  unfold beginBootstrap at h
  split at h
  · cases h
  · cases hlookup : subs.lookup queryVersion with
    | none => rw [hlookup] at h; cases h
    | some state =>
      rw [hlookup] at h
      cases state <;> cases h
      · exact .inr rfl
      · exact .inl rfl
      · exact .inl rfl

/-- A set that waits for its mark after a bootstrap began was waiting
before. -/
theorem beginBootstrap_awaitingMark {v : Int}
    (h : beginBootstrap subs queryVersion = .ok subs')
    (hv : subs'.lookup v = some .awaitingMark) :
    subs.lookup v = some .awaitingMark := by
  rcases beginBootstrap_cases h with rfl | rfl
  · exact hv
  · rw [lookup_setState] at hv
    split at hv
    · obtain ⟨old, -, hold⟩ := Option.map_eq_some_iff.1 hv
      cases hold
    · exact hv

theorem doCompleteBootstrap_cases {newState : SubscriptionState}
    (h : doCompleteBootstrap subs queryVersion newState = .ok subs') :
    subs' = subs
      ∨ subs' = (if newState = .awaitingMark then
          (subs.setState queryVersion newState).filter
            fun set => ¬ set.1 < queryVersion
        else subs.setState queryVersion newState) := by
  unfold doCompleteBootstrap at h
  split at h
  · cases h
  · cases hlookup : subs.lookup queryVersion with
    | none => rw [hlookup] at h; cases h
    | some state =>
      rw [hlookup] at h
      cases state <;> cases h
      · exact .inr rfl
      · exact .inl rfl
      · exact .inl rfl

/-- A set that waits for its mark after a bootstrap was completed or
cancelled was waiting before, unless it is the one that was completed. -/
theorem doCompleteBootstrap_awaitingMark {v : Int}
    {newState : SubscriptionState}
    (h : doCompleteBootstrap subs queryVersion newState = .ok subs')
    (hv : subs'.lookup v = some .awaitingMark) :
    subs.lookup v = some .awaitingMark
      ∨ v = queryVersion ∧ newState = .awaitingMark := by
  have hset : (subs.setState queryVersion newState).lookup v
        = some .awaitingMark
      → subs.lookup v = some .awaitingMark
        ∨ v = queryVersion ∧ newState = .awaitingMark := by
    intro hst
    rw [lookup_setState] at hst
    split at hst
    · rename_i heq
      obtain ⟨old, -, hold⟩ := Option.map_eq_some_iff.1 hst
      exact .inr ⟨heq, hold⟩
    · exact .inl hst
  rcases doCompleteBootstrap_cases h with rfl | rfl
  · exact .inl hv
  · split at hv
    · exact hset (@lookup_filter_some _
        (fun w => decide ¬w < queryVersion) _ _ hv)
    · exact hset hv

-- ===== the operations

section

variable {C : Type} {size : C → Nat} {limit : Nat} {s s' : Session C}
  {first processing : Bool} {obj : PendingBootstrap C} {st st' : Store C}
  {completed : List (Int × List C)} {current : Option (Int × List C)}
  {integrated cs soFar : List C} {message : DownloadMessage C}
  {progress : Option SyncProgress} {table : List (PendingBootstrap C)}
  {c : FlxClient C} {version : Int}

/-- One batch of `peek_pending` is the beginning of what is pending. -/
theorem peekChangesets_initial (bytesSoFar : Nat) (cs : List C) :
    peekChangesets size limit bytesSoFar cs <+: cs := by
  induction cs generalizing bytesSoFar with
  | nil => exact List.prefix_rfl
  | cons c cs ih =>
    unfold peekChangesets
    split
    · exact List.cons_prefix_cons.2 ⟨rfl, ih _⟩
    · exact List.nil_prefix

/-- An operation that committed did not fail. -/
theorem ok_of_toOption {α β : Type} {outcome : Except Fault α} {f : α → β}
    {b : β} (h : outcome.toOption.map f = some b) :
    ∃ a, outcome = .ok a ∧ f a = b := by
  cases outcome with
  | error fault => cases h
  | ok a => exact ⟨a, rfl, Option.some.inj h⟩

theorem ok_of_map {α β : Type} {outcome : Except Fault α} {f : α → β}
    {b : β} (h : outcome.map f = .ok b) : ∃ a, outcome = .ok a ∧ f a = b := by
  cases outcome with
  | error fault => cases h
  | ok a => exact ⟨a, rfl, Except.ok.inj h⟩

/-- What removing the first changesets of the only pending bootstrap
does. -/
theorem popFrontPending_cases {batch rest : List C}
    (hsplit : obj.changesets = batch ++ rest)
    (h : st.popFrontPending obj batch.length = some st') :
    (rest = [] ∧ ∃ subs,
        completeBootstrap st.subs obj.queryVersion = .ok subs
        ∧ st' = { st with table := [], subs := subs })
      ∨ (rest ≠ []
        ∧ st' = { st with table := [{ obj with changesets := rest }] }) := by
  obtain ⟨_, hpop, rfl⟩ := ok_of_toOption h
  unfold PendingBootstrapStore.popFrontPending at hpop
  simp only [hsplit, List.drop_left] at hpop
  rw [if_neg (by simp)] at hpop
  cases rest with
  | nil =>
    rw [if_pos (by simp)] at hpop
    obtain ⟨subs, hsubs, rfl⟩ := ok_of_map hpop
    exact .inl ⟨rfl, subs, hsubs, rfl⟩
  | cons c rest =>
    rw [if_neg (by simp)] at hpop
    cases hpop
    exact .inr ⟨List.cons_ne_nil _ _, rfl⟩

/-- Everything a turn of the loop can do: end, clear an incomplete
bootstrap, or integrate the next changesets of a complete one. -/
theorem processTurn_cases {c' : FlxClient C}
    (h : c.processTurn size limit = some c') :
    (c.hasPending = false ∧ c' = { c with processing := false })
      ∨ (∃ obj subs, c.store.table = [obj] ∧ obj.progress = none
        ∧ cancelBootstrap c.store.subs obj.queryVersion = .ok subs
        ∧ c' = ⟨{ c.store with table := [], subs := subs }, false, false⟩)
      ∨ ∃ obj progress batch rest st,
        c.store.table = [obj] ∧ obj.progress = some progress
        ∧ obj.changesets = batch ++ rest
        ∧ (batch = [] → obj.changesets = [])
        ∧ c.store.popFrontPending obj batch.length = some st
        ∧ c'.store.table = st.table ∧ c'.store.subs = st.subs
        ∧ c'.store.integrated = c.store.integrated ++ batch
        ∧ c'.hasPending = !st.table.isEmpty
        ∧ c'.processing = c.processing := by
  unfold FlxClient.processTurn at h
  by_cases hpend : c.hasPending = false
  · rw [if_pos hpend] at h
    cases h
    exact .inl ⟨hpend, rfl⟩
  · rw [if_neg hpend] at h
    rw [Bool.not_eq_false] at hpend
    refine .inr ?_
    split at h
    · rename_i obj htable
      split at h
      · rename_i hprog
        obtain ⟨st, hst, rfl⟩ := Option.map_eq_some_iff.1 h
        obtain ⟨subs, hsubs, rfl⟩ := ok_of_toOption hst
        rw [hpend] at hsubs
        exact .inl ⟨obj, subs, htable, hprog, hsubs, rfl⟩
      · rename_i progress hprog
        by_cases hempty : peekChangesets size limit 0 obj.changesets = []
            ∧ obj.changesets ≠ []
        · rw [if_pos hempty] at h
          cases h
        · rw [if_neg hempty] at h
          obtain ⟨st, hpop, rfl⟩ := Option.map_eq_some_iff.1 h
          obtain ⟨rest, hrest⟩ :=
            @peekChangesets_initial _ size limit 0 obj.changesets
          refine .inr ⟨obj, progress, _, rest, st, htable, hprog,
            hrest.symm, ?_, hpop, rfl, rfl, rfl, rfl, rfl⟩
          intro hnil
          by_contra hne
          exact hempty ⟨hnil, hne⟩
    · cases h

/-- The changesets of the earlier batches, read off the run. -/
theorem soFar_eq_some (h : s.soFar first version = some soFar) :
    first = true ∧ soFar = []
      ∨ first = false ∧ s.current = some (version, soFar) := by
  unfold Session.soFar at h
  cases first with
  | true =>
    cases h
    exact .inl ⟨rfl, rfl⟩
  | false =>
    rw [if_neg Bool.false_ne_true] at h
    refine .inr ⟨rfl, ?_⟩
    split at h
    · rename_i v cs hcur
      split at h
      · rename_i hv
        cases h
        rw [hcur, hv]
      · cases h
    · cases h

/-- Everything a batch that arrives can do. -/
theorem receive_cases (h : s.receive first message = some s') :
    s.client.processing = false
      ∧ ∃ soFar st progress,
        s.soFar first message.queryVersion = some soFar
        ∧ s.client.store.addBatch message.queryVersion progress
          message.changesets = some st
        ∧ ((progress = none ∧ s' = ⟨⟨st, true, false⟩,
            some (message.queryVersion, soFar ++ message.changesets),
            s.completed⟩)
          ∨ (progress.isSome ∧ s' = ⟨⟨st, true, true⟩, none, s.completed
            ++ [(message.queryVersion, soFar ++ message.changesets)]⟩)) := by
  unfold Session.receive at h
  split at h
  · cases h
  · rename_i hproc
    obtain ⟨soFar, hsoFar, h⟩ := Option.bind_eq_some_iff.1 h
    obtain ⟨client, hclient, rfl⟩ := Option.map_eq_some_iff.1 h
    refine ⟨Bool.eq_false_iff.2 hproc, ?_⟩
    unfold FlxClient.processFlxBootstrapMessage at hclient
    split at hclient
    · cases hclient
    · rename_i hstate
      obtain ⟨st, hst, rfl⟩ := Option.map_eq_some_iff.1 hclient
      refine ⟨soFar, st, none, hsoFar, hst, .inl ⟨rfl, ?_⟩⟩
      rw [hstate]
      exact if_neg (by decide)
    · rename_i hstate
      obtain ⟨st, hst, rfl⟩ := Option.map_eq_some_iff.1 hclient
      refine ⟨soFar, st, _, hsoFar, hst, .inr ⟨rfl, ?_⟩⟩
      rw [hstate]
      exact if_pos rfl

-- ===== the invariant

/-- What the table can hold between two commits, against what the server
sent and what has been integrated. -/
inductive Shape : List (PendingBootstrap C) → Option (Int × List C)
    → List (Int × List C) → List C → Bool → Prop
  | empty (completed : List (Int × List C)) (processing : Bool) :
      Shape [] none completed (completed.flatMap Prod.snd) processing
  /-- Nothing of an incomplete bootstrap is integrated. If it is still
  arriving, it is what has arrived. -/
  | incomplete (obj : PendingBootstrap C)
      (current : Option (Int × List C))
      (completed : List (Int × List C)) (processing : Bool)
      (noProgress : obj.progress = none)
      (arriving : ∀ received, current = some received
        → received = (obj.queryVersion, obj.changesets)) :
      Shape [obj] current completed (completed.flatMap Prod.snd) processing
  /-- A complete bootstrap is what the server sent, less what has been
  integrated, and only the loop sees it. -/
  | complete (obj : PendingBootstrap C) (before : List (Int × List C))
      (done : List C) (progress : obj.progress.isSome)
      (begun : obj.changesets = [] → done = []) :
      Shape [obj] none
        (before ++ [(obj.queryVersion, done ++ obj.changesets)])
        (before.flatMap Prod.snd ++ done) true

section

variable (h : Shape table current completed integrated processing)

include h

/-- The three shapes, as equations. -/
theorem Shape.inv : (table = [] ∧ current = none
        ∧ integrated = completed.flatMap Prod.snd)
      ∨ (∃ obj, table = [obj] ∧ obj.progress = none
        ∧ integrated = completed.flatMap Prod.snd
        ∧ ∀ received, current = some received
          → received = (obj.queryVersion, obj.changesets))
      ∨ ∃ obj before done, table = [obj] ∧ obj.progress.isSome
        ∧ current = none ∧ processing = true
        ∧ completed = before ++ [(obj.queryVersion, done ++ obj.changesets)]
        ∧ integrated = before.flatMap Prod.snd ++ done
        ∧ (obj.changesets = [] → done = []) := by
  cases h with
  | empty => exact .inl ⟨rfl, rfl, rfl⟩
  | incomplete obj _ _ _ hprog harriving =>
    exact .inr (.inl ⟨obj, rfl, hprog, rfl, harriving⟩)
  | complete obj before done hprog hbegun =>
    exact .inr (.inr ⟨obj, before, done, rfl, hprog, rfl, rfl, rfl, rfl,
      hbegun⟩)

/-- What is left in the table of a bootstrap that no longer arrives. -/
theorem Shape.lose : Shape table none completed integrated processing := by
  cases h with
  | empty => exact .empty _ _
  | incomplete obj _ _ _ hprog _ =>
    exact .incomplete obj _ _ _ hprog fun _ hsome => by cases hsome
  | complete obj before done hprog hbegun =>
    exact .complete obj before done hprog hbegun

/-- The loop may start in every shape. -/
theorem Shape.start : Shape table current completed integrated true := by
  cases h with
  | empty => exact .empty _ _
  | incomplete obj _ _ _ hprog harriving =>
    exact .incomplete obj _ _ _ hprog harriving
  | complete obj before done hprog hbegun =>
    exact .complete obj before done hprog hbegun

end

/-- The invariant of the client. -/
structure Good (s : Session C) : Prop where
  hasPending : s.client.hasPending = !s.client.store.table.isEmpty
  shape : Shape s.client.store.table s.current s.completed
    s.client.store.integrated s.client.processing
  /-- While the loop runs, no bootstrap is arriving. -/
  idle : s.client.processing = true → s.current = none

/-- The first batch of a bootstrap arrives only while no batch of its
query version is stored. -/
def Fresh (s : Session C) : Event C → Prop
  | .batch true message =>
    ∀ obj ∈ s.client.store.table, obj.queryVersion ≠ message.queryVersion
  | _ => True

instance (s : Session C) : (event : Event C) → Decidable (Fresh s event)
  | .batch true message => inferInstanceAs (Decidable (∀ obj
      ∈ s.client.store.table, obj.queryVersion ≠ message.queryVersion))
  | .batch false _ | .subscribe _ | .turn | .lose | .restart | .resume
  | .downloadComplete _ => .isTrue trivial

/-- A batch that opens a new object of the table. -/
theorem addBatch_new (hnew : ∀ obj ∈ table, obj.queryVersion ≠ version) :
    PendingBootstrapStore.addBatch table subs version progress cs
      = (beginBootstrap subs version).map fun subs =>
          ([⟨version, progress, cs⟩], subs) := by
  have hfilter : table.filter (·.queryVersion = version) = [] := by
    rw [List.filter_eq_nil_iff]
    intro obj hobj
    simpa using hnew obj hobj
  unfold PendingBootstrapStore.addBatch
  rw [hfilter]
  rfl

/-- A batch that is added to the object there is. -/
theorem addBatch_same :
    PendingBootstrapStore.addBatch [obj] subs obj.queryVersion progress cs
      = .ok ([{ obj with
          progress := progress.or obj.progress
          changesets := obj.changesets ++ cs }], subs) := by
  simp [PendingBootstrapStore.addBatch]

/-- An incoming batch finds nothing pending, or what has arrived so far,
or, if it is the first, something of another query version. -/
theorem addBatch_shape (hs : s.client.processing = false)
    (hgood : Good s) (hfresh : Fresh s (.batch first message))
    (hsoFar : s.soFar first message.queryVersion = some soFar)
    (h : s.client.store.addBatch message.queryVersion progress
      message.changesets = some st) :
    s.client.store.integrated = s.sent
      ∧ st.integrated = s.client.store.integrated
      ∧ st.table = [⟨message.queryVersion, progress,
        soFar ++ message.changesets⟩]
      ∧ ∀ v, st.subs.lookup v = some .awaitingMark
        → s.client.store.subs.lookup v = some .awaitingMark := by
  have hsent : s.client.store.integrated = s.sent := by
    rcases hgood.shape.inv with ⟨-, -, hint⟩ | ⟨obj, -, -, hint, -⟩
      | ⟨obj, before, done, -, -, -, hrunning, -⟩
    · exact hint
    · exact hint
    · rw [hs] at hrunning
      cases hrunning
  refine ⟨hsent, ?_⟩
  have hnew : (∀ obj ∈ s.client.store.table,
      obj.queryVersion ≠ message.queryVersion) → soFar = []
      → st.integrated = s.client.store.integrated
        ∧ st.table = [⟨message.queryVersion, progress,
          soFar ++ message.changesets⟩]
        ∧ ∀ v, st.subs.lookup v = some .awaitingMark
          → s.client.store.subs.lookup v = some .awaitingMark := by
    intro hne hnil
    obtain ⟨_, hadd, rfl⟩ := ok_of_toOption h
    rw [addBatch_new hne] at hadd
    obtain ⟨subs, hsubs, rfl⟩ := ok_of_map hadd
    rw [hnil]
    exact ⟨rfl, rfl, fun v hv => beginBootstrap_awaitingMark hsubs hv⟩
  rcases soFar_eq_some hsoFar with ⟨rfl, hnil⟩ | ⟨rfl, hcur⟩
  · exact hnew hfresh hnil
  · rcases hgood.shape.inv with ⟨-, hnone, -⟩
      | ⟨obj, htable, hprog, -, harriving⟩
      | ⟨obj, before, done, -, -, hnone, -⟩
    · rw [hnone] at hcur
      cases hcur
    · obtain ⟨hversion, rfl⟩ := Prod.mk.inj (harriving _ hcur)
      obtain ⟨_, hadd, rfl⟩ := ok_of_toOption h
      rw [hversion, htable, addBatch_same] at hadd
      cases hadd
      rw [hprog, Option.or_none, hversion]
      exact ⟨rfl, rfl, fun _ => id⟩
    · rw [hnone] at hcur
      cases hcur

/-- A batch keeps the invariant. -/
theorem receive_good (hgood : Good s)
    (hfresh : Fresh s (.batch first message))
    (h : s.receive first message = some s') : Good s' := by
  obtain ⟨hproc, soFar, st, progress, hsoFar, hadd, hcase⟩ :=
    receive_cases h
  obtain ⟨hsent, hint, htable, -⟩ :=
    addBatch_shape hproc hgood hfresh hsoFar hadd
  rcases hcase with ⟨rfl, rfl⟩ | ⟨hprog, rfl⟩
  · refine ⟨?_, ?_, fun hfalse => by cases hfalse⟩
    · show true = _
      rw [htable]
      rfl
    · show Shape st.table _ s.completed st.integrated false
      rw [htable, hint, hsent]
      refine Shape.incomplete _ _ _ _ rfl fun received heq => ?_
      cases heq
      rfl
  · refine ⟨?_, ?_, fun _ => rfl⟩
    · show true = _
      rw [htable]
      rfl
    · show Shape st.table none (s.completed ++ _) st.integrated true
      rw [htable, hint, hsent]
      have hshape := Shape.complete (C := C)
        ⟨message.queryVersion, progress, soFar ++ message.changesets⟩
        s.completed [] hprog fun _ => rfl
      rw [List.append_nil] at hshape
      exact hshape

/-- The step from `s` to `s'` integrates the last changesets, and so all,
of the completed bootstrap of query version `v`. -/
def IntegratesLast (s s' : Session C) (v : Int) : Prop :=
  ∃ before done batch, s.completed = before ++ [(v, done ++ batch)]
    ∧ s.client.store.integrated = before.flatMap Prod.snd ++ done
    ∧ s'.client.store.integrated
      = before.flatMap Prod.snd ++ (done ++ batch)
    ∧ (batch = [] → done = [])

section

variable (hgood : Good s)

include hgood

/-- The last turn finds nothing pending. -/
theorem Good.turn_end (hproc : s.client.processing = true)
    (hnone : s.client.hasPending = false) :
    Good { s with client.processing := false } := by
  have hpending := hgood.hasPending
  refine ⟨hpending, ?_, fun hfalse => by cases hfalse⟩
  show Shape s.client.store.table s.current s.completed
    s.client.store.integrated false
  rcases hgood.shape.inv with ⟨htable, -, hint⟩ | ⟨obj, htable, -⟩
    | ⟨obj, before, done, htable, -⟩
  · rw [htable, hgood.idle hproc, hint]
    exact .empty _ _
  · rw [hnone, htable] at hpending
    cases hpending
  · rw [hnone, htable] at hpending
    cases hpending

/-- A turn clears an incomplete bootstrap, of which nothing has been
integrated. -/
theorem Good.turn_clear (hproc : s.client.processing = true)
    (htable : s.client.store.table = [obj]) (hprog : obj.progress = none)
    (subs : SubscriptionSets) :
    Good { s with client := ⟨{ s.client.store with
      table := [], subs := subs }, false, false⟩ } := by
  have hcur := hgood.idle hproc
  refine ⟨rfl, ?_, fun _ => hcur⟩
  show Shape [] s.current s.completed s.client.store.integrated false
  rcases hgood.shape.inv with ⟨hnil, -⟩ | ⟨obj', -, -, hint, -⟩
    | ⟨obj', before, done, hobj, hsome, -⟩
  · rw [htable] at hnil
    cases hnil
  · rw [hcur, hint]
    exact .empty _ _
  · rw [htable] at hobj
    cases hobj
    rw [hprog] at hsome
    cases hsome

/-- A complete bootstrap in the table, against what was sent. -/
theorem Good.complete_inv {progress : SyncProgress}
    (htable : s.client.store.table = [obj])
    (hprog : obj.progress = some progress) :
    ∃ before done,
      s.completed = before ++ [(obj.queryVersion, done ++ obj.changesets)]
      ∧ s.client.store.integrated = before.flatMap Prod.snd ++ done
      ∧ (obj.changesets = [] → done = []) := by
  rcases hgood.shape.inv with ⟨hnil, -⟩ | ⟨obj', hobj, hnone, -⟩
    | ⟨obj', before, done, hobj, -, -, -, hcompl, hint, hbegun⟩
  · rw [htable] at hnil
    cases hnil
  · rw [htable] at hobj
    cases hobj
    rw [hprog] at hnone
    cases hnone
  · rw [htable] at hobj
    cases hobj
    exact ⟨before, done, hcompl, hint, hbegun⟩

/-- A turn of the loop keeps the invariant. A subscription set that waits
for its mark afterwards was waiting before, or the turn integrated the
last changeset of its bootstrap. -/
theorem turn_good (hproc : s.client.processing = true)
    (h : s.client.processTurn size limit = some c) :
    Good { s with client := c }
      ∧ ∀ v, c.store.subs.lookup v = some .awaitingMark
        → s.client.store.subs.lookup v = some .awaitingMark
          ∨ IntegratesLast s { s with client := c } v := by
  have hcur := hgood.idle hproc
  rcases processTurn_cases h with ⟨hnone, rfl⟩
    | ⟨obj, subs, htable, hprog, hsubs, rfl⟩
    | ⟨obj, progress, batch, rest, st, htable, hprog, hsplit, hbatch,
      hpop, htable', hsubs', hint', hpend', hproc'⟩
  · exact ⟨hgood.turn_end hproc hnone, fun _ => Or.inl⟩
  · refine ⟨hgood.turn_clear hproc htable hprog subs, fun v hv => .inl ?_⟩
    rcases doCompleteBootstrap_awaitingMark hsubs hv with hv | ⟨-, hv⟩
    · exact hv
    · cases hv
  · obtain ⟨before, done, hcompl, hint, hbegun⟩ :=
      hgood.complete_inv htable hprog
    rw [hint, List.append_assoc] at hint'
    have hgood' : ∀ hshape : Shape c.store.table s.current s.completed
        c.store.integrated c.processing, Good { s with client := c } :=
      fun hshape => ⟨htable' ▸ hpend', hshape, fun _ => hcur⟩
    rcases popFrontPending_cases hsplit hpop with
      ⟨rfl, subs, hsubs, rfl⟩ | ⟨hrest, rfl⟩
    · -- The last changesets: the object is removed.
      rw [List.append_nil] at hsplit
      rw [hsplit] at hcompl
      constructor
      · refine hgood' ?_
        rw [htable', hcur, hint', hcompl]
        have hshape := Shape.empty (before ++ [(obj.queryVersion,
          done ++ batch)]) c.processing
        rw [List.flatMap_append, List.flatMap_singleton] at hshape
        exact hshape
      · intro v hv
        rw [hsubs'] at hv
        rcases doCompleteBootstrap_awaitingMark hsubs hv with
          hv | ⟨rfl, -⟩
        · exact .inl hv
        · refine .inr ⟨before, done, batch, hcompl, hint, hint', ?_⟩
          exact fun hnil => hbegun (hbatch hnil)
    · -- Some are left, and stay in the table.
      constructor
      · refine hgood' ?_
        rw [htable', hcur, hint', hcompl, hproc', hproc, hsplit,
          ← List.append_assoc]
        refine Shape.complete { obj with changesets := rest } before
          (done ++ batch) ?_ fun hnil => absurd hnil hrest
        show obj.progress.isSome = true
        rw [hprog]
        rfl
      · intro v hv
        rw [hsubs'] at hv
        exact .inl hv

-- ===== runs

/-- Every event keeps the invariant, and a subscription set begins to
wait for its mark only with the last changeset of its bootstrap. -/
theorem step_good {event : Event C}
    (hfresh : Fresh s event) (h : s.step size limit event = some s') :
    Good s' ∧ ∀ v, s'.client.store.subs.lookup v = some .awaitingMark
        → s.client.store.subs.lookup v = some .awaitingMark
          ∨ IntegratesLast s s' v := by
  cases event with
  | subscribe version =>
    simp only [Session.step] at h
    split at h
    · cases h
    · cases h
      refine ⟨⟨hgood.hasPending, hgood.shape, hgood.idle⟩, ?_⟩
      intro v hv
      rw [List.lookup_append] at hv
      rcases Option.or_eq_some_iff.1 hv with hv | ⟨-, hv⟩
      · exact .inl hv
      · rw [List.lookup_cons] at hv
        split at hv <;> cases hv
  | batch first message =>
    refine ⟨receive_good hgood hfresh h, fun v hv => .inl ?_⟩
    obtain ⟨hproc, soFar, st, progress, hsoFar, hadd, hcase⟩ :=
      receive_cases h
    obtain ⟨-, -, -, hmark⟩ :=
      addBatch_shape hproc hgood hfresh hsoFar hadd
    apply hmark
    rcases hcase with ⟨-, rfl⟩ | ⟨-, rfl⟩
    · exact hv
    · exact hv
  | turn =>
    simp only [Session.step] at h
    split at h
    · rename_i hproc
      obtain ⟨c, hc, rfl⟩ := Option.map_eq_some_iff.1 h
      exact turn_good hgood hproc hc
    · cases h
  | lose =>
    cases h
    refine ⟨⟨hgood.hasPending, ?_, fun _ => rfl⟩, fun _ => Or.inl⟩
    exact hgood.shape.lose
  | restart =>
    cases h
    refine ⟨⟨rfl, hgood.shape.lose.start, fun _ => rfl⟩, fun _ => Or.inl⟩
  | resume =>
    simp only [Session.step] at h
    split at h
    · cases h
    · cases h
      exact ⟨⟨hgood.hasPending, hgood.shape.lose.start,
        fun _ => rfl⟩, fun _ => Or.inl⟩
  | downloadComplete version =>
    simp only [Session.step] at h
    split at h
    · cases h
      refine ⟨⟨hgood.hasPending, hgood.shape, hgood.idle⟩,
        fun v hv => .inl ?_⟩
      rw [lookup_setState] at hv
      split at hv
      · obtain ⟨st, -, hst⟩ := Option.map_eq_some_iff.1 hv
        cases hst
      · exact hv
    · cases h

end

/-- What has been integrated comes from bootstraps that arrived whole, in
order and each changeset once; and it is all of them when the loop is
not running. -/
structure IntegratedWhole (s : Session C) : Prop where
  integrated_prefix : s.client.store.integrated <+: s.sent
  integrated_eq : s.client.processing = false
    → s.client.store.integrated = s.sent

theorem Good.integratedWhole (h : Good s) : IntegratedWhole s := by
  rcases h.shape.inv with ⟨-, -, hint⟩ | ⟨obj, -, -, hint, -⟩
    | ⟨obj, before, done, -, -, -, hproc, hcompl, hint, -⟩
  · exact ⟨hint ▸ List.prefix_rfl, fun _ => hint⟩
  · exact ⟨hint ▸ List.prefix_rfl, fun _ => hint⟩
  · refine ⟨?_, fun hidle => ?_⟩
    · unfold Session.sent
      rw [hint, hcompl, List.flatMap_append, List.flatMap_singleton,
        List.prefix_append_right_inj]
      exact List.prefix_append _ _
    · rw [hproc] at hidle
      cases hidle

theorem good_start (subs : SubscriptionSets) (progress : SyncProgress) :
    Good (Session.start (C := C) subs progress) :=
  ⟨rfl, .empty [] false, fun _ => rfl⟩

/-- In every run in which no bootstrap begins while batches of its query
version are stored, bootstraps are integrated whole or not at all, and a
subscription set begins to wait for its mark in the step that integrates
the last changeset of its bootstrap. -/
theorem pendingBootstraps_whole (size : C → Nat) (limit : Nat)
    (subs : SubscriptionSets) (progress : SyncProgress) {s : Session C}
    (hrun : Run (Session.step size limit) Fresh
      (Session.start subs progress) s) :
    IntegratedWhole s
      ∧ ∀ event s', Fresh s event → s.step size limit event = some s'
        → ∀ v, s.client.store.subs.lookup v ≠ some .awaitingMark
          → s'.client.store.subs.lookup v = some .awaitingMark
          → IntegratesLast s s' v := by
  have hgood : Good s := hrun.invariant (good_start subs progress)
    fun t event u ht hfresh hstep => (step_good ht hfresh hstep).1
  refine ⟨hgood.integratedWhole, ?_⟩
  intro event s' hfresh hstep v hbefore hafter
  exact ((step_good hgood hfresh hstep).2 v hafter).resolve_left hbefore

end

/-- A bootstrap in two batches of the changesets 1 and 2, for the query
version 1. -/
private def batchOf (changesets : List Nat)
    (batchState : DownloadBatchState) : DownloadMessage Nat :=
  ⟨1, batchState, {}, changesets⟩

/-- A bootstrap is interrupted, the client restarts, the bootstrap is
sent again and integrated in two turns with a restart between. -/
private def interruptedThenRestarted : List (Event Nat) :=
  [.batch true (batchOf [1] .moreToCome), .lose, .restart, .turn,
    .batch true (batchOf [1] .moreToCome),
    .batch false (batchOf [2] .lastInBatch), .turn, .restart, .turn, .turn]

/-- The interrupted bootstrap leaves nothing behind. -/
theorem pendingBootstraps_whole_restarted :
    ∃ s, exec (Session.step (fun _ => 1) 1)
        (Session.start [(1, .pending)] {}) interruptedThenRestarted = some s
      ∧ s.client.store.integrated = [1, 2] ∧ IntegratedWhole s :=
  ⟨_, rfl, by decide, (pendingBootstraps_whole (fun _ => 1) 1
    [(1, .pending)] {} (@run_of_exec _ _ _ _ _ _
      interruptedThenRestarted rfl (by decide))).1⟩

/-- A bootstrap is interrupted and sent again on the next connection. -/
private def interruptedThenSentAgain : List (Event Nat) :=
  [.batch true (batchOf [1] .moreToCome), .lose,
    .batch true (batchOf [1] .moreToCome),
    .batch false (batchOf [2] .lastInBatch), .turn, .turn]

/-- The batch of the interrupted bootstrap is integrated as well: the
changeset 1 twice. -/
theorem interrupted_bootstrap_integrated :
    ∃ s, exec (Session.step (fun _ => 1) 1024)
        (Session.start [(1, .pending)] {}) interruptedThenSentAgain = some s
      ∧ s.client.processing = false ∧ s.completed = [(1, [1, 2])]
      ∧ s.client.store.integrated = [1, 1, 2] :=
  ⟨_, rfl, by decide, by decide, by decide⟩

end BarqSync.Client
