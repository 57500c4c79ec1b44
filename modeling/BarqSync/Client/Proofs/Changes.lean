/-
What an event can do to the client's stores.

`Change s s'` lists what an event does to the stores when it fails no
assertion: it adds a set, begins, continues, cancels or finishes a
bootstrap, or changes the state of one set. `apply_cases` says that an
event that meets the condition throws or makes such a change.
-/
import BarqSync.Client.Subscriptions
import BarqSync.Client.Proofs.Bootstrap
import Mathlib.Data.List.MinMax
import Mathlib.Data.List.Nodup

namespace BarqSync.Client

open SubscriptionStore Sys

variable {C : Type} {subs : SubscriptionSets} {v w : Int}
  {state : SubscriptionState} {ofState : SubscriptionState → Bool}

-- ===== subscription sets

theorem mem_versions : v ∈ versions subs ↔ ∃ state, (v, state) ∈ subs := by
  simp [versions]

/-- With distinct versions a lookup finds the set. -/
theorem lookup_eq_some (h : (versions subs).Nodup) :
    subs.lookup v = some state ↔ (v, state) ∈ subs := by
  induction subs with
  | nil => simp
  | cons set subs ih =>
    obtain ⟨w, st⟩ := set
    have hcons : versions ((w, st) :: subs) = w :: versions subs := rfl
    rw [hcons, List.nodup_cons] at h
    rw [List.lookup_cons, List.mem_cons]
    by_cases hv : v = w
    · subst hv
      rw [beq_self_eq_true]
      constructor
      · intro heq
        cases heq
        exact .inl rfl
      · intro hmem
        rcases hmem with heq | hmem
        · cases heq
          rfl
        · exact absurd (mem_versions.2 ⟨_, hmem⟩) h.1
    · rw [beq_eq_false_iff_ne.2 hv]
      show subs.lookup v = some state ↔ _
      rw [ih h.2]
      refine (or_iff_right ?_).symm
      intro heq
      cases heq
      exact hv rfl

theorem versions_setState : versions (subs.setState v state)
    = versions subs := by
  unfold versions SubscriptionSets.setState
  rw [List.map_map]
  refine List.map_congr_left fun set _ => ?_
  show (if set.1 = v then (v, state) else set).1 = set.1
  split
  · exact ‹set.1 = v›.symm
  · rfl

theorem mem_setState {st : SubscriptionState} :
    (w, st) ∈ subs.setState v state
      ↔ w = v ∧ st = state ∧ v ∈ versions subs
        ∨ w ≠ v ∧ (w, st) ∈ subs := by
  unfold SubscriptionSets.setState
  rw [List.mem_map, mem_versions]
  constructor
  · intro h
    obtain ⟨⟨u, su⟩, hmem, heq⟩ := h
    simp only at heq
    split at heq
    · rename_i hu
      cases heq
      exact .inl ⟨rfl, rfl, su, hu ▸ hmem⟩
    · rename_i hu
      cases heq
      exact .inr ⟨hu, hmem⟩
  · intro h
    rcases h with ⟨rfl, rfl, su, hmem⟩ | ⟨hne, hmem⟩
    · exact ⟨(w, su), hmem, by simp⟩
    · exact ⟨(w, st), hmem, by simp [hne]⟩

theorem maxVersion_eq_some : maxVersion subs ofState = some v
      ↔ (∃ st, (v, st) ∈ subs ∧ ofState st = true)
        ∧ ∀ u st, (u, st) ∈ subs → ofState st = true → u ≤ v := by
  unfold maxVersion
  rw [List.max?_eq_some_iff]
  simp only [mem_versions, List.mem_filter]
  exact and_congr_right fun _ =>
    ⟨fun h u st hmem hst => h u ⟨st, hmem, hst⟩,
      fun h u hex => hex.elim fun st hst => h u st hst.1 hst.2⟩

theorem maxVersion_eq_none : maxVersion subs ofState = none
      ↔ ∀ u st, (u, st) ∈ subs → ofState st = false := by
  unfold maxVersion versions
  rw [List.max?_eq_none_iff, List.map_eq_nil_iff, List.filter_eq_nil_iff]
  simp

-- ===== the invariant

/-- The version that `get_active` reports. -/
def activeVersion (subs : SubscriptionSets) : Int :=
  (maxVersion subs isActive).getD 0

/-- A set of this version was bootstrapped. -/
def Bootstrapped (subs : SubscriptionSets) (v : Int) : Prop :=
  ∃ state, (v, state) ∈ subs ∧ isActive state = true

theorem activeVersion_eq (hmem : Bootstrapped subs v)
    (hmax : ∀ u, Bootstrapped subs u → u ≤ v) :
    activeVersion subs = v := by
  have hsome : maxVersion subs isActive = some v :=
    maxVersion_eq_some.2 ⟨hmem, fun u st hu hst => hmax u ⟨st, hu, hst⟩⟩
  unfold activeVersion
  rw [hsome]
  rfl

theorem activeVersion_none (hnone : ∀ u, ¬ Bootstrapped subs u) :
    activeVersion subs = 0 := by
  have : maxVersion subs isActive = none := by
    refine maxVersion_eq_none.2 fun u st hu => ?_
    rw [← Bool.not_eq_true]
    exact fun hst => hnone u ⟨st, hu, hst⟩
  unfold activeVersion
  rw [this]
  rfl

/-- The active version is one of a set that was bootstrapped, if there is
any. -/
theorem activeVersion_cases (subs : SubscriptionSets) :
    (∀ u, ¬ Bootstrapped subs u) ∧ activeVersion subs = 0
      ∨ Bootstrapped subs (activeVersion subs) := by
  cases hmax : maxVersion subs isActive with
  | none =>
    have hnone : ∀ u, ¬ Bootstrapped subs u := by
      intro u hu
      obtain ⟨st, hmem, hst⟩ := hu
      rw [maxVersion_eq_none.1 hmax u st hmem] at hst
      cases hst
    exact .inl ⟨hnone, activeVersion_none hnone⟩
  | some v =>
    right
    unfold activeVersion
    rw [hmax]
    exact (maxVersion_eq_some.1 hmax).1

theorem activeVersion_congr {subs' : SubscriptionSets}
    (h : ∀ u, Bootstrapped subs' u ↔ Bootstrapped subs u) :
    activeVersion subs' = activeVersion subs := by
  unfold activeVersion
  congr 1
  ext v
  rw [maxVersion_eq_some, maxVersion_eq_some]
  refine and_congr (h v) ?_
  constructor
  · intro hmax u st hmem hst
    obtain ⟨st', hmem', hst'⟩ := (h u).2 ⟨st, hmem, hst⟩
    exact hmax u st' hmem' hst'
  · intro hmax u st hmem hst
    obtain ⟨st', hmem', hst'⟩ := (h u).1 ⟨st, hmem, hst⟩
    exact hmax u st' hmem' hst'

theorem bootstrapped_setState {old : SubscriptionState}
    (hdistinct : (versions subs).Nodup) (hmem : (v, old) ∈ subs)
    (hsame : isActive state = isActive old) :
    Bootstrapped (subs.setState v state) w ↔ Bootstrapped subs w := by
  unfold Bootstrapped
  simp only [mem_setState]
  constructor
  · intro h
    obtain ⟨st, ⟨rfl, rfl, -⟩ | ⟨-, hst⟩, hactive⟩ := h
    · exact ⟨old, hmem, hsame ▸ hactive⟩
    · exact ⟨st, hst, hactive⟩
  · intro h
    obtain ⟨st, hst, hactive⟩ := h
    by_cases hw : w = v
    · subst hw
      have heq := (lookup_eq_some hdistinct).2 hst
      rw [(lookup_eq_some hdistinct).2 hmem] at heq
      cases heq
      exact ⟨state, .inl ⟨rfl, rfl, mem_versions.2 ⟨_, hmem⟩⟩,
        hsame ▸ hactive⟩
    · exact ⟨st, .inr ⟨hw, hst⟩, hactive⟩

namespace FlxStores

/-- What holds in every state reached. -/
structure Safe (s : FlxStores C) : Prop where
  distinct : (versions s.subs).Nodup
  nonneg : ∀ v ∈ versions s.subs, 0 ≤ v
  /-- A set that was bootstrapped is the oldest one. -/
  oldest : ∀ v state, (v, state) ∈ s.subs → isActive state = true
    → ∀ w ∈ versions s.subs, v ≤ w
  existing : activeVersion s.subs ∈ versions s.subs
  pending : s.hasPending = !s.table.isEmpty
  single : s.table.length ≤ 1
  /-- The set of the pending bootstrap. -/
  held : ∀ obj ∈ s.table, ∃ state, (obj.queryVersion, state) ∈ s.subs
    ∧ (state = .bootstrapping ∨ isActive state = true)
  bootstrapping : ∀ v, (v, .bootstrapping) ∈ s.subs
    → ∃ obj ∈ s.table, obj.queryVersion = v
  finished : ∀ v state, (v, state) ∈ s.subs → isActive state = true
    → v ∈ s.finished

/-- The condition on an event: a batch does not abandon a first bootstrap
for another query version, unless it is refused, and a query error is not
for a set whose bootstrap is pending, nor for the active set, except the
zeroth. -/
def Expected (s : FlxStores C) : Event C → Prop
  | .batch queryVersion _ _ => ∀ obj ∈ s.table,
    obj.queryVersion ≠ queryVersion
      → s.subs.lookup obj.queryVersion = some .bootstrapping
      → s.subs.lookup queryVersion = none
        ∨ s.subs.lookup queryVersion = some .error
  | .queryError queryVersion =>
    s.subs.lookup queryVersion ≠ some .bootstrapping
    ∧ (s.subs.lookup queryVersion = some .awaitingMark → queryVersion = 0
      ∧ ∀ obj ∈ s.table, obj.queryVersion ≠ 0)
  | _ => True

/-- What an event can do to the stores. -/
inductive Change (s : FlxStores C) : FlxStores C → Prop
  /-- Only the loop starts or ends. -/
  | loop (processing : Bool) :
    Change s { s with processing := processing }
  | added (latest : Int) (hmem : latest ∈ versions s.subs)
      (hmax : ∀ v ∈ versions s.subs, v ≤ latest) :
    Change s { s with subs := s.subs ++ [(latest + 1, .pending)] }
  /-- The first bootstrap of a set begins. -/
  | began (obj : PendingBootstrap C) (processing : Bool)
      (hpending : (obj.queryVersion, .pending) ∈ s.subs)
      (hnone : ∀ v, (v, .bootstrapping) ∉ s.subs) :
    Change s { s with
      table := [obj]
      subs := s.subs.setState obj.queryVersion .bootstrapping
      hasPending := true, processing := processing }
  /-- A bootstrap of the same set goes on, or a new one of a set that was
  bootstrapped begins. -/
  | continued (obj : PendingBootstrap C) (processing : Bool)
      (hstate : ∃ state, (obj.queryVersion, state) ∈ s.subs
        ∧ (state = .bootstrapping ∨ isActive state = true))
      (honly : ∀ v, (v, .bootstrapping) ∈ s.subs
        → v = obj.queryVersion) :
    Change s { s with
      table := [obj], hasPending := true, processing := processing }
  /-- A first bootstrap is cancelled. -/
  | cancelled (v : Int) (hboot : (v, .bootstrapping) ∈ s.subs)
      (honly : ∀ w, (w, .bootstrapping) ∈ s.subs → w = v) :
    Change s { s with
      table := [], subs := s.subs.setState v .pending
      hasPending := false, processing := false }
  /-- A first bootstrap is finished. -/
  | completed (v : Int) (hboot : (v, .bootstrapping) ∈ s.subs)
      (honly : ∀ w, (w, .bootstrapping) ∈ s.subs → w = v) :
    Change s { s with
      table := []
      subs := (s.subs.setState v .awaitingMark).filter
        fun set => ¬ set.1 < v
      hasPending := false, finished := v :: s.finished }
  /-- Another bootstrap of a set is cancelled. -/
  | dropped (hnone : ∀ v, (v, .bootstrapping) ∉ s.subs) :
    Change s { s with
      table := [], hasPending := false, processing := false }
  /-- Another bootstrap of a set is finished. -/
  | repeated (v : Int) (state : SubscriptionState)
      (hstate : (v, state) ∈ s.subs) (hactive : isActive state = true)
      (hnone : ∀ v, (v, .bootstrapping) ∉ s.subs) :
    Change s { s with
      table := [], hasPending := false, finished := v :: s.finished }
  | marked (v : Int) (hstate : (v, .awaitingMark) ∈ s.subs) :
    Change s { s with subs := s.subs.setState v .complete }
  | failed (v : Int) (state : SubscriptionState)
      (hstate : (v, state) ∈ s.subs) (hboot : state ≠ .bootstrapping)
      (hactive : isActive state = true → v = 0
        ∧ ∀ obj ∈ s.table, obj.queryVersion ≠ 0) :
    Change s { s with subs := s.subs.setState v .error }

-- ===== what an event does

variable {s s' : FlxStores C} {event : Event C} {obj : PendingBootstrap C}

section

variable (h : Safe s)

include h

theorem Safe.not_isEmpty : s.subs.isEmpty = false := by
  cases hsubs : s.subs with
  | nil =>
    have := h.existing
    rw [hsubs] at this
    cases this
  | cons set subs => rfl

/-- The pending bootstrap is the only one. -/
theorem Safe.table_cases : s.table = [] ∧ s.hasPending = false
      ∨ ∃ obj, s.table = [obj] ∧ s.hasPending = true := by
  have hp := h.pending
  have hs := h.single
  cases htable : s.table with
  | nil => exact .inl ⟨rfl, by simpa [htable] using hp⟩
  | cons obj rest =>
    rw [htable, List.length_cons] at hs
    have hrest : rest = [] := List.length_eq_zero_iff.1 (by omega)
    exact .inr ⟨obj, by rw [hrest], by simpa [htable] using hp⟩

theorem Safe.only_bootstrapping (htable : s.table = [obj]) :
    ∀ v, (v, .bootstrapping) ∈ s.subs → v = obj.queryVersion := by
  intro v hv
  obtain ⟨obj', hobj', heq⟩ := h.bootstrapping v hv
  rw [htable, List.mem_singleton] at hobj'
  rw [← heq, hobj']

theorem Safe.table_of_bootstrapping (hv : (v, .bootstrapping) ∈ s.subs) :
    ∃ obj, s.table = [obj] ∧ obj.queryVersion = v := by
  obtain ⟨obj, hobj, hversion⟩ := h.bootstrapping v hv
  rcases h.table_cases with ⟨htable, -⟩ | ⟨obj', htable, -⟩
  · rw [htable] at hobj
    cases hobj
  · exact ⟨obj', htable, (h.only_bootstrapping htable v hv).symm⟩

/-- No set is bootstrapping when the set of the pending bootstrap was
bootstrapped before. -/
theorem Safe.none_bootstrapping (htable : s.table = [obj])
    (hstate : (obj.queryVersion, state) ∈ s.subs)
    (hactive : isActive state = true) :
    ∀ v, (v, .bootstrapping) ∉ s.subs := by
  intro v hv
  have heq := h.only_bootstrapping htable v hv
  rw [heq, ← lookup_eq_some h.distinct] at hv
  rw [← lookup_eq_some h.distinct, hv] at hstate
  cases hstate
  cases hactive

theorem Safe.getActive_eq : ∃ state, (activeVersion s.subs, state) ∈ s.subs
      ∧ getActive s.subs = .ok (some (activeVersion s.subs, state)) := by
  obtain ⟨state, hmem⟩ := mem_versions.1 h.existing
  refine ⟨state, hmem, ?_⟩
  unfold getActive
  rw [if_neg (by simp [h.not_isEmpty])]
  show Except.ok ((s.subs.lookup (activeVersion s.subs)).map _) = _
  rw [(lookup_eq_some h.distinct).2 hmem]
  rfl

theorem Safe.exists_latest : ∃ latest, (versions s.subs).max?
    = some latest := by
  have hne : versions s.subs ≠ [] := List.ne_nil_of_mem h.existing
  exact Option.ne_none_iff_exists'.1 (mt List.max?_eq_none_iff.1 hne)

theorem Safe.commit : ∃ s', s.apply .commit = .ok s' ∧ Change s s' := by
  obtain ⟨latest, hlatest⟩ := h.exists_latest
  refine ⟨{ s with subs := s.subs ++ [(latest + 1, .pending)] }, ?_, ?_⟩
  · simp only [apply, SubscriptionStore.commit, getLatest, hlatest]
    rfl
  · rw [List.max?_eq_some_iff] at hlatest
    exact .added latest hlatest.1 hlatest.2

theorem Safe.batch {queryVersion : Int}
    {progress : Option SyncProgress} {changesets : List C}
    (hok : s.Expected (.batch queryVersion progress changesets)) :
    s.addBatch queryVersion progress changesets = .error .thrown
      ∨ ∃ s', s.addBatch queryVersion progress changesets = .ok s'
        ∧ Change s s' := by
  unfold addBatch
  by_cases hother : ∀ obj ∈ s.table, obj.queryVersion ≠ queryVersion
  · -- the pending bootstrap, if any, is for another query version
    rw [addBatch_new hother]
    unfold beginBootstrap
    rw [if_neg (by simp [h.not_isEmpty])]
    have hnone : s.subs.lookup queryVersion ≠ none
        → s.subs.lookup queryVersion ≠ some .error
        → ∀ v, (v, .bootstrapping) ∉ s.subs := by
      intro hne hne' v hv
      obtain ⟨obj, hobj, rfl⟩ := h.bootstrapping v hv
      rcases hok obj hobj (hother obj hobj)
        ((lookup_eq_some h.distinct).2 hv) with hl | hl
      · exact hne hl
      · exact hne' hl
    cases hlookup : s.subs.lookup queryVersion with
    | none => exact .inl rfl
    | some state =>
      have hmem := (lookup_eq_some h.distinct).1 hlookup
      rw [hlookup] at hnone
      cases state with
      | error => exact .inl rfl
      | bootstrapping =>
        obtain ⟨obj, hobj, heq⟩ := h.bootstrapping queryVersion hmem
        exact absurd heq (hother obj hobj)
      | pending =>
        exact .inr ⟨_, rfl, .began ⟨queryVersion, progress, changesets⟩
          progress.isSome hmem (hnone (by simp) (by simp))⟩
      | complete | awaitingMark =>
        exact .inr ⟨_, rfl, .continued ⟨queryVersion, progress, changesets⟩
          progress.isSome ⟨_, hmem, .inr rfl⟩
          fun v hv => absurd hv (hnone (by simp) (by simp) v)⟩
  · rcases h.table_cases with ⟨htable, -⟩ | ⟨obj, htable, -⟩
    · simp [htable] at hother
    · obtain rfl : obj.queryVersion = queryVersion := by
        by_contra hne
        simp [htable, hne] at hother
      rw [htable, addBatch_same]
      exact .inr ⟨_, rfl, .continued { obj with
          progress := progress.or obj.progress
          changesets := obj.changesets ++ changesets } progress.isSome
        (h.held obj (by simp [htable]))
        fun v hv => h.only_bootstrapping htable v hv⟩

theorem Safe.turn {count : ℕ}
    (hcount : ∀ obj ∈ s.table, count ≤ obj.changesets.length) :
    ∃ s', s.turn count = .ok s' ∧ Change s s' := by
  unfold FlxStores.turn
  rcases h.table_cases with ⟨htable, hp⟩ | ⟨obj, htable, hp⟩
  · rw [if_pos (by simp [hp])]
    exact ⟨_, rfl, .loop false⟩
  rw [if_neg (by simp [hp]), if_neg (by simp [htable]), htable]
  simp only [List.head?_cons, Option.elim_some]
  obtain ⟨state, hmem, hstate⟩ := h.held obj (by simp [htable])
  have hlookup := (lookup_eq_some h.distinct).2 hmem
  have honly := h.only_bootstrapping htable
  -- the outcome for the set of the pending bootstrap
  have hcomplete : ∀ newState : SubscriptionState,
      doCompleteBootstrap s.subs obj.queryVersion
          newState
        = completeFrom s.subs obj.queryVersion newState state := by
    intro newState
    unfold doCompleteBootstrap
    rw [if_neg (by simp [h.not_isEmpty]), hlookup]
    rfl
  have hactive : state ≠ .bootstrapping
      → ∀ newState, completeFrom s.subs obj.queryVersion newState state
        = .ok s.subs := by
    intro hne newState
    rcases hstate with rfl | hstate
    · exact absurd rfl hne
    · cases state <;> first | rfl | cases hstate
  by_cases hprogress : obj.progress.isNone = true
  · rw [if_pos hprogress, FlxStores.clear, PendingBootstrapStore.clear,
      if_pos hp, cancelBootstrap, hcomplete]
    by_cases hboot : state = .bootstrapping
    · subst hboot
      exact ⟨_, rfl, .cancelled _ hmem honly⟩
    · rw [hactive hboot]
      exact ⟨_, rfl, .dropped (h.none_bootstrapping htable hmem
        (hstate.resolve_left hboot))⟩
  · rw [if_neg hprogress, FlxStores.popFrontPending,
      PendingBootstrapStore.popFrontPending, if_neg (by have := hcount obj (by simp [htable]); omega)]
    by_cases hall : obj.changesets.length = count
    · rw [if_pos hall, completeBootstrap, hcomplete]
      by_cases hboot : state = .bootstrapping
      · subst hboot
        exact ⟨_, rfl, .completed _ hmem honly⟩
      · rw [hactive hboot]
        exact ⟨_, rfl, .repeated _ state hmem (hstate.resolve_left hboot)
          (h.none_bootstrapping htable hmem (hstate.resolve_left hboot))⟩
    · rw [if_neg hall]
      exact ⟨_, rfl, .continued { obj with
          changesets := obj.changesets.drop count }
        s.processing ⟨state, hmem, hstate⟩ honly⟩

/-- An event that meets the condition throws, or makes a change. -/
theorem Safe.apply_cases (henabled : s.enabled event = true)
    (hok : s.Expected event) :
    s.apply event = .error .thrown
      ∨ ∃ s', s.apply event = .ok s' ∧ Change s s' := by
  cases event with
  | commit => exact .inr h.commit
  | batch queryVersion progress changesets => exact h.batch hok
  | turn count =>
    refine .inr (h.turn ?_)
    simp only [enabled, decide_eq_true_eq] at henabled
    exact henabled.2
  | abort => exact .inr ⟨_, rfl, .loop false⟩
  | resume => exact .inr ⟨_, rfl, .loop true⟩
  | restart =>
    have hsame : { s with
        hasPending := !s.table.isEmpty, processing := true }
        = { s with processing := true } := by rw [← h.pending]
    exact .inr ⟨_, rfl, hsame ▸ .loop true⟩
  | mark =>
    obtain ⟨state, hmem, hget⟩ := h.getActive_eq
    simp only [apply, downloadComplete, hget]
    by_cases hmark : state = .awaitingMark
    · subst hmark
      exact .inr ⟨_, rfl, .marked _ hmem⟩
    · refine .inr ⟨s, ?_, .loop s.processing⟩
      show Except.map _ (if state ≠ .awaitingMark then _ else _) = _
      rw [if_pos hmark]
      rfl
  | queryError queryVersion =>
    simp only [apply, setError]
    cases hlookup : s.subs.lookup queryVersion with
    | none => exact .inl rfl
    | some state =>
      have hmem := (lookup_eq_some h.distinct).1 hlookup
      simp only [Expected, hlookup] at hok
      by_cases hdone : state = .complete
      · left
        show Except.map _ (if state = .complete then _ else _) = _
        rw [if_pos hdone]
        rfl
      · refine .inr ⟨_, ?_, .failed queryVersion state hmem
          (fun heq => hok.1 (by rw [heq])) ?_⟩
        · show Except.map _ (if state = .complete then _ else _) = _
          rw [if_neg hdone]
          rfl
        · intro hactive
          cases state <;> try cases hactive
          · exact absurd rfl hdone
          · obtain ⟨rfl, hother⟩ := hok.2 rfl
            exact ⟨rfl, hother⟩

end

end FlxStores

end BarqSync.Client
