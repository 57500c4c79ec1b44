/-
The subscription state machine. The invariant (`Safe`), the order of the
active versions and the deletions follow from what a `Change` is,
constructor by constructor.

# The condition

A batch of another query version leaves the set of the bootstrap that it
abandons in the state Bootstrapping, and a query error may hit a set
whose bootstrap is pending, or the active set. `Expected` excludes both.
-/
import BarqSync.Client.Proofs.Changes

namespace BarqSync.Client

open SubscriptionStore Sys

namespace FlxStores

variable {C : Type} {v w : Int} {s s' : FlxStores C} {event : Event C}
  {obj : PendingBootstrap C}

-- ===== a change is safe

section

variable (h : Safe s)

include h

theorem Safe.state_unique {st st' : SubscriptionState}
    (hst : (v, st) ∈ s.subs) (hst' : (v, st') ∈ s.subs) : st = st' := by
  have heq := (lookup_eq_some h.distinct).2 hst
  rw [(lookup_eq_some h.distinct).2 hst'] at heq
  exact (Option.some.inj heq).symm

/-- The active set is the oldest one. -/
theorem Safe.active_le (hv : v ∈ versions s.subs) :
    activeVersion s.subs ≤ v := by
  rcases activeVersion_cases s.subs with ⟨-, hzero⟩ | ⟨st, hmem, hst⟩
  · rw [hzero]
    exact h.nonneg v hv
  · exact h.oldest _ st hmem hst v hv

/-- The invariant after a change that keeps the versions, and makes none
of them a bootstrapped one. -/
theorem Safe.of_sets (hversions : versions s'.subs = versions s.subs)
    (hactive : ∀ u, Bootstrapped s'.subs u → Bootstrapped s.subs u)
    (hexisting : activeVersion s'.subs ∈ versions s'.subs)
    (hfinished : s.finished ⊆ s'.finished)
    (hpending : s'.hasPending = !s'.table.isEmpty)
    (hsingle : s'.table.length ≤ 1)
    (hheld : ∀ obj ∈ s'.table, ∃ st, (obj.queryVersion, st) ∈ s'.subs
      ∧ (st = .bootstrapping ∨ isActive st = true))
    (hboot : ∀ v, (v, .bootstrapping) ∈ s'.subs
      → ∃ obj ∈ s'.table, obj.queryVersion = v) : Safe s' where
  distinct := hversions ▸ h.distinct
  nonneg := hversions ▸ h.nonneg
  oldest := by
    intro v st hmem hst
    obtain ⟨st', hmem', hst'⟩ := hactive v ⟨st, hmem, hst⟩
    rw [hversions]
    exact h.oldest v st' hmem' hst'
  existing := hexisting
  pending := hpending
  single := hsingle
  held := hheld
  bootstrapping := hboot
  finished := by
    intro v st hmem hst
    obtain ⟨st', hmem', hst'⟩ := hactive v ⟨st, hmem, hst⟩
    exact hfinished (h.finished v st' hmem' hst')

/-- A change of state between two that both are, or both are not, states
of a bootstrapped set. -/
theorem Safe.setState {old : SubscriptionState} (hmem : (v, old) ∈ s.subs)
    (hsame : isActive state = isActive old) :
    (∀ u, Bootstrapped (s.subs.setState v state) u
        → Bootstrapped s.subs u)
      ∧ activeVersion (s.subs.setState v state)
        ∈ versions (s.subs.setState v state) := by
  have hiff : ∀ u, Bootstrapped (s.subs.setState v state) u
      ↔ Bootstrapped s.subs u :=
    fun u => bootstrapped_setState h.distinct hmem hsame
  refine ⟨fun u => (hiff u).1, ?_⟩
  rw [activeVersion_congr hiff, versions_setState]
  exact h.existing

theorem Safe.added {latest : Int} (hmem : latest ∈ versions s.subs)
    (hmax : ∀ v ∈ versions s.subs, v ≤ latest) :
    Safe { s with subs := s.subs ++ [(latest + 1, .pending)] } := by
  have hversions : versions (s.subs ++ [(latest + 1, .pending)])
      = versions s.subs ++ [latest + 1] := by simp [versions]
  -- the new set is in no state that matters
  have hold : ∀ {u st}, st ≠ .pending
      → ((u, st) ∈ s.subs ++ [(latest + 1, .pending)]
        ↔ (u, st) ∈ s.subs) := by
    intro u st hst
    simp [hst]
  have hactive : ∀ u, Bootstrapped (s.subs ++ [(latest + 1, .pending)]) u
      ↔ Bootstrapped s.subs u := by
    intro u
    refine exists_congr fun st => and_congr_left fun hst => hold ?_
    intro heq
    subst heq
    cases hst
  have hne : ∀ {st}, isActive st = true → st ≠ .pending := by
    intro st hst heq
    subst heq
    cases hst
  constructor
  · show (versions (s.subs ++ [(latest + 1, .pending)])).Nodup
    rw [hversions, List.nodup_append]
    refine ⟨h.distinct, by simp, fun u hu w hw heq => ?_⟩
    have := hmax u hu
    rw [List.mem_singleton] at hw
    omega
  · intro v hv
    simp only [hversions, List.mem_append, List.mem_singleton] at hv
    rcases hv with hv | rfl
    · exact h.nonneg v hv
    · have := h.nonneg latest hmem
      omega
  · intro v st hv hst w hw
    rw [hold (hne hst)] at hv
    simp only [hversions, List.mem_append, List.mem_singleton] at hw
    rcases hw with hw | rfl
    · exact h.oldest v st hv hst w hw
    · have := h.oldest v st hv hst latest hmem
      omega
  · show activeVersion (s.subs ++ [(latest + 1, .pending)]) ∈ _
    rw [activeVersion_congr hactive, hversions]
    exact List.mem_append_left _ h.existing
  · exact h.pending
  · exact h.single
  · intro obj hobj
    obtain ⟨st, hst, hstate⟩ := h.held obj hobj
    exact ⟨st, List.mem_append_left _ hst, hstate⟩
  · intro v hv
    rw [hold (by simp)] at hv
    exact h.bootstrapping v hv
  · intro v st hv hst
    rw [hold (hne hst)] at hv
    exact h.finished v st hv hst

/-- The sets once a first bootstrap is finished. -/
theorem Safe.completed_sets (hboot : (v, .bootstrapping) ∈ s.subs) :
    (v, .awaitingMark) ∈ (s.subs.setState v .awaitingMark).filter
        (fun set => ¬ set.1 < v)
      ∧ ∀ u, Bootstrapped ((s.subs.setState v .awaitingMark).filter
        fun set => ¬ set.1 < v) u → u = v := by
  have hv : v ∈ versions s.subs := mem_versions.2 ⟨_, hboot⟩
  constructor
  · rw [List.mem_filter, mem_setState]
    exact ⟨.inl ⟨rfl, rfl, hv⟩, by simp⟩
  · intro u hu
    obtain ⟨st, hmem, hst⟩ := hu
    rw [List.mem_filter, mem_setState] at hmem
    obtain ⟨⟨rfl, -, -⟩ | ⟨hne, hmem⟩, hle⟩ := hmem
    · rfl
    · have hle' := h.oldest u st hmem hst v hv
      simp only [not_lt, decide_eq_true_eq] at hle
      omega

theorem Safe.completed (hboot : (v, .bootstrapping) ∈ s.subs)
    (honly : ∀ w, (w, .bootstrapping) ∈ s.subs → w = v) :
    Safe (C := C) { s with
      table := []
      subs := (s.subs.setState v .awaitingMark).filter
        fun set => ¬ set.1 < v
      hasPending := false, finished := v :: s.finished } := by
  obtain ⟨hmark, huniq⟩ := h.completed_sets hboot
  have hsub : (versions ((s.subs.setState v .awaitingMark).filter
      fun set => ¬ set.1 < v)).Sublist (versions s.subs) := by
    have hversions : versions (s.subs.setState v .awaitingMark)
        = versions s.subs := versions_setState
    rw [← hversions]
    exact List.filter_sublist.map _
  constructor
  · exact h.distinct.sublist hsub
  · exact fun u hu => h.nonneg u (hsub.subset hu)
  · intro u st hu hst w hw
    rw [huniq u ⟨st, hu, hst⟩]
    obtain ⟨st', hw⟩ := mem_versions.1 hw
    have := (List.mem_filter.1 hw).2
    simpa using this
  · show activeVersion _ ∈ _
    rw [activeVersion_eq ⟨_, hmark, rfl⟩ fun u hu => (huniq u hu).le]
    exact mem_versions.2 ⟨_, hmark⟩
  · rfl
  · exact Nat.zero_le 1
  · exact fun obj hobj => absurd hobj (List.not_mem_nil)
  · intro u hu
    rw [List.mem_filter, mem_setState] at hu
    obtain ⟨⟨-, hst, -⟩ | ⟨hne, hu⟩, -⟩ := hu
    · cases hst
    · exact absurd (honly u hu) hne
  · intro u st hu hst
    rw [huniq u ⟨st, hu, hst⟩]
    exact List.mem_cons_self

theorem Safe.failed (hstate : (v, state) ∈ s.subs)
    (hboot : state ≠ .bootstrapping)
    (hactive : isActive state = true → v = 0
      ∧ ∀ obj ∈ s.table, obj.queryVersion ≠ 0) :
    Safe { s with subs := s.subs.setState v .error } := by
  -- the set of the pending bootstrap is another one
  have hheld : ∀ obj ∈ s.table, ∃ st,
      (obj.queryVersion, st) ∈ s.subs.setState v .error
        ∧ (st = .bootstrapping ∨ isActive st = true) := by
    intro obj hobj
    obtain ⟨st, hst, hcase⟩ := h.held obj hobj
    refine ⟨st, mem_setState.2 (.inr ⟨?_, hst⟩), hcase⟩
    intro heq
    rw [heq] at hst
    have := h.state_unique hst hstate
    subst this
    obtain ⟨rfl, hne⟩ := hactive (hcase.resolve_left hboot)
    exact hne obj hobj heq
  have hbootstrapping : ∀ u, (u, .bootstrapping) ∈ s.subs.setState v .error
        → ∃ obj ∈ s.table, obj.queryVersion = u := by
    intro u hu
    rcases mem_setState.1 hu with ⟨-, hst, -⟩ | ⟨-, hu⟩
    · cases hst
    · exact h.bootstrapping u hu
  have hold : ∀ u, Bootstrapped (s.subs.setState v .error) u
      → u ≠ v ∧ Bootstrapped s.subs u := by
    intro u hu
    obtain ⟨st, hmem, hst⟩ := hu
    rcases mem_setState.1 hmem with ⟨-, rfl, -⟩ | ⟨hne, hmem⟩
    · cases hst
    · exact ⟨hne, st, hmem, hst⟩
  refine h.of_sets versions_setState (fun u hu => (hold u hu).2) ?_
    (List.Subset.refl _) h.pending h.single hheld hbootstrapping
  by_cases hwas : isActive state = true
  · obtain ⟨rfl, -⟩ := hactive hwas
    have hzero : 0 ∈ versions s.subs := mem_versions.2 ⟨_, hstate⟩
    have hnone : ∀ u, ¬ Bootstrapped (s.subs.setState 0 .error) u := by
      intro u hu
      obtain ⟨hne, st, hmem, hst⟩ := hold u hu
      have hle := h.oldest u st hmem hst 0 hzero
      have := h.nonneg u (mem_versions.2 ⟨_, hmem⟩)
      omega
    rw [activeVersion_none hnone, versions_setState]
    exact hzero
  · refine (h.setState hstate ?_).2
    rw [Bool.not_eq_true] at hwas
    rw [hwas]
    rfl

theorem Change.safe (hchange : Change s s') : Safe s' := by
  cases hchange with
  | loop processing =>
    exact h.of_sets rfl (fun _ => id) h.existing (List.Subset.refl _)
      h.pending h.single h.held h.bootstrapping
  | added latest hmem hmax => exact h.added hmem hmax
  | began obj processing hpending hnone =>
    obtain ⟨hsub, hexisting⟩ := h.setState hpending
      (show isActive .bootstrapping = isActive .pending from rfl)
    refine h.of_sets versions_setState hsub hexisting
      (List.Subset.refl _) rfl le_rfl ?_ ?_
    · intro obj' hobj'
      rw [List.mem_singleton.1 hobj']
      refine ⟨.bootstrapping, mem_setState.2 (.inl ⟨rfl, rfl, ?_⟩), .inl rfl⟩
      exact mem_versions.2 ⟨_, hpending⟩
    · intro u hu
      rcases mem_setState.1 hu with ⟨rfl, -, -⟩ | ⟨-, hu⟩
      · exact ⟨obj, List.mem_singleton_self obj, rfl⟩
      · exact absurd hu (hnone u)
  | continued obj processing hstate honly =>
    refine h.of_sets rfl (fun _ => id) h.existing (List.Subset.refl _)
      rfl le_rfl ?_ ?_
    · intro obj' hobj'
      rw [List.mem_singleton.1 hobj']
      exact hstate
    · exact fun u hu => ⟨obj, List.mem_singleton_self obj, (honly u hu).symm⟩
  | cancelled v hboot honly =>
    obtain ⟨hsub, hexisting⟩ := h.setState hboot
      (show isActive .pending = isActive .bootstrapping from rfl)
    refine h.of_sets versions_setState hsub hexisting
      (List.Subset.refl _) rfl (Nat.zero_le 1) ?_ ?_
    · exact fun obj hobj => absurd hobj List.not_mem_nil
    · intro u hu
      rcases mem_setState.1 hu with ⟨-, hst, -⟩ | ⟨hne, hu⟩
      · cases hst
      · exact absurd (honly u hu) hne
  | completed v hboot honly => exact h.completed hboot honly
  | dropped hnone =>
    exact h.of_sets rfl (fun _ => id) h.existing (List.Subset.refl _) rfl
      (Nat.zero_le 1) (fun obj hobj => absurd hobj List.not_mem_nil)
      fun u hu => absurd hu (hnone u)
  | repeated v state hstate hactive hnone =>
    exact h.of_sets rfl (fun _ => id) h.existing
      (List.subset_cons_self _ _) rfl (Nat.zero_le 1)
      (fun obj hobj => absurd hobj List.not_mem_nil)
      fun u hu => absurd hu (hnone u)
  | marked v hstate =>
    obtain ⟨hsub, hexisting⟩ := h.setState hstate
      (show isActive .complete = isActive .awaitingMark from rfl)
    refine h.of_sets versions_setState hsub hexisting
      (List.Subset.refl _) h.pending h.single ?_ ?_
    · intro obj hobj
      obtain ⟨st, hst, hcase⟩ := h.held obj hobj
      by_cases heq : obj.queryVersion = v
      · refine ⟨.complete, mem_setState.2 (.inl ⟨heq, rfl, ?_⟩), .inr rfl⟩
        exact mem_versions.2 ⟨_, hstate⟩
      · exact ⟨st, mem_setState.2 (.inr ⟨heq, hst⟩), hcase⟩
    · intro u hu
      rcases mem_setState.1 hu with ⟨-, hst, -⟩ | ⟨-, hu⟩
      · cases hst
      · exact h.bootstrapping u hu
  | failed v state hstate hboot hactive =>
    exact h.failed hstate hboot hactive

end

-- ===== versions and deleted sets

/-- The versions after a change, and the bootstraps finished. -/
theorem Change.versions_cases (hchange : Change s s') :
    (versions s'.subs = versions s.subs
        ∧ (s'.finished = s.finished
          ∨ ∃ w, s'.finished = w :: s.finished ∧ Bootstrapped s.subs w))
      ∨ (∃ latest ∈ versions s.subs,
        versions s'.subs = versions s.subs ++ [latest + 1]
          ∧ s'.finished = s.finished)
      ∨ ∃ w ∈ versions s.subs, s'.finished = w :: s.finished
        ∧ ∀ u, u ∈ versions s'.subs ↔ u ∈ versions s.subs ∧ w ≤ u := by
  cases hchange with
  | loop | continued | dropped => exact .inl ⟨rfl, .inl rfl⟩
  | began | cancelled | marked | failed =>
    exact .inl ⟨versions_setState, .inl rfl⟩
  | repeated v state hstate hactive hnone =>
    exact .inl ⟨rfl, .inr ⟨v, rfl, state, hstate, hactive⟩⟩
  | added latest hmem hmax =>
    exact .inr (.inl ⟨latest, hmem, by simp [versions], rfl⟩)
  | completed v hboot honly =>
    refine .inr (.inr ⟨v, mem_versions.2 ⟨_, hboot⟩, rfl, fun u => ?_⟩)
    have hversions : versions (s.subs.setState v .awaitingMark)
        = versions s.subs := versions_setState
    rw [← hversions, mem_versions, mem_versions]
    simp only [List.mem_filter, not_lt, decide_eq_true_eq]
    exact exists_and_right

/-- No set is older than the one that was active. -/
theorem Change.active_le (h : Safe s) (hchange : Change s s') :
    activeVersion s.subs ≤ activeVersion s'.subs := by
  have hexisting := (hchange.safe h).existing
  rcases hchange.versions_cases with ⟨heq, -⟩ | ⟨latest, hmem, heq, -⟩
    | ⟨w, -, -, hiff⟩
  · rw [heq] at hexisting
    exact h.active_le hexisting
  · rw [heq, List.mem_append, List.mem_singleton] at hexisting
    rcases hexisting with hold | hnew
    · exact h.active_le hold
    · have := h.active_le hmem
      omega
  · exact h.active_le ((hiff _).1 hexisting).1

/-- A set is deleted when a newer one finishes its bootstrap. -/
theorem Change.deleted_iff (h : Safe s) (hchange : Change s s')
    (hv : v ∈ versions s.subs) :
    v ∉ versions s'.subs
      ↔ ∃ w, s'.finished = w :: s.finished ∧ v < w := by
  rcases hchange.versions_cases with ⟨heq, hfin⟩ | ⟨latest, -, heq, hfin⟩
    | ⟨w, -, hfin, hiff⟩
  · rw [heq]
    refine iff_of_false (not_not_intro hv) fun hex => ?_
    obtain ⟨w, hw, hlt⟩ := hex
    rcases hfin with hfin | ⟨u, hfin, st, hmem, hst⟩
    · rw [hfin] at hw
      exact absurd hw.symm (List.cons_ne_self _ _)
    · -- another bootstrap of the oldest set
      rw [hfin] at hw
      obtain rfl : u = w := (List.cons.inj hw).1
      exact absurd (h.oldest u st hmem hst v hv) (not_le.2 hlt)
  · rw [heq, hfin]
    refine iff_of_false (not_not_intro (List.mem_append_left _ hv)) ?_
    intro hex
    obtain ⟨w, hw, -⟩ := hex
    exact absurd hw.symm (List.cons_ne_self _ _)
  · rw [hiff, hfin]
    constructor
    · intro hnot
      exact ⟨w, rfl, lt_of_not_ge fun hle => hnot ⟨hv, hle⟩⟩
    · intro hex
      obtain ⟨w', hw', hlt⟩ := hex
      cases hw'
      exact fun hmem => absurd hmem.2 (not_le.2 hlt)

-- ===== the runs

theorem safe_start : Safe (start (C := C)) where
  distinct := by
    show (versions SubscriptionStore.clear).Nodup
    decide
  nonneg := by
    show ∀ v ∈ versions SubscriptionStore.clear, 0 ≤ v
    decide
  oldest := by
    intro v state hmem hactive
    obtain ⟨rfl, rfl⟩ : v = 0 ∧ state = .pending := by
      simpa [start, SubscriptionStore.clear] using hmem
    cases hactive
  existing := by
    show activeVersion SubscriptionStore.clear
      ∈ versions SubscriptionStore.clear
    decide
  pending := rfl
  single := Nat.zero_le 1
  held := fun obj hobj => absurd hobj List.not_mem_nil
  bootstrapping := by
    intro v hv
    cases List.mem_singleton.1 hv
  finished := by
    intro v state hmem hactive
    obtain ⟨rfl, rfl⟩ : v = 0 ∧ state = .pending := by
      simpa [start, SubscriptionStore.clear] using hmem
    cases hactive

section

variable (h : Safe s) (hok : s.Expected event) (hstep : s.step event = some
  s')

include h hok hstep

/-- A step rolls back or makes a change. -/
theorem Safe.step_cases : s' = s ∨ Change s s' := by
  unfold step at hstep
  split at hstep
  · rename_i henabled
    rcases h.apply_cases henabled hok with hthrown | ⟨t, hok, hchange⟩
    · rw [hthrown] at hstep
      cases hstep
      exact .inl rfl
    · rw [hok] at hstep
      cases hstep
      exact .inr hchange
  · cases hstep

theorem Safe.step : Safe s' := by
  rcases h.step_cases hok hstep with rfl | hchange
  · exact h
  · exact hchange.safe h

end

/-- The stores in a state: the active set exists, only the set of the
pending bootstrap is bootstrapping, and what is active was bootstrapped
completely. -/
structure Consistent (s : FlxStores C) : Prop where
  distinct : (versions s.subs).Nodup
  active : ∃ state, getActive s.subs
    = .ok (some (activeVersion s.subs, state))
  info : ∃ info, getVersionInfo s.subs = .ok info
  one : ∀ v w, (v, .bootstrapping) ∈ s.subs
    → (w, .bootstrapping) ∈ s.subs → v = w
  pending : ∀ v, (v, .bootstrapping) ∈ s.subs
    → ∃ obj, s.table = [obj] ∧ obj.queryVersion = v
  complete : ∀ v state, (v, state) ∈ s.subs → isActive state = true
    → v ∈ s.finished

theorem Safe.consistent (h : Safe s) : Consistent s where
  distinct := h.distinct
  active := h.getActive_eq.imp fun _ => And.right
  info := by
    obtain ⟨latest, hlatest⟩ := h.exists_latest
    unfold getVersionInfo getLatest
    rw [hlatest]
    exact ⟨_, rfl⟩
  one := by
    intro v w hv hw
    obtain ⟨obj, htable, hobj⟩ := h.table_of_bootstrapping hv
    rw [h.only_bootstrapping htable w hw, hobj]
  pending v hv := h.table_of_bootstrapping hv
  complete := h.finished

/-- An event that meets the condition fails no assertion, keeps the order
of the active versions, and deletes a set exactly when a newer one
finishes its bootstrap. -/
structure Orderly (s : FlxStores C) (event : Event C) : Prop where
  noAssertion : s.apply event ≠ .error .assertion
  active_le : ∀ s', s.step event = some s'
    → activeVersion s.subs ≤ activeVersion s'.subs
  deleted_iff : ∀ s', s.step event = some s' → ∀ v ∈ versions s.subs,
    (v ∉ versions s'.subs
      ↔ ∃ w, s'.finished = w :: s.finished ∧ v < w)

theorem Safe.orderly (h : Safe s) (henabled : s.enabled event = true)
    (hok : s.Expected event) : Orderly s event where
  noAssertion := by
    intro herror
    rcases h.apply_cases henabled hok with hthrown | ⟨t, hok, -⟩
    · rw [hthrown] at herror
      cases herror
    · rw [hok] at herror
      cases herror
  active_le := by
    intro s' hstep
    rcases h.step_cases hok hstep with rfl | hchange
    · exact le_rfl
    · exact hchange.active_le h
  deleted_iff := by
    intro s' hstep v hv
    rcases h.step_cases hok hstep with rfl | hchange
    · refine iff_of_false (not_not_intro hv) fun hex => ?_
      obtain ⟨w, hw, -⟩ := hex
      exact absurd hw.symm (List.cons_ne_self _ _)
    · exact hchange.deleted_iff h hv

/-- In every run in which no batch abandons a first bootstrap and no query
error hits a set that is being bootstrapped or active, the stores are
consistent in every state and every event is orderly. -/
theorem subscriptions_consistent
    (hrun : Run (step (C := C)) Expected start s) :
    Consistent s ∧ ∀ event, s.enabled event = true → s.Expected event
      → Orderly s event := by
  have hsafe : Safe s := hrun.invariant safe_start
    fun t event u ht hok hstep => ht.step hok hstep
  exact ⟨hsafe.consistent, fun event => hsafe.orderly⟩

instance (s : FlxStores C) : (event : Event C)
    → Decidable (s.Expected event)
  | .batch queryVersion _ _ => inferInstanceAs (Decidable
    (∀ obj ∈ s.table, obj.queryVersion ≠ queryVersion
      → s.subs.lookup obj.queryVersion = some .bootstrapping
      → s.subs.lookup queryVersion = none
        ∨ s.subs.lookup queryVersion = some .error))
  | .queryError queryVersion => inferInstanceAs (Decidable
    (s.subs.lookup queryVersion ≠ some .bootstrapping
      ∧ (s.subs.lookup queryVersion = some .awaitingMark
        → queryVersion = 0 ∧ ∀ obj ∈ s.table, obj.queryVersion ≠ 0)))
  | .commit | .turn _ | .abort | .mark | .resume | .restart =>
    .isTrue trivial

/-- The zeroth set is bootstrapped; a bootstrap of the first is abandoned
by a restart and done again, and the second set fails. -/
private def superseded : List (Event ℕ) :=
  [.commit, .batch 0 (some {}) [1], .turn 1, .turn 0, .mark, .commit,
    .batch 1 none [2], .restart, .turn 0, .batch 1 none [2],
    .batch 1 (some {}) [3], .turn 1, .turn 1, .turn 0, .queryError 2,
    .mark]

theorem subscriptions_consistent_superseded :
    ∃ s, exec step start superseded = some s
      ∧ s.subs = [(1, .complete), (2, .error)] ∧ s.finished = [1, 0]
      ∧ Consistent s :=
  ⟨_, rfl, by decide, by decide, (subscriptions_consistent
    (@run_of_exec _ _ _ _ _ _ superseded rfl (by decide))).1⟩

/-- A batch for the second set comes while the first is bootstrapped. -/
private def abandoned : List (Event ℕ) :=
  [.commit, .commit, .batch 1 none [1], .batch 2 none [2]]

/-- The first set fails after its bootstrap. -/
private def failedActive : List (Event ℕ) :=
  [.commit, .batch 1 (some {}) [], .turn 0, .turn 0, .queryError 1]

/-- The first set fails while it is bootstrapped. -/
private def failedPending : List (Event ℕ) :=
  [.commit, .batch 1 none [1], .queryError 1, .resume]

/-- Two sets are bootstrapping and the next batch for the first fails an
assertion; there is no active set, though one was active; and the next
turn of the loop fails an assertion. -/
theorem subscriptions_not_consistent :
    (∃ s, exec step start abandoned = some s
      ∧ (1, .bootstrapping) ∈ s.subs ∧ (2, .bootstrapping) ∈ s.subs
      ∧ s.enabled (.batch 1 none [1]) = true
      ∧ s.apply (.batch 1 none [1]) = .error .assertion)
    ∧ (∃ s, exec step start failedActive = some s
      ∧ s.finished = [1] ∧ activeVersion s.subs = 0
      ∧ getActive s.subs = .ok none)
    ∧ ∃ s, exec step start failedPending = some s
      ∧ s.enabled (.turn 0) = true
      ∧ s.apply (.turn 0) = .error .assertion :=
  ⟨⟨_, rfl, by decide, by decide, by decide, rfl⟩,
    ⟨_, rfl, by decide, by decide, rfl⟩, ⟨_, rfl, by decide, rfl⟩⟩

end FlxStores

end BarqSync.Client
