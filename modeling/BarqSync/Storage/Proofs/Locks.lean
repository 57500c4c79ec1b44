/-
Versions that are locked stay where they are, and the counters of the
lock file are exact, in every run and whatever participants die.
-/
import BarqSync.Storage.Proofs.Participants
import BarqSync.Sys.Runs

namespace BarqSync.Storage

open Function (update update_self update_of_ne)

namespace Versions

variable {s : Versions} {p : ℕ} {part part' : Participant}
  {type : LockType} {index : ℕ} {list : VersionList} {id : VersionID}
  {info : VersionInfo}

-- ===== the runs

theorem get_of_participant (h : s.participant p = some part) :
    s.participants[p]? = some part := by
  obtain ⟨part', hget, halive⟩ := Option.bind_eq_some_iff.1 h
  split at halive
  · cases halive
    exact hget
  · cases halive

/-- The participant only has another mapping, or dies. -/
theorem Inv.remap (h : Inv s) (hget : s.participants[p]? = some part)
    {maxEntry : ℕ} (alive : Bool) (hmax : part.maxEntry ≤ maxEntry)
    (hmapped : maxEntry ≤ s.list.entries) :
    Inv (s.withParticipant p
      { part with maxEntry := maxEntry, alive := alive }) :=
  h.replace hget
    ((h.follows part (Inv.mem_of_get hget)).remap hmax hmapped)
    fun _ _ => Iff.rfl

theorem inv_step {s' : Versions} {event : Event} (h : Inv s)
    (hstep : s.step event = some s') : Inv s' := by
  cases event with
  | join =>
    cases hstep
    exact h.join
  | grab p type id =>
    obtain ⟨part, hpart, hstep⟩ := Option.bind_eq_some_iff.1 hstep
    split at hstep
    · next hid =>
      obtain ⟨out, hgrab, heq⟩ := Option.map_eq_some_iff.1 hstep
      rw [← heq]
      exact h.grabbed (get_of_participant hpart) hid hgrab
    · cases hstep
  | release p lock =>
    obtain ⟨part, hpart, hstep⟩ := Option.bind_eq_some_iff.1 hstep
    split at hstep
    · next hlock =>
      obtain ⟨out, hrelease, hinv⟩ :=
        h.release (get_of_participant hpart) hlock
      rw [hrelease] at hstep
      cases hstep
      exact hinv
    · cases hstep
  | addVersion p info =>
    obtain ⟨part, hpart, hstep⟩ := Option.bind_eq_some_iff.1 hstep
    split at hstep
    · next hlater =>
      obtain ⟨list, hadd, heq⟩ := Option.map_eq_some_iff.1 hstep
      cases heq
      rw [VersionList.addVersion_eq] at hadd
      obtain ⟨i, hchosen, hfilled⟩ := Option.bind_eq_some_iff.1 hadd
      obtain ⟨hsound, hkept⟩ := h.sound.expanded
      have hlater' : s.newestVersion < info.version
          ∧ info.version < maxVersion := by
        simpa [isLater] using hlater
      have hnewest : s.newestVersion = (s.list.expanded.data
          s.list.expanded.newest).version := by
        have hhead := hsound.head.symm.trans h.sound.head
        have hinfo := congrArg VersionInfo.version (Option.some.inj hhead)
        exact hinfo.symm
      obtain ⟨hsound', hkept'⟩ := hsound.filled hchosen hfilled
        (hnewest ▸ hlater'.1) hlater'.2
      have hinv := h.relist (hkept.trans hkept') hsound'
      have hget := get_of_participant hpart
      have hmapped := (hinv.follows part (Inv.mem_of_get hget)).mapped
      exact hinv.remap hget part.alive (le_max_left _ _)
        (max_le hmapped (le_refl _))
    · cases hstep
  | cleanup p =>
    obtain ⟨part, hpart, hstep⟩ := Option.bind_eq_some_iff.1 hstep
    obtain ⟨out, hpurge, heq⟩ := Option.map_eq_some_iff.1 hstep
    cases heq
    obtain ⟨hsound, hkept, -⟩ := h.sound.purgeVersions hpurge
    have hinv := h.relist hkept hsound
    have hget := get_of_participant hpart
    have hmapped := (hinv.follows part (Inv.mem_of_get hget)).mapped
    exact hinv.remap hget part.alive (le_max_left _ _)
      (max_le hmapped hkept.entries)
  | die p =>
    obtain ⟨part, hpart, heq⟩ := Option.map_eq_some_iff.1 hstep
    cases heq
    have hget := get_of_participant hpart
    exact h.remap hget false (le_refl _)
      (h.follows part (Inv.mem_of_get hget)).mapped
  | dieAllocating p info point =>
    obtain ⟨part, hpart, hstep⟩ := Option.bind_eq_some_iff.1 hstep
    split at hstep
    · obtain ⟨i, hchosen, heq⟩ := Option.map_eq_some_iff.1 hstep
      cases heq
      obtain ⟨hsound, hkept⟩ := h.sound.expanded
      obtain ⟨hsound', hkept'⟩ := hsound.allocated info point hchosen
      have hinv := h.relist (hkept.trans hkept') hsound'
      have hget := get_of_participant hpart
      exact hinv.remap hget false (le_refl _)
        (hinv.follows part (Inv.mem_of_get hget)).mapped
    · cases hstep

/-- A session begins with one version, in the first slot. -/
theorem start_eq (hentries : 0 < list.entries)
    (hstart : start list info = some s) :
    s.participants = [] ∧ s.added = [info]
      ∧ s.list.entries = list.entries ∧ s.list.allocating = 0
      ∧ s.list.newest = 0 ∧ (s.list.data 0).info = info
      ∧ ∀ i < list.entries, (s.list.data i).unlocked = true
        ∧ (i ≠ 0 → (s.list.data i).version = 0) := by
  obtain ⟨list', hinit, heq⟩ := Option.map_eq_some_iff.1 hstart
  cases heq
  let emptied : VersionList := { list with
    newest := VersionList.nil, allocating := 0, entries := 0 }
  have hdata : ∀ i < list.entries, (emptied.reserve list.entries).data i
        = (list.data i).deactivate := by
    intro i hi
    exact if_pos ⟨Nat.zero_le i, hi⟩
  have hchosen : (emptied.reserve list.entries).chosen = some 0 :=
    if_neg (show (0 : ℕ) ≠ 2 ^ 32 - 1 by decide)
  have hunlocked : ((emptied.reserve list.entries).data 0).unlocked
      = true := by
    rw [hdata 0 hentries]
    rfl
  have hfilled : (emptied.reserve list.entries).filled 0 info
      = some list' := by
    unfold VersionList.initVersioning VersionList.tryAllocateEntry at hinit
    dsimp only at hinit
    rw [hchosen] at hinit
    obtain ⟨result, hresult, heq⟩ := Option.bind_eq_some_iff.1 hinit
    obtain ⟨list'', hfilled, hlist⟩ := Option.map_eq_some_iff.1 hresult
    rw [← hlist] at heq
    cases heq
    exact hfilled
  unfold VersionList.filled at hfilled
  rw [if_pos hunlocked] at hfilled
  cases hfilled
  refine ⟨rfl, rfl, Nat.zero_max _, rfl, rfl, ?_, fun i hi => ?_⟩
  · show (update (emptied.reserve list.entries).data 0 _ 0).info
      = info
    rw [update_self]
    rfl
  · show (update (emptied.reserve list.entries).data 0 _ i).unlocked = true
      ∧ (i ≠ 0 → (update (emptied.reserve list.entries).data 0 _
        i).version = 0)
    by_cases hzero : i = 0
    · subst hzero
      rw [update_self]
      exact ⟨hunlocked, fun h => absurd rfl h⟩
    · rw [update_of_ne hzero, hdata i hi]
      exact ⟨rfl, fun _ => rfl⟩

theorem inv_start (hentries : 0 < list.entries)
    (hversion : 0 < info.version) (hmax : info.version < maxVersion)
    (hstart : start list info = some s) : Inv s := by
  obtain ⟨hparts, hadded, hlength, hallocating, hnewest, hinfo, hdata⟩ :=
    start_eq hentries hstart
  have hzero : s.list.Settled 0 := by
    refine ⟨hlength ▸ hentries, ?_, fun _ => hnewest.symm⟩
    have hversion' := congrArg VersionInfo.version hinfo
    exact fun h => Nat.ne_of_gt hversion (hversion'.symm.trans h)
  have honly : ∀ i, s.list.Settled i → i = 0 := by
    intro i hi
    by_contra hne
    exact hi.2.1 ((hdata i (hlength ▸ hi.1)).2 hne)
  refine ⟨⟨hnewest ▸ hzero, ?_, ?_, ?_, ?_, ?_, ?_, ?_⟩, ?_, ?_⟩
  · rw [hallocating]
    exact hzero.1
  · intro i hi _
    exact (hdata i (hlength ▸ hi)).1
  · intro i hi
    rw [honly i hi, hinfo, hadded]
    exact List.mem_singleton_self info
  · intro i j hi hj _
    rw [honly i hi, honly j hj]
  · rw [hadded, hnewest, hinfo]
    rfl
  · rw [hadded]
    exact List.pairwise_singleton _ _
  · intro a ha
    rw [hadded] at ha
    rw [List.mem_singleton.1 ha]
    exact hmax
  · intro part hpart
    rw [hparts] at hpart
    exact absurd hpart List.not_mem_nil
  · intro i hi type
    rw [ReadCount.unlocked_iff.1 (hdata i (hlength ▸ hi)).1]
    simp [holders, hparts]

/-- A participant has a lock on the version. -/
def Outstanding (s : Versions) (info : VersionInfo) : Prop :=
  ∃ part ∈ s.participants, ∃ lock ∈ part.held, lock.info = info

/-- What the locks of all participants, also of those that have died, are
good for. -/
structure Pinned (s : Versions) : Prop where
  /-- A version is added only once. -/
  added : s.added.Pairwise fun a b => b.version < a.version
  /-- The slot of a lock has the version of the lock, as it was added. -/
  slot : ∀ part ∈ s.participants, ∀ lock ∈ part.held,
    lock.info ∈ s.added ∧ lock.readerIdx < s.list.entries
      ∧ (s.list.data lock.readerIdx).info = lock.info
  /-- A purge keeps the slot, and reports the version to the writer. -/
  purge : ∀ report list, s.list.purgeVersions = some (report, list)
    → ∀ part ∈ s.participants, ∀ lock ∈ part.held,
      (list.data lock.readerIdx).info = lock.info
        ∧ report.topRefs.find?
          (fun ref => ref.version = lock.info.version) = some lock.info
  /-- A purge by a writer, who has a live lock on the newest version,
  completes. -/
  completes : ∀ p part, s.participant p = some part
    → s.isWriter part = true → s.list.purgeVersions.isSome = true
  /-- A lock is had only on a version that is live, and on the one asked
  for. -/
  grab : ∀ p part type id lock part' list,
    s.participant p = some part → id.index < s.list.entries
    → part.grabReadLock s.list type id = some (.ok lock, part', list)
    → lock.type = type ∧ lock.info ∈ s.added
      ∧ (s.added.head? = some lock.info ∨ s.Outstanding lock.info)
      ∧ (id.pickSpecific = true → lock.info.version = id.version)
  /-- The newest version can be had, by default or as itself. -/
  newest : ∀ p part type id, s.participant p = some part
    → id.pickSpecific = false ∨ id = ⟨s.newestVersion, s.list.newest⟩
    → ∃ lock part' list,
      part.grabReadLock s.list type id = some (.ok lock, part', list)
        ∧ s.added.head? = some lock.info

theorem Inv.lock (h : Inv s) (hpart : part ∈ s.participants)
    {lock : ReadLockInfo} (hlock : lock ∈ part.held) :
    lock.readerIdx < s.list.entries
      ∧ (s.list.data lock.readerIdx).fieldForType lock.type ≠ 0
      ∧ (s.list.data lock.readerIdx).unlocked = false
      ∧ s.list.Settled lock.readerIdx
      ∧ (s.list.data lock.readerIdx).info = lock.info := by
  have hfollows := h.follows part hpart
  obtain ⟨hlt, hfield, hunlocked, hsettled⟩ :=
    h.locked hpart (hfollows.counted_of_mem hlock)
  exact ⟨hlt, hfield, hunlocked, hsettled,
    (hfollows.locks lock hlock).symm⟩

/-- Behind every count of the lock file is a lock. -/
theorem Inv.outstanding (h : Inv s) {i : ℕ} (hi : i < s.list.entries)
    (hfield : (s.list.data i).fieldForType type ≠ 0) :
    s.Outstanding (s.list.data i).info := by
  rw [h.counted i hi] at hfield
  obtain ⟨part, hpart, hlocal⟩ :=
    List.countP_pos_iff.1 (Nat.pos_iff_ne_zero.2 hfield)
  have hfollows := h.follows part hpart
  rw [decide_eq_true_eq, hfollows.counts] at hlocal
  obtain ⟨lock, hlock, hon⟩ :=
    List.countP_pos_iff.1 (Nat.pos_iff_ne_zero.2 hlocal)
  have hon' : lock.readerIdx = i ∧ lock.type = type := by
    simpa [ReadLockInfo.isOn] using hon
  refine ⟨part, hpart, lock, hlock, ?_⟩
  rw [hfollows.locks lock hlock, hon'.1]

theorem Inv.live_of_not_refused (h : Inv s)
    (hindex : index < s.list.entries)
    (hrefused : Participant.refused s.list index type = false) :
    s.added.head? = some (s.list.data index).info
      ∨ s.Outstanding (s.list.data index).info := by
  by_cases hnewest : index = s.list.newest
  · left
    rw [hnewest]
    exact h.sound.head
  · right
    by_cases hlive : (s.list.data index).fieldForType .live = 0
    · by_cases hfrozen : (s.list.data index).fieldForType .frozen = 0
      · have hlive' : (s.list.data index).countLive = 0 := hlive
        have hfrozen' : (s.list.data index).countFrozen = 0 := hfrozen
        simp [Participant.refused, hnewest, hlive', hfrozen'] at hrefused
      · exact h.outstanding hindex hfrozen
    · exact h.outstanding hindex hlive

theorem Inv.pinned (h : Inv s) : Pinned s where
  added := h.sound.sorted
  slot part hpart lock hlock := by
    obtain ⟨hlt, -, -, hsettled, hinfo⟩ := h.lock hpart hlock
    refine ⟨?_, hlt, hinfo⟩
    rw [← hinfo]
    exact h.sound.mem _ hsettled
  purge report list hpurge part hpart lock hlock := by
    obtain ⟨hlt, -, hlocked, -, hinfo⟩ := h.lock hpart hlock
    obtain ⟨-, hkept, hreport⟩ := h.sound.purgeVersions hpurge
    rw [hkept.info _ hlt hlocked, ← hinfo]
    exact ⟨rfl, hreport _ hlt hlocked⟩
  completes p part hpart hwriter := by
    obtain ⟨lock, hlock, hlive⟩ := List.any_eq_true.1 hwriter
    rw [decide_eq_true_eq] at hlive
    have hfield := (h.lock (Inv.mem_of_get (get_of_participant hpart))
      hlock).2.1
    rw [hlive.1, hlive.2] at hfield
    exact h.sound.purgeVersions_isSome hfield
  grab p part type id lock part' list hpart hid hgrab := by
    have hget := get_of_participant hpart
    have hindex := pickedIndex_lt h hid
    have hspecific : ∀ r : ReadCount, Participant.mismatch id r = false
        → id.pickSpecific = true → r.version = id.version := by
      intro r hmismatch hpick
      have heq : id.version = r.version := by
        simpa [Participant.mismatch, hpick] using hmismatch
      exact heq.symm
    rcases h.grabReadLock_cases hget type hindex rfl
      with hcase | hcase | hcase
    · obtain ⟨hmismatch, hfield, heq⟩ := hcase
      cases hgrab.symm.trans heq
      have hmem := Inv.mem_of_get hget
      have hfollows := h.follows part hmem
      have hinfo := (hfollows.cached _
        (hfollows.active_of_field hfield)).2.2
      obtain ⟨hlt, hshared, -, hsettled⟩ := h.locked hmem hfield
      rw [hinfo]
      exact ⟨rfl, h.sound.mem _ hsettled,
        .inr (h.outstanding hlt hshared), hspecific _ hmismatch⟩
    · obtain ⟨-, heq⟩ := hcase
      cases hgrab.symm.trans heq
    · obtain ⟨hmismatch, hrefused, -, heq⟩ := hcase
      cases hgrab.symm.trans heq
      exact ⟨rfl, h.sound.mem _ (h.settled_of_not_refused hindex hrefused),
        h.live_of_not_refused hindex hrefused, hspecific _ hmismatch⟩
  newest p part type id hpart hid := by
    have hget := get_of_participant hpart
    have hnewest := h.sound.newest.1
    obtain ⟨hpicked, hmismatch⟩ :
        Participant.pickedIndex s.list id = s.list.newest
          ∧ Participant.mismatch id (s.list.data s.list.newest)
            = false := by
      rcases hid with hnone | heq
      · simp [Participant.pickedIndex, Participant.mismatch, hnone]
      · subst heq
        exact ⟨ite_self _, by simp [Participant.mismatch, newestVersion]⟩
    rcases h.grabReadLock_cases hget type hnewest hpicked
      with hcase | hcase | hcase
    · obtain ⟨-, hfield, heq⟩ := hcase
      have hfollows := h.follows part (Inv.mem_of_get hget)
      refine ⟨_, _, _, heq, ?_⟩
      rw [(hfollows.cached _ (hfollows.active_of_field hfield)).2.2]
      exact h.sound.head
    · obtain ⟨hguard, -⟩ := hcase
      rcases hguard with hbad | hbad
      · rw [hmismatch] at hbad
        exact Bool.noConfusion hbad
      · simp [Participant.refused] at hbad
    · obtain ⟨-, -, -, heq⟩ := hcase
      exact ⟨_, _, _, heq, h.sound.head⟩

/-- From the beginning of a session, whatever the participants do and
whenever they die, locked versions stay pinned. -/
theorem locked_versions_pinned {list : VersionList} {info : VersionInfo}
    {s₀ : Versions} (hentries : 0 < list.entries)
    (hversion : 0 < info.version) (hmax : info.version < maxVersion)
    (hstart : start list info = some s₀)
    (hrun : Sys.Run step (fun _ _ => True) s₀ s) : Pinned s := by
  have hinv : Inv s := hrun.invariant (I := Inv)
    (inv_start hentries hversion hmax hstart)
    fun t a u ht _ hstep => inv_step ht hstep
  exact hinv.pinned

private def newList : VersionList := ⟨fun _ => {}, 32, 0, 0⟩

/-- A writer dies in the middle of a commit, another one completes it and
purges, while a third participant has the first version frozen. -/
private def overCrash : List Event :=
  [.join, .join, .join, .grab 0 .live {}, .grab 1 .frozen {},
    .dieAllocating 2 ⟨2, 208, 400⟩ .filesize,
    .addVersion 0 ⟨2, 216, 400⟩, .release 0 ⟨.live, 0, ⟨1, 24, 200⟩⟩,
    .grab 0 .live {}, .cleanup 0]

theorem locked_versions_pinned_crash :
    ∃ s, ((start newList ⟨1, 24, 200⟩).bind
        fun s₀ => Sys.exec step s₀ overCrash) = some s
      ∧ s.added = [⟨2, 216, 400⟩, ⟨1, 24, 200⟩]
      ∧ s.Outstanding ⟨1, 24, 200⟩ ∧ Pinned s := by
  obtain ⟨s, hs, hstate⟩ := (Option.any_eq_true _ _).1
    (show ((start newList ⟨1, 24, 200⟩).bind
        fun s₀ => Sys.exec step s₀ overCrash).any
      (fun s => s.added = [⟨2, 216, 400⟩, ⟨1, 24, 200⟩]
        ∧ ∃ part ∈ s.participants, ∃ lock ∈ part.held,
          lock.info = ⟨1, 24, 200⟩) = true by decide +kernel)
  have hstate := of_decide_eq_true hstate
  obtain ⟨s₀, hstart, hexec⟩ := Option.bind_eq_some_iff.1 hs
  refine ⟨s, hs, hstate.1, hstate.2, ?_⟩
  exact locked_versions_pinned (by decide) (by decide) (by decide) hstart
    (Sys.run_of_exec hexec (Sys.ExecOk.of_forall fun _ _ _ => trivial))

/-- No count needs more than the 32 bits of its field, unless as many
participants share the file, or one of them holds as many locks. -/
theorem Inv.counts_fit (h : Inv s) (hjoined : s.participants.length < 2 ^ 32)
    (hheld : ∀ part ∈ s.participants, part.held.length < 2 ^ 32) :
    (∀ i < s.list.entries, ∀ type,
      (s.list.data i).fieldForType type < 2 ^ 32)
    ∧ ∀ part ∈ s.participants, ∀ i type,
      (part.readers i).fieldForType type < 2 ^ 32 := by
  refine ⟨fun i hi type => ?_, fun part hpart i type => ?_⟩
  · rw [h.counted i hi]
    exact List.countP_le_length.trans_lt hjoined
  · rw [(h.follows part hpart).counts]
    exact List.countP_le_length.trans_lt (hheld part hpart)

/-- In every run, with deaths at any time, the counters are exact and a
lock can be released. -/
theorem counters_exact {list info s₀} (hlist : 0 < list.entries)
    (hversion : 0 < info.version) (hmax : info.version < maxVersion)
    (hstart : start list info = some s₀)
    (hrun : Sys.Run step (fun _ _ => True) s₀ s) :
    (∀ i < s.list.entries, ∀ type,
      (s.list.data i).fieldForType type = s.holders i type)
    ∧ (∀ part ∈ s.participants, ∀ i type, (part.readers i).fieldForType
      type = part.held.countP (·.isOn i type))
    ∧ ∀ p part, s.participant p = some part → ∀ lock ∈ part.held,
      (s.step (.release p lock)).isSome := by
  have hinv : Inv s := hrun.invariant
    (inv_start hlist hversion hmax hstart)
    fun _ _ _ h _ => inv_step h
  refine ⟨hinv.counted, fun _ h => (hinv.follows _ h).counts,
    fun _ _ hpart _ hlock => ?_⟩
  obtain ⟨_, hout, -⟩ := hinv.release (get_of_participant hpart) hlock
  simp [step, hpart, hlock, hout]

theorem counters_exact_grab :
    ∃ s, (start newList ⟨1, 0, 0⟩).bind
      (Sys.exec step · [.join, .grab 0 .live {}]) = some s
      ∧ (s.step (.release 0 ⟨.live, 0, ⟨1, 0, 0⟩⟩)).isSome :=
  ⟨_, rfl, (counters_exact (by decide : 0 < newList.entries) (by decide)
    (by decide) rfl ((Sys.Run.refl.tail .join ⟨⟩ rfl).tail
      (.grab 0 .live {}) ⟨⟩ rfl)).2.2 0 _ rfl _ (by decide)⟩

end Versions

end BarqSync.Storage
