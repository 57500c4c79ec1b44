/-
The list of held locks is exact while each lock that is released or
leaked is of the type that is found first for its version.

# The invariant

`Inv` joins the list of the object to the locks that its participant
holds. The records are those of the locks that are outstanding; these
and the leaked ones are what the manager counts, by the invariant of the
lock file.

# The steps

Two locks of one version and one type are the same lock
(`Versions.Inv.same_lock`), so a record of the right type is the right
record. The events of the others leave the locks of the object alone
(`Versions.held_of_other`). When all locks are released, each finds the
count that it left (`releasedAll`).
-/
import BarqSync.Storage.HeldLocks
import BarqSync.Storage.Proofs.Locks
import Mathlib.Data.List.Perm.Basic

namespace BarqSync.Storage

open Participant Versions

-- ===== the list

namespace Db

variable {locks : List ReadLockInfo}

theorem moveLastOver_perm {α : Type*} {l : List α} {j : ℕ} {a : α}
    (hget : l[j]? = some a) : l.Perm (a :: moveLastOver l j) := by
  rcases List.eq_nil_or_concat' l with hnil | hlast
  · subst hnil
    cases hget
  · obtain ⟨init, last, hconcat⟩ := hlast
    subst hconcat
    unfold moveLastOver
    rw [List.getLast?_concat, Option.elim_some]
    rcases Nat.lt_or_ge j init.length with hlt | hge
    · rw [List.set_append_left _ _ hlt, List.dropLast_concat]
      rw [List.getElem?_append_left hlt] at hget
      obtain ⟨_, hval⟩ := List.getElem?_eq_some_iff.1 hget
      have hset := List.set_perm_cons_eraseIdx hlt last
      have herase := List.getElem_cons_eraseIdx_perm hlt
      rw [hval] at herase
      calc init ++ [last]
        List.Perm _ (last :: init) := List.perm_append_singleton last init
        List.Perm _ (last :: a :: init.eraseIdx j) := herase.symm.cons last
        List.Perm _ (a :: last :: init.eraseIdx j) := .swap _ _ _
        List.Perm _ (a :: init.set j last) := hset.symm.cons a
    · have hj : j = init.length := by
        have := (List.getElem?_eq_some_iff.1 hget).1
        simp at this
        omega
      subst hj
      rw [List.getElem?_concat_length] at hget
      cases hget
      rw [List.set_append_right _ _ le_rfl, Nat.sub_self]
      simp

/-- The record that is removed is the first of its version. -/
theorem untrack_eq_some {rest : List ReadLockInfo} {version : ℕ}
    (h : untrack locks version = some rest) :
    ∃ lock, locks.find? (fun lock => lock.info.version = version) = some lock
      ∧ lock ∈ locks ∧ lock.info.version = version
      ∧ locks.Perm (lock :: rest) := by
  obtain ⟨j, hj, heq⟩ := Option.map_eq_some_iff.1 h
  subst heq
  obtain ⟨hlt, hversion, hfirst⟩ := List.findIdx?_eq_some_iff_getElem.1 hj
  refine ⟨locks[j], ?_, List.getElem_mem hlt, of_decide_eq_true hversion,
    moveLastOver_perm (List.getElem?_eq_getElem hlt)⟩
  refine List.find?_eq_some_iff_getElem.2 ⟨hversion, j, hlt, rfl, ?_⟩
  intro i hi
  rw [Bool.not_eq_true']
  exact Bool.eq_false_iff.2 (hfirst i hi)

theorem untrack_of_mem {lock : ReadLockInfo} (hlock : lock ∈ locks) :
    ∃ rest, untrack locks lock.info.version = some rest := by
  have hsome : (locks.findIdx? fun other =>
      other.info.version = lock.info.version).isSome = true := by
    rw [List.findIdx?_isSome]
    exact List.any_eq_true.2 ⟨lock, hlock, decide_eq_true rfl⟩
  obtain ⟨j, hj⟩ := Option.isSome_iff_exists.1 hsome
  exact ⟨moveLastOver locks j, by rw [untrack, hj, Option.map_some]⟩

end Db

-- ===== the lock file

namespace Versions

variable {s s' : Versions} {p : ℕ} {part : Participant}
  {list : VersionList} {added : List VersionInfo} {lock : ReadLockInfo}
  {part' : Participant}

/-- Two locks of a participant with one version and one type are the
same. -/
theorem Inv.same_lock (h : Inv s) (hpart : part ∈ s.participants)
    {other : ReadLockInfo} (hlock : lock ∈ part.held)
    (hother : other ∈ part.held)
    (hversion : other.info.version = lock.info.version)
    (htype : other.type = lock.type) : other = lock := by
  obtain ⟨-, -, -, hsettled, hinfo⟩ := h.lock hpart hlock
  obtain ⟨-, -, -, hsettled', hinfo'⟩ := h.lock hpart hother
  have hidx : other.readerIdx = lock.readerIdx := by
    refine h.sound.distinct _ _ hsettled' hsettled ?_
    calc (s.list.data other.readerIdx).version
      _ = other.info.version := congrArg VersionInfo.version hinfo'
      _ = lock.info.version := hversion
      _ = (s.list.data lock.readerIdx).version :=
        (congrArg VersionInfo.version hinfo).symm
  have hsame : other.info = lock.info := by rw [← hinfo', hidx, hinfo]
  cases lock
  cases other
  cases htype
  cases hidx
  cases hsame
  rfl

theorem participant_of_get (hget : s.participants[p]? = some part)
    (halive : part.alive = true) : s.participant p = some part := by
  rw [participant, hget, Option.bind_some, if_pos halive]

theorem participant_iff : s.participant p = some part
      ↔ s.participants[p]? = some part ∧ part.alive = true := by
  refine ⟨fun h => ⟨get_of_participant h, ?_⟩,
    fun h => participant_of_get h.1 h.2⟩
  obtain ⟨part', -, halive⟩ := Option.bind_eq_some_iff.1 h
  split at halive
  · next hpart =>
    cases halive
    exact hpart
  · cases halive

theorem participant_set_self (hpart : s.participant p = some part)
    (halive : part'.alive = true) :
    (⟨list, s.participants.set p part', added⟩ : Versions).participant p
      = some part' := by
  refine participant_of_get ?_ halive
  have hlt := (List.getElem?_eq_some_iff.1 (get_of_participant hpart)).1
  exact List.getElem?_set_self hlt

theorem participant_set_ne {q : ℕ} (hne : q ≠ p) :
    (⟨list, s.participants.set q part', added⟩ : Versions).participant p
      = s.participant p := by
  show ((s.participants.set q part')[p]?).bind _ = _
  rw [List.getElem?_set_ne hne]
  rfl

/-- A participant that only has another mapping. -/
theorem held_of_remap {q : ℕ} {other other' : Participant}
    (hget : s.participant q = some other)
    (hpart : s.participant p = some part)
    (hheld : other'.held = other.held)
    (halive : other'.alive = other.alive) :
    ∃ part', (⟨list, s.participants.set q other', added⟩ :
        Versions).participant p = some part' ∧ part'.held = part.held := by
  by_cases hq : q = p
  · subst hq
    cases hget.symm.trans hpart
    have halive' := halive.trans (participant_iff.1 hpart).2
    exact ⟨other', participant_set_self hpart halive', hheld⟩
  · exact ⟨part, (participant_set_ne hq).trans hpart, rfl⟩

/-- What the others do leaves the locks of a participant alone. -/
theorem held_of_other {event : Event} (hother : Db.isOther p event = true)
    (hstep : s.step event = some s') (hpart : s.participant p = some part) :
    ∃ part', s'.participant p = some part' ∧ part'.held = part.held := by
  cases event with
  | join =>
    cases hstep
    obtain ⟨hget, halive⟩ := participant_iff.1 hpart
    have hlt := (List.getElem?_eq_some_iff.1 hget).1
    refine ⟨part, participant_of_get ?_ halive, rfl⟩
    exact (List.getElem?_append_left hlt).trans hget
  | grab q | release q =>
    have hne : q ≠ p := of_decide_eq_true hother
    obtain ⟨other, -, hstep⟩ := Option.bind_eq_some_iff.1 hstep
    split at hstep
    · obtain ⟨out, -, heq⟩ := Option.map_eq_some_iff.1 hstep
      rw [← heq]
      exact ⟨part, (participant_set_ne hne).trans hpart, rfl⟩
    · cases hstep
  | addVersion q info =>
    obtain ⟨other, hget, hstep⟩ := Option.bind_eq_some_iff.1 hstep
    split at hstep
    · obtain ⟨list, -, heq⟩ := Option.map_eq_some_iff.1 hstep
      rw [← heq]
      exact held_of_remap hget hpart rfl rfl
    · cases hstep
  | cleanup q =>
    obtain ⟨other, hget, hstep⟩ := Option.bind_eq_some_iff.1 hstep
    obtain ⟨out, -, heq⟩ := Option.map_eq_some_iff.1 hstep
    rw [← heq]
    exact held_of_remap hget hpart rfl rfl
  | die q =>
    have hne : q ≠ p := of_decide_eq_true hother
    obtain ⟨other, -, heq⟩ := Option.map_eq_some_iff.1 hstep
    rw [← heq]
    exact ⟨part, (participant_set_ne hne).trans hpart, rfl⟩
  | dieAllocating q info point =>
    have hne : q ≠ p := of_decide_eq_true hother
    obtain ⟨other, -, hstep⟩ := Option.bind_eq_some_iff.1 hstep
    split at hstep
    · obtain ⟨i, -, heq⟩ := Option.map_eq_some_iff.1 hstep
      rw [← heq]
      exact ⟨part, (participant_set_ne hne).trans hpart, rfl⟩
    · cases hstep

theorem ensureReaderMapping_frame (part : Participant)
    (list : VersionList) (index : ℕ) :
    (part.ensureReaderMapping list index).held = part.held
      ∧ (part.ensureReaderMapping list index).alive = part.alive := by
  unfold ensureReaderMapping
  split <;> exact ⟨rfl, rfl⟩

theorem growLocalCache_frame (part : Participant) (size : ℕ) :
    (part.growLocalCache size).held = part.held
      ∧ (part.growLocalCache size).alive = part.alive := by
  unfold growLocalCache
  split <;> exact ⟨rfl, rfl⟩

/-- A grab changes nothing of a participant but its counts. -/
theorem grabReadLock_frame {type : LockType} {id : VersionID}
    {out : Except VersionID ReadLockInfo × Participant × VersionList}
    (hgrab : part.grabReadLock list type id = some out) :
    out.2.1.held = part.held ∧ out.2.1.alive = part.alive := by
  unfold grabReadLock at hgrab
  cases htry : part.tryGrabLocalReadLock list type id with
  | some found =>
    rw [htry] at hgrab
    cases hgrab
    unfold tryGrabLocalReadLock at htry
    dsimp only at htry
    split at htry
    · cases htry
    · cases htry
      exact ⟨rfl, rfl⟩
  | none =>
    rw [htry, Option.elim_none] at hgrab
    unfold grabShared at hgrab
    dsimp only at hgrab
    have hmapping := ensureReaderMapping_frame part list
      (pickedIndex list id)
    split at hgrab
    · cases hgrab
      exact hmapping
    · split at hgrab
      · cases hgrab
      · cases hgrab
        obtain ⟨hheld, halive⟩ := growLocalCache_frame
          (part.ensureReaderMapping list (pickedIndex list id))
          (pickedIndex list id + 1)
        exact ⟨hheld.trans hmapping.1, halive.trans hmapping.2⟩

theorem releaseReadLock_frame {out : Participant × VersionList}
    (hrelease : part.releaseReadLock list lock = some out) :
    out.1.held = part.held ∧ out.1.alive = part.alive := by
  unfold releaseReadLock at hrelease
  dsimp only at hrelease
  split at hrelease
  · cases hrelease
  · split at hrelease
    · cases hrelease
      exact ⟨rfl, rfl⟩
    · split at hrelease
      · cases hrelease
      · cases hrelease
        exact ⟨rfl, rfl⟩

/-- A lock that is held is released. -/
theorem Inv.released (h : Inv s) (hpart : s.participant p = some part)
    (hlock : lock ∈ part.held) :
    ∃ s' part', s.released p lock = some s' ∧ Inv s'
      ∧ s'.participant p = some part'
      ∧ part'.held = part.held.erase lock := by
  obtain ⟨hget, halive⟩ := participant_iff.1 hpart
  obtain ⟨out, hrelease, hinv⟩ := h.release hget hlock
  obtain ⟨hheld, halive'⟩ := releaseReadLock_frame hrelease
  refine ⟨_, { out.1 with held := out.1.held.erase lock }, ?_, hinv,
    participant_set_self hpart (halive'.trans halive), ?_⟩
  · rw [Versions.released, hpart, Option.bind_some, hrelease,
      Option.map_some]
  · rw [← hheld]

/-- Locks that are held are released one after the other. -/
theorem Inv.releasedAll (h : Inv s) (hpart : s.participant p = some part)
    {locks rest : List ReadLockInfo}
    (hheld : part.held.Perm (locks ++ rest)) :
    ∃ s' part', locks.foldlM (Versions.released · p ·) s = some s'
      ∧ Inv s' ∧ s'.participant p = some part'
      ∧ part'.held.Perm rest := by
  induction locks generalizing s part with
  | nil => exact ⟨s, part, rfl, h, hpart, hheld⟩
  | cons lock locks ih =>
    have hlock : lock ∈ part.held :=
      hheld.mem_iff.2 List.mem_cons_self
    obtain ⟨s', part', hreleased, hinv, hpart', heq⟩ :=
      h.released hpart hlock
    have hheld' : part'.held.Perm (locks ++ rest) := by
      rw [heq]
      exact ((List.perm_cons_erase hlock).symm.trans hheld).cons_inv
    obtain ⟨t, last, hfold, hlast⟩ := ih hinv hpart' hheld'
    refine ⟨t, last, ?_, hlast⟩
    rw [List.foldlM_cons, hreleased]
    exact hfold

end Versions

-- ===== the invariant

namespace Db

variable {s s' : Db} {p : ℕ}

structure Inv (p : ℕ) (s : Db) : Prop where
  versions : s.versions.Inv
  held : ∃ part, s.versions.participant p = some part
    ∧ part.held.Perm (s.outstanding ++ s.leaked)
  tracked : s.localLocksHeld.Perm s.outstanding
  transactions : s.transactionCount = s.outstanding.length
  detached : s.attached = false → s.outstanding = []

/-- The lock that is found first for the version of a lock has its
type. -/
def FirstOfType (s : Db) (lock : ReadLockInfo) : Prop :=
  ∀ first ∈ s.localLocksHeld.find? fun other =>
    other.info.version = lock.info.version, first.type = lock.type

instance (s : Db) (lock : ReadLockInfo) : Decidable (s.FirstOfType lock) :=
  inferInstanceAs (Decidable (∀ _ ∈ _, _))

def Expected (s : Db) : Event → Prop
  | .release lock | .leak lock => s.FirstOfType lock
  | _ => True

instance : (s : Db) → (event : Event) → Decidable (s.Expected event)
  | s, .release lock | s, .leak lock =>
    inferInstanceAs (Decidable (s.FirstOfType lock))
  | _, .grab _ _ | _, .releaseAll | _, .close | _, .other _ =>
    .isTrue trivial

namespace Inv

variable {lock : ReadLockInfo}

section

variable (h : Inv p s)

include h

/-- The record of a lock that may be released, and nothing else, is
removed. After a close there is none. -/
theorem untrack_cases (hmay : s.mayRelease lock = true)
    (hfirst : s.FirstOfType lock) :
    (s.attached = false
        ∧ untrack s.localLocksHeld lock.info.version = none)
      ∨ lock ∈ s.outstanding
        ∧ ∃ rest, untrack s.localLocksHeld lock.info.version = some rest
          ∧ rest.Perm (s.outstanding.erase lock) := by
  rcases of_decide_eq_true hmay with hlock | hclosed
  · right
    refine ⟨hlock, ?_⟩
    obtain ⟨rest, hrest⟩ := untrack_of_mem (h.tracked.mem_iff.2 hlock)
    obtain ⟨first, hfind, hmem, hversion, hperm⟩ := untrack_eq_some hrest
    obtain ⟨part, hpart, hheld⟩ := h.held
    have hmem' := h.tracked.mem_iff.1 hmem
    have heq : first = lock := h.versions.same_lock
      (Inv.mem_of_get (get_of_participant hpart))
      (hheld.mem_iff.2 (List.mem_append_left _ hlock))
      (hheld.mem_iff.2 (List.mem_append_left _ hmem')) hversion
      (hfirst first hfind)
    subst heq
    refine ⟨rest, hrest, ?_⟩
    exact (hperm.symm.trans (h.tracked.trans
      (List.perm_cons_erase hlock))).cons_inv
  · left
    have hnil : s.localLocksHeld = [] := by
      have hperm := h.tracked
      rw [h.detached hclosed] at hperm
      exact hperm.eq_nil
    exact ⟨hclosed, by rw [hnil]; rfl⟩

theorem grab {type : LockType} {id : VersionID}
    (hstep : s.grabReadLock p type id = some s') : Inv p s' := by
  unfold grabReadLock at hstep
  split at hstep
  · next hattached =>
    obtain ⟨part, hpart, hstep⟩ := Option.bind_eq_some_iff.1 hstep
    split at hstep
    · next hid =>
      obtain ⟨out, hgrab, heq⟩ := Option.map_eq_some_iff.1 hstep
      subst heq
      obtain ⟨hget, halive⟩ := participant_iff.1 hpart
      obtain ⟨hheld, halive'⟩ := grabReadLock_frame hgrab
      obtain ⟨part', hpart', hperm⟩ := h.held
      cases hpart.symm.trans hpart'
      refine ⟨h.versions.grabbed hget hid hgrab, ⟨_,
        participant_set_self hpart (halive'.trans halive), ?_⟩,
        ?_, ?_, ?_⟩
      · show (out.1.toOption.toList ++ out.2.1.held).Perm
          (out.1.toOption.toList ++ s.outstanding ++ s.leaked)
        rw [hheld, List.append_assoc]
        exact hperm.append_left _
      · exact (h.tracked.append_right _).trans List.perm_append_comm
      · show s.transactionCount + _ = ((_ ++ _ : List _).length : ℤ)
        rw [h.transactions, List.length_append]
        omega
      · intro hclosed
        rw [show s.attached = false from hclosed] at hattached
        cases hattached
    · cases hstep
  · cases hstep

/-- A transaction less is counted when its lock is forgotten. -/
theorem counted_erase (hlock : lock ∈ s.outstanding) :
    s.transactionCount - 1 = ((s.outstanding.erase lock).length : ℤ)
      ∧ (s.attached = false → s.outstanding.erase lock = []) := by
  refine ⟨?_, fun hclosed => ?_⟩
  · have hpos := List.length_pos_of_mem hlock
    rw [h.transactions, List.length_erase_of_mem hlock]
    omega
  · rw [h.detached hclosed] at hlock
    cases hlock

section

variable (hmay : s.mayRelease lock = true) (hfirst : s.FirstOfType lock)

include hmay hfirst

/-- A lock is released: no assertion fails. -/
theorem release :
    ∃ s', s.doReleaseReadLock p lock = some s' ∧ Inv p s' := by
  unfold doReleaseReadLock
  rcases h.untrack_cases hmay hfirst with hcase | hcase
  · obtain ⟨hclosed, hnone⟩ := hcase
    rw [hnone, Option.elim_none, hclosed]
    exact ⟨s, rfl, h⟩
  · obtain ⟨hlock, rest, hrest, hperm⟩ := hcase
    obtain ⟨part, hpart, hheld⟩ := h.held
    have hmem : lock ∈ part.held :=
      hheld.mem_iff.2 (List.mem_append_left _ hlock)
    obtain ⟨versions, part', hreleased, hinv, hpart', heq⟩ :=
      h.versions.released hpart hmem
    rw [hrest, Option.elim_some, hreleased, Option.map_some]
    obtain ⟨hcount, hempty⟩ := h.counted_erase hlock
    refine ⟨_, rfl, hinv, ⟨part', hpart', ?_⟩, hperm, hcount, hempty⟩
    show part'.held.Perm (s.outstanding.erase lock ++ s.leaked)
    rw [heq, ← List.erase_append_left _ hlock]
    exact hheld.erase lock

theorem leak : Inv p (s.leakReadLock lock) := by
  unfold leakReadLock
  rcases h.untrack_cases hmay hfirst with hcase | hcase
  · rw [hcase.2, Option.elim_none]
    exact h
  · obtain ⟨hlock, rest, hrest, hperm⟩ := hcase
    obtain ⟨part, hpart, hheld⟩ := h.held
    rw [hrest, Option.elim_some]
    obtain ⟨hcount, hempty⟩ := h.counted_erase hlock
    refine ⟨h.versions, ⟨part, hpart, ?_⟩, hperm, hcount, hempty⟩
    show part.held.Perm (s.outstanding.erase lock ++ lock :: s.leaked)
    exact hheld.trans (((List.perm_cons_erase hlock).append_right _).trans
      List.perm_middle.symm)

end

/-- All locks are released: no assertion fails. -/
theorem releaseAll : ∃ s', s.releaseAllReadLocks p = some s' ∧ Inv p s'
      ∧ s'.localLocksHeld = [] ∧ s'.outstanding = []
      ∧ s'.leaked = s.leaked ∧ s'.attached = s.attached := by
  obtain ⟨part, hpart, hheld⟩ := h.held
  obtain ⟨versions, part', hfold, hinv, hpart', hheld'⟩ :=
    h.versions.releasedAll hpart
      (hheld.trans (h.tracked.symm.append_right _))
  have hcount : s.transactionCount - s.localLocksHeld.length = 0 := by
    rw [h.transactions, h.tracked.length_eq, Int.sub_self]
  unfold releaseAllReadLocks
  rw [hfold, Option.bind_some, if_pos hcount]
  refine ⟨_, rfl, ⟨hinv, ⟨part', hpart', hheld'⟩, .refl _, rfl, ?_⟩,
    rfl, rfl, rfl, rfl⟩
  exact fun _ => rfl

theorem step {event : Event} (hok : s.Expected event)
    (hstep : s.step p event = some s') : Inv p s' := by
  cases event with
  | grab type id => exact h.grab hstep
  | release lock =>
    unfold Db.step at hstep
    dsimp only at hstep
    split at hstep
    · next hmay =>
      obtain ⟨t, hrelease, hinv⟩ := h.release hmay hok
      cases hrelease.symm.trans hstep
      exact hinv
    · cases hstep
  | leak lock =>
    unfold Db.step at hstep
    dsimp only at hstep
    split at hstep
    · next hmay =>
      cases hstep
      exact h.leak hmay hok
    · cases hstep
  | releaseAll =>
    obtain ⟨t, hrelease, hinv, -⟩ := h.releaseAll
    cases hrelease.symm.trans hstep
    exact hinv
  | close =>
    unfold Db.step at hstep
    dsimp only at hstep
    split at hstep
    · obtain ⟨t, hrelease, hinv, -, hnil, -⟩ := h.releaseAll
      rw [hrelease] at hstep
      cases hstep
      exact ⟨hinv.versions, hinv.held, hinv.tracked, hinv.transactions,
        fun _ => hnil⟩
    · cases hstep
  | other event =>
    unfold Db.step at hstep
    dsimp only at hstep
    split at hstep
    · next hother =>
      obtain ⟨versions, hversions, heq⟩ := Option.map_eq_some_iff.1 hstep
      subst heq
      obtain ⟨part, hpart, hheld⟩ := h.held
      obtain ⟨part', hpart', hsame⟩ :=
        held_of_other hother hversions hpart
      exact ⟨inv_step h.versions hversions,
        ⟨part', hpart', hsame ▸ hheld⟩, h.tracked, h.transactions,
        h.detached⟩
    · cases hstep

end

theorem opened {versions : Versions} (h : versions.Inv) :
    Inv versions.participants.length (Db.opened versions) where
  versions := h.join
  held := by
    refine ⟨.joined versions.list, participant_of_get ?_ rfl, .refl _⟩
    exact List.getElem?_concat_length
  tracked := .refl _
  transactions := rfl
  detached _ := rfl

end Inv

-- ===== the runs

/-- The counters count some locks of an object. -/
structure Counted (versions : Versions) (p : ℕ)
    (locks : List ReadLockInfo) : Prop where
  /-- Those of its manager count each lock. -/
  manager : ∃ part, versions.participant p = some part
    ∧ ∀ i type, (part.readers i).fieldForType type
      = locks.countP (ReadLockInfo.isOn i type)
  /-- Those of the lock file count the managers that have a lock. -/
  file : ∀ i < versions.list.entries, ∀ type,
    (versions.list.data i).fieldForType type = versions.holders i type
  /-- The slot of a lock has the version of the lock. -/
  slots : ∀ lock ∈ locks,
    (versions.list.data lock.readerIdx).info = lock.info

theorem Inv.counted (h : Inv p s) :
    Counted s.versions p (s.outstanding ++ s.leaked) := by
  obtain ⟨part, hpart, hheld⟩ := h.held
  have hmem := Inv.mem_of_get (get_of_participant hpart)
  refine ⟨⟨part, hpart, ?_⟩, h.versions.counted, ?_⟩
  · intro i type
    rw [(h.versions.follows part hmem).counts, hheld.countP_eq]
  · intro lock hlock
    exact (h.versions.lock hmem (hheld.mem_iff.2 hlock)).2.2.2.2

/-- The list of held locks is exact. -/
structure Exact (p : ℕ) (s : Db) : Prop where
  tracked : s.localLocksHeld.Perm s.outstanding
  transactions : s.transactionCount = s.outstanding.length
  counted : Counted s.versions p (s.outstanding ++ s.leaked)
  /-- A release of a lock finds its count above zero. -/
  release : ∀ lock ∈ s.outstanding, s.FirstOfType lock
    → (s.step p (.release lock)).isSome = true
  /-- To release all locks finds each of their counts above zero, and
  leaves those of the leaked ones. -/
  releaseAll : ∃ s', s.step p .releaseAll = some s'
    ∧ s'.localLocksHeld = [] ∧ s'.transactionCount = 0
    ∧ Counted s'.versions p s.leaked

theorem Inv.exact (h : Inv p s) : Exact p s where
  tracked := h.tracked
  transactions := h.transactions
  counted := h.counted
  release lock hlock hfirst := by
    have hmay : s.mayRelease lock = true := decide_eq_true (.inl hlock)
    obtain ⟨s', hrelease, -⟩ := h.release hmay hfirst
    show (if s.mayRelease lock = true then _ else none).isSome = true
    rw [if_pos hmay, hrelease]
    rfl
  releaseAll := by
    obtain ⟨s', hrelease, hinv, hnil, hout, hleaked, -⟩ := h.releaseAll
    refine ⟨s', hrelease, hnil, ?_, ?_⟩
    · rw [hinv.transactions, hout]
      rfl
    · have hcounted := hinv.counted
      rw [hout, hleaked] at hcounted
      exact hcounted

/-- An object is opened at any time of a session. While each lock that it
releases or leaks has the type that is found first for its version, its
list of held locks is exact. -/
theorem held_locks_exact {list : VersionList} {info : VersionInfo}
    {v₀ v : Versions} (hentries : 0 < list.entries)
    (hversion : 0 < info.version) (hmax : info.version < maxVersion)
    (hstart : Versions.start list info = some v₀)
    (hsession : Sys.Run Versions.step (fun _ _ => True) v₀ v)
    (hrun : Sys.Run (step · v.participants.length) Expected (opened v) s) :
    Exact v.participants.length s := by
  have hinv : v.Inv := hsession.invariant (I := Versions.Inv)
    (inv_start hentries hversion hmax hstart)
    fun t a u ht _ hstep => inv_step ht hstep
  have hheld := hrun.invariant (I := Inv v.participants.length)
    (Inv.opened hinv) fun t a u ht hok hstep => ht.step hok hstep
  exact hheld.exact

private def sessionList : VersionList := ⟨fun _ => {}, 32, 0, 0⟩

private def firstVersion : VersionInfo := ⟨1, 24, 200⟩

/-- Both types on one version: the live lock, which was grabbed first, is
released, and the frozen one leaked. -/
private def inOrder : List Event :=
  [.grab .live {}, .grab .frozen {}, .grab .frozen {},
    .release ⟨.live, 0, firstVersion⟩, .leak ⟨.frozen, 0, firstVersion⟩]

theorem held_locks_exact_leaked :
    ∃ v s, Versions.start sessionList firstVersion = some v
      ∧ Sys.exec (step · 0) (opened v) inOrder = some s
      ∧ s.localLocksHeld = [⟨.frozen, 0, firstVersion⟩]
      ∧ s.leaked = [⟨.frozen, 0, firstVersion⟩] ∧ Exact 0 s := by
  obtain ⟨v, hv, hstate⟩ := (Option.any_eq_true _ _).1
    (show (start sessionList firstVersion).any (fun v =>
        (Sys.exec (step · 0) (opened v) inOrder).any (fun s =>
          s.localLocksHeld = [⟨.frozen, 0, firstVersion⟩]
            ∧ s.leaked = [⟨.frozen, 0, firstVersion⟩])
        ∧ Sys.ExecOk (step · 0) Expected (opened v) inOrder
        ∧ v.participants.length = 0) = true by decide +kernel)
  obtain ⟨hexec, hok, hzero⟩ := of_decide_eq_true hstate
  obtain ⟨s, hs, hstate⟩ := (Option.any_eq_true _ _).1 hexec
  have hstate := of_decide_eq_true hstate
  refine ⟨v, s, hv, hs, hstate.1, hstate.2, ?_⟩
  rw [← hzero] at hs hok ⊢
  exact held_locks_exact (by decide) (by decide) (by decide) hv .refl
    (Sys.run_of_exec hs hok)

/-- The frozen lock, which was grabbed last, is released first: the record
of the live one is removed, and to release all locks then finds the count
of frozen ones at zero. -/
theorem release_untracks_other_type :
    ∃ v s, Versions.start sessionList firstVersion = some v
      ∧ Sys.exec (step · 0) (opened v) [.grab .live {}, .grab .frozen {},
        .release ⟨.frozen, 0, firstVersion⟩] = some s
      ∧ s.outstanding = [⟨.live, 0, firstVersion⟩]
      ∧ s.localLocksHeld = [⟨.frozen, 0, firstVersion⟩]
      ∧ (∃ part, s.versions.participant 0 = some part
        ∧ (part.readers 0).countLive = 1 ∧ (part.readers 0).countFrozen = 0)
      ∧ s.releaseAllReadLocks 0 = none := by
  obtain ⟨v, hv, hstate⟩ := (Option.any_eq_true _ _).1
    (show (start sessionList firstVersion).any (fun v =>
        (Sys.exec (step · 0) (opened v) [.grab .live {}, .grab .frozen {},
          .release ⟨.frozen, 0, firstVersion⟩]).any (fun s =>
            s.outstanding = [⟨.live, 0, firstVersion⟩]
            ∧ s.localLocksHeld = [⟨.frozen, 0, firstVersion⟩]
            ∧ (s.versions.participant 0).any (fun part =>
              (part.readers 0).countLive = 1
                ∧ (part.readers 0).countFrozen = 0)
            ∧ (s.releaseAllReadLocks 0).isNone)) = true by decide +kernel)
  obtain ⟨s, hs, hstate⟩ := (Option.any_eq_true _ _).1 hstate
  obtain ⟨hout, hheld, hcounts, hnone⟩ := of_decide_eq_true hstate
  obtain ⟨part, hpart, hcounts⟩ := (Option.any_eq_true _ _).1 hcounts
  exact ⟨v, s, hv, hs, hout, hheld, ⟨part, hpart,
    of_decide_eq_true hcounts⟩, Option.isNone_iff_eq_none.1 hnone⟩

end Db

end BarqSync.Storage
