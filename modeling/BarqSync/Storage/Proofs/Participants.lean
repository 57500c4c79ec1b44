/-
What participants count, and how grabs and releases keep it.

# The invariant

`Follows` is about one participant: it counts the locks that it holds,
and the slots that it counts have the data that it cached. What joins
this to the list is `Inv.counted`: the lock file counts, for each slot
and type, the participants that have such a lock. So a slot that some
participant has a lock on is locked, and with it settled.

# The steps

Participants follow a list of which only unlocked slots change
(`Inv.relist`). Grabs and releases replace one participant, with the
count of one slot (`Inv.recount`) or without (`Inv.replace`).
-/
import BarqSync.Storage.Proofs.Versions

namespace BarqSync.Storage

open Function (update update_self update_of_ne)
open VersionList (Sound Kept Settled)
open Participant (mismatch)
open ReadCount (fieldForType_setField)

-- ===== participants

/-- The locks of a type on a slot. -/
def ReadLockInfo.isOn (i : ℕ) (type : LockType) (lock : ReadLockInfo) :
    Bool :=
  lock.readerIdx = i ∧ lock.type = type

open ReadLockInfo (isOn)

/-- A participant and the list agree. -/
structure Participant.Follows (part : Participant) (list : VersionList) :
    Prop where
  counts : ∀ i type, (part.readers i).fieldForType type
    = part.held.countP (isOn i type)
  active : ∀ i, (part.readers i).version ≠ 0
    ↔ (part.readers i).unlocked = false
  cached : ∀ i, (part.readers i).version ≠ 0
    → i < part.size ∧ i < part.maxEntry
      ∧ (part.readers i).info = (list.data i).info
  mapped : part.maxEntry ≤ list.entries
  locks : ∀ lock ∈ part.held, lock.info = (list.data lock.readerIdx).info

namespace Participant.Follows

variable {part : Participant} {list list' : VersionList} {index : ℕ}

section

variable (h : part.Follows list)

include h

theorem counted_of_mem {lock : ReadLockInfo} (hlock : lock ∈ part.held) :
    (part.readers lock.readerIdx).fieldForType lock.type ≠ 0 := by
  rw [h.counts]
  refine Nat.pos_iff_ne_zero.1 (List.countP_pos_iff.2 ⟨lock, hlock, ?_⟩)
  simp [isOn]

theorem active_of_field {i : ℕ} {type : LockType}
    (hfield : (part.readers i).fieldForType type ≠ 0) :
    (part.readers i).version ≠ 0 := by
  rw [h.active, ← Bool.not_eq_true, ReadCount.unlocked_iff]
  exact fun hall => hfield (hall type)

theorem field_of_inactive {i : ℕ}
    (hversion : (part.readers i).version = 0) (type : LockType) :
    (part.readers i).fieldForType type = 0 := by
  by_contra hfield
  exact h.active_of_field hfield hversion

/-- A list that has the same data in the slots that are counted. -/
theorem relist (hentries : list.entries ≤ list'.entries)
    (hinfo : ∀ i, (part.readers i).version ≠ 0
      → (list'.data i).info = (list.data i).info) :
    part.Follows list' where
  counts := h.counts
  active := h.active
  cached i hi := by
    obtain ⟨hsize, hmax, heq⟩ := h.cached i hi
    exact ⟨hsize, hmax, heq.trans (hinfo i hi).symm⟩
  mapped := h.mapped.trans hentries
  locks lock hlock := by
    rw [hinfo _ (h.active_of_field (h.counted_of_mem hlock))]
    exact h.locks lock hlock

theorem remap {maxEntry : ℕ} {alive : Bool}
    (hmax : part.maxEntry ≤ maxEntry) (hmapped : maxEntry ≤ list.entries) :
    Participant.Follows
      { part with maxEntry := maxEntry, alive := alive } list where
  counts := h.counts
  active := h.active
  cached i hi := by
    obtain ⟨hsize, hmax', heq⟩ := h.cached i hi
    exact ⟨hsize, hmax'.trans_le hmax, heq⟩
  mapped := hmapped
  locks := h.locks

end

theorem joined : (Participant.joined list).Follows list where
  counts i type := by
    cases type <;> rfl
  active i := by
    constructor
    · intro h
      exact absurd rfl h
    · intro h
      exact Bool.noConfusion h
  cached i hi := absurd rfl hi
  mapped := le_refl _
  locks lock hlock := absurd hlock List.not_mem_nil

theorem ensureReaderMapping (h : part.Follows list)
    (hindex : index < list.entries) :
    (part.ensureReaderMapping list index).Follows list
      ∧ index < (part.ensureReaderMapping list index).maxEntry := by
  unfold Participant.ensureReaderMapping
  split
  case isTrue hlt => exact ⟨h, hlt⟩
  case isFalse =>
    exact ⟨h.remap (le_max_left _ _) (max_le h.mapped (le_refl _)),
      hindex.trans_le (le_max_right _ _)⟩

/-- The entries that are added count nothing, as before. -/
theorem growLocalCache (h : part.Follows list) (size : ℕ) :
    (part.growLocalCache size).Follows list
      ∧ size ≤ (part.growLocalCache size).size
      ∧ (part.growLocalCache size).held = part.held
      ∧ (part.growLocalCache size).maxEntry = part.maxEntry
      ∧ ∀ i type, ((part.growLocalCache size).readers i).fieldForType type
        = (part.readers i).fieldForType type := by
  unfold Participant.growLocalCache
  split
  case isFalse hge =>
    exact ⟨h, Nat.not_lt.1 hge, rfl, rfl, fun _ _ => rfl⟩
  case isTrue hlt =>
    have hfield : ∀ i type, (if i < part.size then part.readers i
        else {} : ReadCount).fieldForType type
          = (part.readers i).fieldForType type := by
      intro i type
      split
      · rfl
      · next hi =>
        have hzero : (part.readers i).version = 0 := by
          by_contra hne
          exact hi (h.cached i hne).1
        rw [h.field_of_inactive hzero]
        cases type <;> rfl
    refine ⟨⟨fun i type => ?_, fun i => ?_, fun i hi => ?_, h.mapped,
      h.locks⟩, le_refl _, rfl, rfl, hfield⟩
    · rw [← h.counts i type]
      exact hfield i type
    · dsimp only
      split
      · exact h.active i
      · simp [ReadCount.unlocked]
    · dsimp only at hi ⊢
      split at hi
      · next hi' =>
        obtain ⟨hsize, hmax, heq⟩ := h.cached i hi
        rw [if_pos hi']
        exact ⟨hsize.trans hlt, hmax, heq⟩
      · exact absurd rfl hi

/-- One local entry gets a count, with a lock that is grabbed or
released. -/
theorem setReader (h : part.Follows list) {r : ReadCount}
    {held : List ReadLockInfo}
    (hcounts : ∀ i type', held.countP (isOn i type')
      = if i = index then r.fieldForType type'
        else part.held.countP (isOn i type'))
    (hactive : r.version ≠ 0 ↔ r.unlocked = false)
    (hcached : r.version ≠ 0 → index < part.size ∧ index < part.maxEntry
      ∧ r.info = (list.data index).info) (hlocks : ∀ lock ∈ held,
      lock.info = (list.data lock.readerIdx).info) :
    Participant.Follows { part.setReader index r with held := held }
      list where
  counts i type' := by
    show (update part.readers index r i).fieldForType type' = _
    rw [hcounts]
    by_cases hi : i = index
    · rw [if_pos hi, hi, update_self]
    · rw [if_neg hi, update_of_ne hi, h.counts]
  active i := by
    show (update part.readers index r i).version ≠ 0
      ↔ (update part.readers index r i).unlocked = false
    by_cases hi : i = index
    · rw [hi, update_self]
      exact hactive
    · rw [update_of_ne hi]
      exact h.active i
  cached i := by
    show (update part.readers index r i).version ≠ 0
      → i < part.size ∧ i < part.maxEntry
        ∧ (update part.readers index r i).info = _
    by_cases hi : i = index
    · rw [hi, update_self]
      exact hcached
    · rw [update_of_ne hi]
      exact h.cached i
  mapped := h.mapped
  locks := hlocks

end Participant.Follows

-- ===== the invariant

namespace Versions

variable {s : Versions} {p : ℕ} {part part' : Participant}
  {type : LockType} {index : ℕ} {list : VersionList} {id : VersionID}
  {held : List ReadLockInfo} {info : VersionInfo}

/-- The participants that have a lock on a slot. -/
def holders (s : Versions) (i : ℕ) (type : LockType) : ℕ :=
  s.participants.countP fun part =>
    (part.readers i).fieldForType type ≠ 0

structure Inv (s : Versions) : Prop where
  sound : s.list.Sound s.added
  follows : ∀ part ∈ s.participants, part.Follows s.list
  counted : ∀ i < s.list.entries, ∀ type,
    (s.list.data i).fieldForType type = s.holders i type

theorem countP_set {α : Type} {l : List α} {i : ℕ} {a b : α}
    (hget : l[i]? = some a) (q : α → Bool) :
    (l.set i b).countP q + (if q a then 1 else 0)
      = l.countP q + (if q b then 1 else 0) := by
  induction l generalizing i with
  | nil => simp at hget
  | cons c l ih =>
    cases i with
    | zero =>
      cases hget
      simp only [List.set_cons_zero, List.countP_cons]
      omega
    | succ i =>
      have h := ih hget
      simp only [List.set_cons_succ, List.countP_cons]
      omega

namespace Inv

/-- A slot that is counted by a participant is locked in the list. -/
theorem locked (h : Inv s) (hpart : part ∈ s.participants) {i : ℕ}
    (hfield : (part.readers i).fieldForType type ≠ 0) :
    i < s.list.entries ∧ (s.list.data i).fieldForType type ≠ 0
      ∧ (s.list.data i).unlocked = false ∧ s.list.Settled i := by
  have hfollows := h.follows part hpart
  have hi : i < s.list.entries :=
    (hfollows.cached i (hfollows.active_of_field hfield)).2.1.trans_le
      hfollows.mapped
  have hshared : (s.list.data i).fieldForType type ≠ 0 := by
    rw [h.counted i hi]
    refine Nat.pos_iff_ne_zero.1 (List.countP_pos_iff.2 ⟨part, hpart, ?_⟩)
    simpa using hfield
  have hunlocked : (s.list.data i).unlocked = false := by
    rw [← Bool.not_eq_true, ReadCount.unlocked_iff]
    exact fun hall => hshared (hall type)
  refine ⟨hi, hshared, hunlocked, ?_⟩
  by_contra hsettled
  rw [h.sound.unlocked i hi hsettled] at hunlocked
  exact Bool.noConfusion hunlocked

/-- Only slots that are not locked change. -/
theorem relist (h : Inv s) {added : List VersionInfo}
    (hkept : s.list.Kept list) (hsound : list.Sound added) :
    Inv { s with list := list, added := added } where
  sound := hsound
  follows part hpart := by
    refine (h.follows part hpart).relist hkept.entries fun i hi => ?_
    have hlocked := ((h.follows part hpart).active i).1 hi
    rw [← Bool.not_eq_true, ReadCount.unlocked_iff, not_forall] at hlocked
    obtain ⟨type, hfield⟩ := hlocked
    have hshared := h.locked hpart hfield
    exact hkept.info i hshared.1 hshared.2.2.1
  counted i hi type := by
    show (list.data i).fieldForType type = s.holders i type
    rcases Nat.lt_or_ge i s.list.entries with hlt | hge
    · rw [hkept.field i hlt, h.counted i hlt]
    · rw [ReadCount.unlocked_iff.1 (hkept.fresh i hge hi)]
      -- nobody has mapped the slot yet
      refine (List.countP_eq_zero.2 fun part hpart hfield => ?_).symm
      have hshared := h.locked hpart (by simpa using hfield)
      exact absurd hshared.1 (Nat.not_lt.2 hge)

theorem mem_of_get (hget : s.participants[p]? = some part) :
    part ∈ s.participants :=
  List.mem_of_getElem? hget

/-- A participant changes, but has locks on the same slots. -/
theorem replace (h : Inv s) (hget : s.participants[p]? = some part)
    (hfollows : part'.Follows s.list)
    (hsame : ∀ i type, (part'.readers i).fieldForType type ≠ 0
      ↔ (part.readers i).fieldForType type ≠ 0) :
    Inv (s.withParticipant p part') where
  sound := h.sound
  follows other hother := by
    rcases List.mem_or_eq_of_mem_set hother with hmem | heq
    · exact h.follows other hmem
    · rw [heq]
      exact hfollows
  counted i hi type := by
    refine (h.counted i hi type).trans ?_
    have hset := countP_set (b := part') hget fun part =>
      (part.readers i).fieldForType type ≠ 0
    simp only [decide_eq_true_eq, hsame i type] at hset
    exact (Nat.add_right_cancel hset).symm

/-- A participant changes together with the count of one slot. -/
theorem recount (h : Inv s) (hget : s.participants[p]? = some part)
    {count : ℕ} (hsettled : s.list.Settled index)
    (hfollows : part'.Follows s.list)
    (hsame : ∀ i type', ¬ (i = index ∧ type' = type)
      → ((part'.readers i).fieldForType type' ≠ 0
        ↔ (part.readers i).fieldForType type' ≠ 0)) (hcount : count
        + (if (part.readers index).fieldForType type ≠ 0 then 1 else 0)
      = (s.list.data index).fieldForType type
        + (if (part'.readers index).fieldForType type ≠ 0 then 1
          else 0)) :
    Inv { s with
      list := s.list.setEntry index
        ((s.list.data index).setField count type)
      participants := s.participants.set p part' } where
  sound := h.sound.setField hsettled
  follows other hother := by
    have hold : other.Follows s.list := by
      rcases List.mem_or_eq_of_mem_set hother with hmem | heq
      · exact h.follows other hmem
      · rw [heq]
        exact hfollows
    refine hold.relist (le_refl _) fun i _ => ?_
    show (update s.list.data index _ i).info = _
    by_cases hi : i = index
    · rw [hi, update_self, ReadCount.info_setField]
    · rw [update_of_ne hi]
  counted i hi type' := by
    have hold := h.counted i hi type'
    unfold holders at hold ⊢
    have hset := countP_set (b := part') hget fun part =>
      (part.readers i).fieldForType type' ≠ 0
    show (update s.list.data index _ i).fieldForType type'
      = (s.participants.set p part').countP _
    simp only [decide_eq_true_eq] at hset
    by_cases hslot : i = index ∧ type' = type
    · obtain ⟨hi', htype⟩ := hslot
      subst hi' htype
      rw [update_self, fieldForType_setField, if_pos rfl]
      omega
    · simp only [hsame i type' hslot] at hset
      have hfield : (update s.list.data index
          ((s.list.data index).setField count type) i).fieldForType type'
            = (s.list.data i).fieldForType type' := by
        by_cases hi' : i = index
        · have htype : type' ≠ type := fun h' => hslot ⟨hi', h'⟩
          rw [hi', update_self, fieldForType_setField,
            if_neg htype]
        · rw [update_of_ne hi']
      rw [hfield, hold]
      exact (Nat.add_right_cancel hset).symm

theorem join (h : Inv s) :
    Inv { s with participants := s.participants ++ [.joined s.list] } where
  sound := h.sound
  follows part hpart := by
    rcases List.mem_append.1 hpart with hmem | hmem
    · exact h.follows part hmem
    · rw [List.mem_singleton.1 hmem]
      exact .joined
  counted i hi type := by
    refine (h.counted i hi type).trans ?_
    have hnone : ((Participant.joined s.list).readers i).fieldForType type
        = 0 := by
      cases type <;> rfl
    simp [holders, hnone]

end Inv

-- ----- grabbing a lock

theorem countP_isOn_cons {lock : ReadLockInfo} (i : ℕ) (type : LockType) :
    (lock :: held).countP (isOn i type)
      = held.countP (isOn i type)
        + if i = lock.readerIdx ∧ type = lock.type then 1 else 0 := by
  rw [List.countP_cons]
  congr 1
  refine if_congr ?_ rfl rfl
  simp only [isOn, decide_eq_true_eq]
  exact and_congr eq_comm eq_comm

/-- The participant that has one more lock, with an entry that counts
what its own did. -/
theorem grab_follows (h : part.Follows list) {r : ReadCount} {count : ℕ}
    (hsize : index < part.size) (hmax : index < part.maxEntry)
    (hversion : r.version ≠ 0) (hr : r.info = (list.data index).info)
    (hinfo : info = (list.data index).info)
    (hfield : ∀ type', r.fieldForType type'
      = (part.readers index).fieldForType type')
    (hcount : count = r.fieldForType type + 1) :
    Participant.Follows { part.setReader index (r.setField count type) with
      held := ⟨type, index, info⟩ :: part.held } list := by
  refine h.setReader ?_ ?_ ?_ ?_
  · intro i type'
    rw [countP_isOn_cons, ← h.counts]
    by_cases hi : i = index
    · subst hi
      rw [if_pos rfl, fieldForType_setField, ← hfield]
      by_cases htype : type' = type
      · subst htype
        simp [hcount]
      · simp [htype]
    · simp [hi]
  · rw [ReadCount.version_setField]
    refine iff_of_true hversion ?_
    rw [← Bool.not_eq_true, ReadCount.unlocked_iff]
    intro hall
    have hzero := hall type
    rw [fieldForType_setField, if_pos rfl, hcount] at hzero
    exact absurd hzero (Nat.succ_ne_zero _)
  · intro _
    rw [ReadCount.info_setField]
    exact ⟨hsize, hmax, hr⟩
  · exact List.forall_mem_cons.2 ⟨hinfo, h.locks⟩

theorem Inv.grabLocal (h : Inv s) (hget : s.participants[p]? = some part)
    (hfield : (part.readers index).fieldForType type ≠ 0) :
    Inv (s.grabbed p (.ok ⟨type, index, (part.readers index).info⟩,
      part.setReader index ((part.readers index).setField
        ((part.readers index).fieldForType type + 1) type), s.list)) := by
  have hfollows := h.follows part (Inv.mem_of_get hget)
  have hactive := hfollows.active_of_field hfield
  obtain ⟨hsize, hmax, hinfo⟩ := hfollows.cached index hactive
  refine h.replace hget (grab_follows hfollows hsize hmax hactive hinfo
    hinfo (fun _ => rfl) rfl) ?_
  intro i type'
  show (update part.readers index _ i).fieldForType type' ≠ 0 ↔ _
  by_cases hi : i = index
  · subst hi
    rw [update_self, fieldForType_setField]
    split
    · next htype =>
      subst htype
      simp [hfield]
    · rfl
  · rw [update_of_ne hi]

/-- The participant that a lock of the lock file is added to. -/
def prepared (part : Participant) (list : VersionList) (index : ℕ) :
    Participant :=
  (part.ensureReaderMapping list index).growLocalCache (index + 1)

theorem prepared_follows (h : part.Follows list)
    (hindex : index < list.entries) :
    (prepared part list index).Follows list
      ∧ index < (prepared part list index).size
      ∧ index < (prepared part list index).maxEntry
      ∧ (prepared part list index).held = part.held
      ∧ ∀ i type, ((prepared part list index).readers i).fieldForType type
        = (part.readers i).fieldForType type := by
  obtain ⟨hfollows, hmax⟩ := h.ensureReaderMapping hindex
  obtain ⟨hgrown, hsize, hheld, hmax', hfield⟩ :=
    hfollows.growLocalCache (index + 1)
  have hensured : (part.ensureReaderMapping list index).held = part.held
      ∧ (part.ensureReaderMapping list index).readers
        = part.readers := by
    unfold Participant.ensureReaderMapping
    split <;> exact ⟨rfl, rfl⟩
  refine ⟨hgrown, hsize, ?_, hheld.trans hensured.1, ?_⟩
  · exact hmax'.symm ▸ hmax
  · intro i type
    rw [← hensured.2]
    exact hfield i type

/-- The local entry for a lock has the data of the lock, and the counts
that the participant had. -/
theorem cachedReader_eq (lock : ReadLockInfo) (h : part.Follows list)
    (hlock : lock.info = (list.data lock.readerIdx).info) :
    (part.cachedReader lock).info = lock.info
      ∧ ∀ type, (part.cachedReader lock).fieldForType type
        = (part.readers lock.readerIdx).fieldForType type := by
  unfold Participant.cachedReader
  dsimp only
  split
  case isTrue hactive =>
    have hversion := ReadCount.isActive_iff.1 hactive
    exact ⟨(h.cached _ hversion).2.2.trans hlock.symm, fun _ => rfl⟩
  case isFalse hactive =>
    refine ⟨rfl, fun type => ?_⟩
    have hversion : (part.readers lock.readerIdx).version = 0 := by
      by_contra hne
      exact hactive (ReadCount.isActive_iff.2 hne)
    rw [h.field_of_inactive hversion]
    cases type <;> rfl

/-- The slot of a lock that is not refused is settled. -/
theorem Inv.settled_of_not_refused (h : Inv s)
    (hindex : index < s.list.entries)
    (hrefused : Participant.refused s.list index type = false) :
    s.list.Settled index := by
  by_contra hsettled
  have hne : index ≠ s.list.newest := fun h' =>
    hsettled (h' ▸ h.sound.newest)
  have hunlocked := ReadCount.unlocked_iff.1
    (h.sound.unlocked index hindex hsettled)
  have hfrozen : (s.list.data index).countFrozen = 0 := hunlocked .frozen
  have hlive : (s.list.data index).countLive = 0 := hunlocked .live
  simp [Participant.refused, hne, hfrozen, hlive] at hrefused

theorem Inv.grabShared (h : Inv s) (hget : s.participants[p]? = some part)
    (hindex : index < s.list.entries)
    (hrefused : Participant.refused s.list index type = false)
    (hzero : (part.readers index).fieldForType type = 0) :
    Inv (s.grabbed p (.ok ⟨type, index, (s.list.data index).info⟩,
      (prepared part s.list index).setReader index
        (((prepared part s.list index).cachedReader
          ⟨type, index, (s.list.data index).info⟩).setField 1 type),
      s.list.setEntry index ((s.list.data index).setField
        ((s.list.data index).fieldForType type + 1) type))) := by
  have hsettled := h.settled_of_not_refused hindex hrefused
  obtain ⟨hfollows, hsize, hmax, hheld, hfield⟩ :=
    prepared_follows (h.follows part (Inv.mem_of_get hget)) hindex
  obtain ⟨hinfo, hcached⟩ := cachedReader_eq
    ⟨type, index, (s.list.data index).info⟩ hfollows rfl
  have hversion : ((prepared part s.list index).cachedReader
      ⟨type, index, (s.list.data index).info⟩).version ≠ 0 := by
    intro hzero'
    have heq := congrArg VersionInfo.version hinfo
    exact hsettled.2.1 (heq.symm.trans hzero')
  have hcount := (hcached type).trans ((hfield index type).trans hzero)
  refine h.recount hget hsettled (grab_follows hfollows hsize hmax hversion
    hinfo rfl hcached (congrArg (· + 1) hcount).symm) ?_ ?_
  · intro i type' hslot
    show (update (prepared part s.list index).readers index _
      i).fieldForType type' ≠ 0 ↔ _
    rw [← hfield i type']
    by_cases hi : i = index
    · have htype : type' ≠ type := fun h' => hslot ⟨hi, h'⟩
      subst hi
      rw [update_self, fieldForType_setField,
        if_neg htype, hcached type']
    · rw [update_of_ne hi]
  · show _ = _ + if (update (prepared part s.list index).readers
      index _ index).fieldForType type ≠ 0 then 1 else 0
    rw [update_self, fieldForType_setField, if_pos rfl, hzero]
    simp

theorem pickedIndex_lt (h : Inv s) (hid : id.index < s.list.entries) :
    Participant.pickedIndex s.list id < s.list.entries := by
  unfold Participant.pickedIndex
  split
  · exact hid
  · exact h.sound.newest.1

/-- A grab is of a lock that the participant has, is refused, or is a
new lock in the lock file. No assertion fails. -/
theorem Inv.grabReadLock_cases (h : Inv s)
    (hget : s.participants[p]? = some part) (type : LockType)
    (hindex : index < s.list.entries)
    (hpicked : Participant.pickedIndex s.list id = index) :
    (mismatch id (s.list.data index) = false
      ∧ (part.readers index).fieldForType type ≠ 0
      ∧ part.grabReadLock s.list type id
        = some (.ok ⟨type, index, (part.readers index).info⟩,
          part.setReader index ((part.readers index).setField
            ((part.readers index).fieldForType type + 1) type), s.list))
    ∨ ((mismatch id (s.list.data index) = true
        ∨ Participant.refused s.list index type = true)
      ∧ part.grabReadLock s.list type id
        = some (.error id, part.ensureReaderMapping s.list index, s.list))
    ∨ (mismatch id (s.list.data index) = false
      ∧ Participant.refused s.list index type = false
      ∧ (part.readers index).fieldForType type = 0
      ∧ part.grabReadLock s.list type id
        = some (.ok ⟨type, index, (s.list.data index).info⟩,
          (prepared part s.list index).setReader index
            (((prepared part s.list index).cachedReader
              ⟨type, index, (s.list.data index).info⟩).setField 1 type),
          s.list.setEntry index ((s.list.data index).setField
            ((s.list.data index).fieldForType type + 1) type))) := by
  have hfollows := h.follows part (Inv.mem_of_get hget)
  by_cases hlocal : (part.readers index).fieldForType type ≠ 0
      ∧ mismatch id (s.list.data index) = false
  · left
    obtain ⟨hfield, hmismatch⟩ := hlocal
    have hactive := hfollows.active_of_field hfield
    obtain ⟨hsize, -, hinfo⟩ := hfollows.cached index hactive
    have hversion : (part.readers index).version
        = (s.list.data index).version :=
      congrArg VersionInfo.version hinfo
    refine ⟨hmismatch, hfield, ?_⟩
    have hguard : ¬ (part.size ≤ index
        ∨ (!(part.readers index).isActive) = true
        ∨ mismatch id (part.readers index) = true
        ∨ (part.readers index).fieldForType type = 0) := by
      unfold mismatch at hmismatch ⊢
      rw [hversion, hmismatch, ReadCount.isActive_iff.2 hactive]
      simp [hsize, hfield]
    unfold Participant.grabReadLock Participant.tryGrabLocalReadLock
    dsimp only
    rw [hpicked, if_neg hguard]
    rfl
  · right
    have hnone : part.tryGrabLocalReadLock s.list type id = none := by
      unfold Participant.tryGrabLocalReadLock
      dsimp only
      rw [hpicked, if_pos]
      by_contra hguard
      rw [not_or, not_or, not_or] at hguard
      refine hlocal ⟨hguard.2.2.2, ?_⟩
      have hactive := hfollows.active_of_field hguard.2.2.2
      have hversion : (part.readers index).version
          = (s.list.data index).version :=
        congrArg VersionInfo.version (hfollows.cached index hactive).2.2
      unfold mismatch at hguard ⊢
      rw [← hversion]
      exact Bool.not_eq_true _ ▸ hguard.2.2.1
    have hshared : part.grabReadLock s.list type id
        = part.grabShared s.list type id := by
      rw [Participant.grabReadLock, hnone]
      rfl
    rw [hshared]
    unfold Participant.grabShared
    dsimp only
    rw [hpicked]
    by_cases hguard : mismatch id (s.list.data index) = true
        ∨ Participant.refused s.list index type = true
    · left
      rw [if_pos hguard]
      exact ⟨hguard, rfl⟩
    · right
      rw [if_neg hguard]
      rw [not_or, Bool.not_eq_true, Bool.not_eq_true] at hguard
      have hzero : (part.readers index).fieldForType type = 0 := by
        by_contra hne
        exact hlocal ⟨hne, hguard.1⟩
      refine ⟨hguard.1, hguard.2, hzero, ?_⟩
      rw [if_neg]
      · rfl
      · obtain ⟨hprepared, -, -, -, hfield⟩ :=
          prepared_follows hfollows hindex
        have hcached := (cachedReader_eq
          ⟨type, index, (s.list.data index).info⟩ hprepared rfl).2 type
        show ¬ (((prepared part s.list index).cachedReader
          ⟨type, index, (s.list.data index).info⟩).fieldForType type ≠ 0)
        rw [hcached, hfield, not_not]
        exact hzero

theorem Inv.grabbed (h : Inv s) (hget : s.participants[p]? = some part)
    {out : Except VersionID ReadLockInfo × Participant × VersionList}
    (hid : id.index < s.list.entries)
    (hgrab : part.grabReadLock s.list type id = some out) :
    Inv (s.grabbed p out) := by
  have hindex := pickedIndex_lt h hid
  rcases h.grabReadLock_cases hget type hindex rfl with hcase | hcase | hcase
  · obtain ⟨-, hfield, heq⟩ := hcase
    cases hgrab.symm.trans heq
    exact h.grabLocal hget hfield
  · obtain ⟨-, heq⟩ := hcase
    cases hgrab.symm.trans heq
    have hfollows := (h.follows part (Inv.mem_of_get hget))
    refine h.replace hget (hfollows.ensureReaderMapping hindex).1 ?_
    intro i type'
    show ((part.ensureReaderMapping _ _).readers i).fieldForType type' ≠ 0
      ↔ _
    unfold Participant.ensureReaderMapping
    split <;> rfl
  · obtain ⟨-, hrefused, hzero, heq⟩ := hcase
    cases hgrab.symm.trans heq
    exact h.grabShared hget hindex hrefused hzero

-- ----- releasing a lock

theorem countP_isOn_erase {lock : ReadLockInfo} (hlock : lock ∈ held)
    (i : ℕ) (type : LockType) :
    (held.erase lock).countP (isOn i type)
      = held.countP (isOn i type)
        - if i = lock.readerIdx ∧ type = lock.type then 1 else 0 := by
  have hperm := (List.perm_cons_erase hlock).countP_eq
    (isOn i type)
  rw [countP_isOn_cons] at hperm
  omega

/-- A local entry that counts nothing any more is dropped. -/
theorem releasedReader_eq (part : Participant) (lock : ReadLockInfo) :
    (part.releasedReader lock).unlocked = true
        ∧ (part.releasedReader lock).version = 0
      ∨ (part.releasedReader lock).unlocked = false
        ∧ (part.releasedReader lock).info
          = (part.readers lock.readerIdx).info := by
  unfold Participant.releasedReader
  dsimp only
  split
  case isTrue hdrop => exact .inl ⟨hdrop.2, rfl⟩
  case isFalse hkeep =>
    refine .inr ⟨?_, ReadCount.info_setField⟩
    rw [← Bool.not_eq_true]
    intro hunlocked
    exact hkeep ⟨ReadCount.unlocked_iff.1 hunlocked lock.type, hunlocked⟩

theorem fieldForType_releasedReader {lock : ReadLockInfo} :
    (part.releasedReader lock).fieldForType type
      = (part.readers lock.readerIdx).fieldForType type
        - if type = lock.type then 1 else 0 := by
  have hset : ((part.readers lock.readerIdx).setField
      ((part.readers lock.readerIdx).fieldForType lock.type - 1)
        lock.type).fieldForType type
      = (part.readers lock.readerIdx).fieldForType type
        - if type = lock.type then 1 else 0 := by
    rw [fieldForType_setField]
    split
    · next htype => rw [htype]
    · rfl
  rw [← hset]
  unfold Participant.releasedReader
  dsimp only
  split
  · cases type <;> rfl
  · rfl

/-- The participant that releases a lock. -/
def dropped (part : Participant) (lock : ReadLockInfo) : Participant :=
  { part.setReader lock.readerIdx (part.releasedReader lock) with
    held := part.held.erase lock }

theorem dropped_follows {lock : ReadLockInfo} (h : part.Follows list)
    (hlock : lock ∈ part.held) :
    (dropped part lock).Follows list := by
  have hversion := h.active_of_field (h.counted_of_mem hlock)
  refine h.setReader ?_ ?_ ?_ ?_
  · intro i type
    rw [countP_isOn_erase hlock, ← h.counts]
    by_cases hi : i = lock.readerIdx
    · rw [if_pos hi, fieldForType_releasedReader, hi]
      simp
    · simp [hi]
  · rcases releasedReader_eq part lock with hcase | hcase
    · simp [hcase.1, hcase.2]
    · refine iff_of_true ?_ hcase.1
      rw [show (part.releasedReader lock).version
        = (part.readers lock.readerIdx).version from
          congrArg VersionInfo.version hcase.2]
      exact hversion
  · intro hne
    rcases releasedReader_eq part lock with hcase | hcase
    · exact absurd hcase.2 hne
    · rw [hcase.2]
      exact h.cached _ hversion
  · intro other hother
    exact h.locks other (List.mem_of_mem_erase hother)

/-- A lock that is held can be released: no assertion fails. -/
theorem Inv.release (h : Inv s) (hget : s.participants[p]? = some part)
    {lock : ReadLockInfo} (hlock : lock ∈ part.held) :
    ∃ out, part.releaseReadLock s.list lock = some out
      ∧ Inv { s with
          list := out.2
          participants := s.participants.set p { out.1 with
            held := out.1.held.erase lock } } := by
  have hpart := Inv.mem_of_get hget
  have hfollows := h.follows part hpart
  have hfield := hfollows.counted_of_mem hlock
  have hactive := hfollows.active_of_field hfield
  obtain ⟨hsize, hmax, -⟩ := hfollows.cached _ hactive
  obtain ⟨-, hshared, -, hsettled⟩ := h.locked hpart hfield
  have hversion : lock.info.version
      = (s.list.data lock.readerIdx).version :=
    congrArg VersionInfo.version (hfollows.locks lock hlock)
  have hsame : ∀ i type, ¬ (i = lock.readerIdx ∧ type = lock.type)
      → ((dropped part lock).readers i).fieldForType type
        = (part.readers i).fieldForType type := by
    intro i type hslot
    show (update part.readers _ _ i).fieldForType type = _
    by_cases hi : i = lock.readerIdx
    · have htype : type ≠ lock.type := fun h' => hslot ⟨hi, h'⟩
      rw [hi, update_self, fieldForType_releasedReader,
        if_neg htype, Nat.sub_zero]
    · rw [update_of_ne hi]
  have hself : ((dropped part lock).readers lock.readerIdx).fieldForType
      lock.type
        = (part.readers lock.readerIdx).fieldForType lock.type - 1 := by
    show (update part.readers _ _ _).fieldForType _ = _
    rw [update_self, fieldForType_releasedReader, if_pos rfl]
  unfold Participant.releaseReadLock
  dsimp only
  rw [if_neg (by omega)]
  by_cases hmore : 0 < (part.readers lock.readerIdx).fieldForType lock.type
      - 1
  · rw [if_pos hmore]
    have hinv : Inv (s.withParticipant p (dropped part lock)) := by
      refine h.replace hget (dropped_follows hfollows hlock) ?_
      intro i type
      by_cases hslot : i = lock.readerIdx ∧ type = lock.type
      · rw [hslot.1, hslot.2, hself]
        omega
      · rw [hsame i type hslot]
    exact ⟨_, rfl, hinv⟩
  · have hinv : Inv { s with
        list := s.list.setEntry lock.readerIdx
          ((s.list.data lock.readerIdx).setField
            ((s.list.data lock.readerIdx).fieldForType lock.type - 1)
            lock.type)
        participants := s.participants.set p (dropped part lock) } := by
      refine h.recount hget hsettled (dropped_follows hfollows hlock) ?_ ?_
      · intro i type hslot
        rw [hsame i type hslot]
      · rw [hself, if_pos hfield, if_neg (by omega)]
        omega
    rw [if_neg hmore, if_neg, if_neg hshared]
    · exact ⟨_, rfl, hinv⟩
    · intro hassert
      rcases hassert with hge | hne
      · exact absurd hmax (Nat.not_lt.2 hge)
      · exact hne hversion

end Versions

end BarqSync.Storage
