/-
The list of versions on its own: which slots its operations write.

# The invariant

`Sound`: a slot is settled if it has a version and is not the one that an
interrupted writer left, and every slot that is not settled is unlocked.
The settled slots have versions that were added, each in one slot.

# The operations

A new version, a purge and a writer that dies change only slots that are
not locked (`Kept`). A purge reports every slot that is locked
(`Sound.purgeVersions`).
-/
import BarqSync.Storage.Versions
import Mathlib.Data.List.Basic
import Mathlib.Order.Lattice

namespace BarqSync.Storage

open Function ReadCount VersionList

-- ===== fields

namespace ReadCount

variable {r : ReadCount} {type type' : LockType} {count : ℕ}

@[simp] theorem fieldForType_setField :
    (r.setField count type).fieldForType type'
      = if type' = type then count else r.fieldForType type' := by
  cases type <;> cases type' <;> rfl

@[simp] theorem version_setField :
    (r.setField count type).version = r.version := by
  cases type <;> rfl

@[simp] theorem info_setField : (r.setField count type).info = r.info := by
  cases type <;> rfl

theorem unlocked_iff :
    r.unlocked = true ↔ ∀ type, r.fieldForType type = 0 := by
  constructor
  · intro h type
    have h' : r.countFrozen = 0 ∧ r.countLive = 0 ∧ r.countFull = 0 := by
      simpa [unlocked] using h
    cases type
    · exact h'.1
    · exact h'.2.1
    · exact h'.2.2
  · intro h
    have h1 : r.countFrozen = 0 := h .frozen
    have h2 : r.countLive = 0 := h .live
    have h3 : r.countFull = 0 := h .full
    simp [unlocked, h1, h2, h3]

@[simp] theorem fieldForType_deactivate :
    r.deactivate.fieldForType type = 0 := by
  cases type <;> rfl

@[simp] theorem fieldForType_freeEntry :
    r.freeEntry.fieldForType type = 0 := by
  cases type <;> rfl

theorem isActive_iff : r.isActive = true ↔ r.version ≠ 0 := by
  simp [isActive]

end ReadCount

-- ===== the list

namespace VersionList

variable {list list' : VersionList} {added : List VersionInfo} {i size : ℕ}
  {info : VersionInfo} {r : ReadCount}

/-- The slot has a version whose allocation was completed. -/
def Settled (list : VersionList) (i : ℕ) : Prop :=
  i < list.entries ∧ (list.data i).version ≠ 0
    ∧ (i = list.allocating → i = list.newest)

/-- What holds of the list, given the versions added to it, the last one
first. -/
structure Sound (list : VersionList) (added : List VersionInfo) :
    Prop where
  newest : list.Settled list.newest
  allocating : list.allocating < list.entries
  unlocked : ∀ i < list.entries, ¬ list.Settled i
    → (list.data i).unlocked = true
  mem : ∀ i, list.Settled i → (list.data i).info ∈ added
  distinct : ∀ i j, list.Settled i → list.Settled j
    → (list.data i).version = (list.data j).version → i = j
  head : added.head? = some (list.data list.newest).info
  sorted : added.Pairwise fun a b => b.version < a.version
  below : ∀ a ∈ added, a.version < maxVersion

/-- Only slots that are not locked have changed. -/
structure Kept (list list' : VersionList) : Prop where
  entries : list.entries ≤ list'.entries
  field : ∀ i < list.entries, ∀ type,
    (list'.data i).fieldForType type = (list.data i).fieldForType type
  fresh : ∀ i, list.entries ≤ i → i < list'.entries
    → (list'.data i).unlocked = true
  info : ∀ i < list.entries, (list.data i).unlocked = false
    → (list'.data i).info = (list.data i).info

theorem Kept.refl : list.Kept list :=
  ⟨le_refl _, fun _ _ _ => rfl, fun _ h h' => absurd h' (by omega),
    fun _ _ _ => rfl⟩

theorem Kept.trans {list'' : VersionList} (h : list.Kept list')
    (h' : list'.Kept list'') : list.Kept list'' where
  entries := h.entries.trans h'.entries
  field i hi type := by
    rw [h'.field i (hi.trans_le h.entries) type, h.field i hi type]
  fresh i hi hi' := by
    rcases Nat.lt_or_ge i list'.entries with hlt | hge
    · rw [unlocked_iff]
      intro type
      rw [h'.field i hlt type]
      exact unlocked_iff.1 (h.fresh i hi hlt) type
    · exact h'.fresh i hge hi'
  info i hi hlocked := by
    have hlocked' : (list'.data i).unlocked = false := by
      rw [← Bool.not_eq_true, unlocked_iff] at hlocked ⊢
      intro hall
      refine hlocked fun type => ?_
      rw [← h.field i hi type]
      exact hall type
    rw [h'.info i (hi.trans_le h.entries) hlocked', h.info i hi hlocked]

-- ----- one slot written

/-- An unlocked slot gets new data, but no locks. -/
theorem kept_setEntry (hi : (list.data i).unlocked = true)
    (hr : r.unlocked = true) :
    list.Kept (list.setEntry i r) where
  entries := le_refl _
  field j _ type := by
    show (update list.data i r j).fieldForType type = _
    by_cases hj : j = i
    · subst hj
      rw [update_self, unlocked_iff.1 hi, unlocked_iff.1 hr]
    · rw [update_of_ne hj]
  fresh j h h' := absurd h' (Nat.not_lt.2 h)
  info j _ hlocked := by
    have hj : j ≠ i := by
      intro hj
      subst hj
      rw [hi] at hlocked
      exact Bool.noConfusion hlocked
    show (update list.data i r j).info = _
    rw [update_of_ne hj]

-- ----- allocation

theorem findFree_lt (h : list.findFree ≠ list.entries) :
    list.findFree < list.entries
      ∧ (list.data list.findFree).version = 0 := by
  unfold findFree at h ⊢
  cases hfind : (List.range list.entries).find?
      (fun k => !(list.data k).isActive) with
  | none =>
    rw [hfind] at h
    exact absurd rfl h
  | some k =>
    have hk := List.find?_some hfind
    have hlt := List.mem_range.1 (List.mem_of_find?_eq_some hfind)
    refine ⟨hlt, ?_⟩
    simpa [isActive] using hk

/-- The slot that a writer takes is not a settled one. -/
theorem Sound.chosen (h : list.Sound added) (hi : list.chosen = some i) :
    i < list.entries ∧ ¬ list.Settled i
      ∧ (list.allocating = list.newest ∨ list.allocating = i) := by
  unfold VersionList.chosen at hi
  split at hi
  case isTrue heq =>
    split at hi
    case isTrue => cases hi
    case isFalse hfree =>
      cases hi
      obtain ⟨hlt, hzero⟩ := findFree_lt hfree
      exact ⟨hlt, fun hsettled => hsettled.2.1 hzero, .inl heq⟩
  case isFalse hne =>
    cases hi
    exact ⟨h.allocating, fun hsettled => hne (hsettled.2.2 rfl), .inr rfl⟩

/-- The entries that are added are free. -/
theorem kept_reserve : list.Kept (list.reserve size) where
  entries := le_max_left _ _
  field i hi type := by
    have hne : ¬ (list.entries ≤ i ∧ i < size) := by omega
    simp only [reserve, if_neg hne]
  fresh i hi hi' := by
    have hsize : list.entries ≤ i ∧ i < size := by
      simp only [reserve] at hi'
      omega
    rw [unlocked_iff]
    intro type
    simp only [reserve, if_pos hsize, fieldForType_deactivate]
  info i hi _ := by
    have hne : ¬ (list.entries ≤ i ∧ i < size) := by omega
    simp only [reserve, if_neg hne]

theorem settled_reserve :
    (list.reserve size).Settled i ↔ list.Settled i := by
  by_cases hnew : list.entries ≤ i ∧ i < size
  · have hzero : ((list.reserve size).data i).version = 0 := by
      simp only [reserve, if_pos hnew, deactivate]
    constructor
    · intro h
      exact absurd hzero h.2.1
    · intro h
      exact absurd h.1 (by omega)
  · have hdata : (list.reserve size).data i = list.data i := by
      simp only [reserve, if_neg hnew]
    simp only [Settled, hdata]
    have hlt : i < (list.reserve size).entries ↔ i < list.entries := by
      simp only [reserve]
      omega
    rw [hlt]
    rfl

/-- Settled slots keep their data, and some may be cleared. -/
theorem Sound.shrink (h : list.Sound added)
    (heq : list'.newest = list.newest)
    (hnewest : list'.Settled list'.newest)
    (hallocating : list'.allocating < list'.entries)
    (hunlocked : ∀ i < list'.entries, ¬ list'.Settled i
      → (list'.data i).unlocked = true)
    (hsettled : ∀ i, list'.Settled i → list.Settled i)
    (hinfo : ∀ i, list'.Settled i
      → (list'.data i).info = (list.data i).info) : list'.Sound added where
  newest := hnewest
  allocating := hallocating
  unlocked := hunlocked
  mem i hi := by
    rw [hinfo i hi]
    exact h.mem i (hsettled i hi)
  distinct i j hi hj hversion := by
    have hi' : (list'.data i).version = (list.data i).version :=
      congrArg VersionInfo.version (hinfo i hi)
    have hj' : (list'.data j).version = (list.data j).version :=
      congrArg VersionInfo.version (hinfo j hj)
    exact h.distinct i j (hsettled i hi) (hsettled j hj)
      (by rw [← hi', ← hj', hversion])
  head := by
    rw [hinfo _ hnewest, heq]
    exact h.head
  sorted := h.sorted
  below := h.below

theorem Sound.reserve (h : list.Sound added) :
    (list.reserve size).Sound added := by
  refine h.shrink rfl (settled_reserve.2 h.newest)
    (h.allocating.trans_le kept_reserve.entries) ?_
    (fun i => settled_reserve.1) ?_
  · intro i hi hsettled
    rcases Nat.lt_or_ge i list.entries with hlt | hge
    · rw [unlocked_iff]
      intro type
      rw [kept_reserve.field i hlt]
      exact unlocked_iff.1
        (h.unlocked i hlt fun h => hsettled (settled_reserve.2 h)) type
    · exact kept_reserve.fresh i hge hi
  · intro i hi
    have hlt := (settled_reserve.1 hi).1
    have hne : ¬ (list.entries ≤ i ∧ i < size) := by omega
    simp only [VersionList.reserve, if_neg hne]

/-- The list that a version is written to. -/
theorem Sound.expanded (h : list.Sound added) :
    list.expanded.Sound added ∧ list.Kept list.expanded := by
  unfold VersionList.expanded
  split
  · exact ⟨h.reserve, kept_reserve⟩
  · exact ⟨h, .refl⟩

theorem addVersion_eq : list.addVersion info
      = list.expanded.chosen.bind fun i => list.expanded.filled i info := by
  have hbind : ∀ list : VersionList, (list.tryAllocateEntry info).bind id
        = list.chosen.bind fun i => list.filled i info := by
    intro list
    unfold tryAllocateEntry
    cases list.chosen with
    | none => rfl
    | some i => cases hfilled : list.filled i info <;> simp [hfilled]
  unfold addVersion expanded
  cases hchosen : list.chosen with
  | none =>
    simp only [tryAllocateEntry, hchosen, Option.elim_none,
      Option.bind_some, Option.isNone_none, if_true]
    exact hbind _
  | some i =>
    simp only [tryAllocateEntry, hchosen, Option.elim_some,
      Option.isNone_some, Bool.false_eq_true, if_false]
    cases hfilled : list.filled i info <;> simp [hfilled]

/-- The writes of an allocation, up to any point, are to one slot that
is not locked. -/
theorem allocated_eq (info : VersionInfo) {point : AllocationPoint}
    (hpoint : point ≠ .begun) (hi : (list.data i).unlocked = true) :
    ∃ r : ReadCount, r.unlocked = true
      ∧ list.allocated i info point
        = { list with
            data := Function.update list.data i r, allocating := i } := by
  cases point with
  | begun => exact absurd rfl hpoint
  | chosen => exact ⟨list.data i, hi, by
      rw [update_eq_self]
      rfl⟩
  | top | filesize | activated =>
    refine ⟨_, ?_, rfl⟩
    exact hi

/-- A slot other than the one that is allocated is settled when it has a
version. -/
theorem settled_of_ne {j : ℕ}
    (hallocating : list.allocating = list.newest ∨ list.allocating = i)
    (hj : j ≠ i) :
    list.Settled j ↔ j < list.entries ∧ (list.data j).version ≠ 0 := by
  refine ⟨fun h => ⟨h.1, h.2.1⟩, fun h => ⟨h.1, h.2, fun heq => ?_⟩⟩
  rcases hallocating with hnew | hold
  · exact heq.trans hnew
  · exact absurd (heq.trans hold) hj

/-- A writer dies while it allocates. -/
theorem Sound.allocated (info : VersionInfo) (point : AllocationPoint)
    (h : list.Sound added) (hi : list.chosen = some i) :
    (list.allocated i info point).Sound added
      ∧ list.Kept (list.allocated i info point) := by
  by_cases hpoint : point = .begun
  · subst hpoint
    exact ⟨h, .refl⟩
  obtain ⟨hlt, hsettled, hallocating⟩ := h.chosen hi
  have hunlocked := h.unlocked i hlt hsettled
  obtain ⟨r, hr, heq⟩ := allocated_eq info hpoint hunlocked
  rw [heq]
  have hkept : list.Kept { list with
      data := update list.data i r, allocating := i } :=
    ⟨le_refl _, (kept_setEntry hunlocked hr).field,
      (kept_setEntry hunlocked hr).fresh,
      (kept_setEntry hunlocked hr).info⟩
  have hnewest : i ≠ list.newest := fun h' => hsettled (h' ▸ h.newest)
  -- the slot is not settled before or after, the others are as they were
  have hiff : ∀ j, Settled { list with
      data := update list.data i r, allocating := i } j
        ↔ list.Settled j ∧ j ≠ i := by
    intro j
    unfold Settled
    by_cases hj : j = i
    · subst hj
      simp [hnewest]
    · simp only [update_of_ne hj, hj, false_implies, and_true,
        ne_eq, not_false_eq_true]
      exact (settled_of_ne hallocating hj).symm
  refine ⟨h.shrink rfl ((hiff _).2 ⟨h.newest, hnewest.symm⟩) hlt ?_
    (fun j hj => ((hiff j).1 hj).1) ?_, hkept⟩
  · intro j hj hsettled'
    rw [unlocked_iff]
    intro type
    rw [hkept.field j hj type]
    refine unlocked_iff.1 ?_ type
    by_cases hji : j = i
    · rw [hji]
      exact hunlocked
    · exact h.unlocked j hj fun h' => hsettled' ((hiff j).2 ⟨h', hji⟩)
  · intro j hj
    show (update list.data i r j).info = _
    rw [update_of_ne ((hiff j).1 hj).2]

/-- A version is added. -/
theorem Sound.filled (h : list.Sound added) (hi : list.chosen = some i)
    (hfilled : list.filled i info = some list')
    (hlater : (list.data list.newest).version < info.version)
    (hmax : info.version < maxVersion) :
    list'.Sound (info :: added) ∧ list.Kept list' := by
  obtain ⟨hlt, hsettled, hallocating⟩ := h.chosen hi
  have hunlocked := h.unlocked i hlt hsettled
  unfold VersionList.filled at hfilled
  rw [if_pos hunlocked] at hfilled
  cases hfilled
  obtain ⟨r, hr⟩ : ∃ r, r = { list.data i with
      currentTop := info.topRef, filesize := info.filesize
      version := info.version } := ⟨_, rfl⟩
  have hinfo : r.info = info := by
    rw [hr]
    rfl
  have hr' : r.unlocked = true := by
    rw [hr]
    exact hunlocked
  have heq : list.allocated i info .activated
      = { list with
          data := update list.data i r, allocating := i } := by
    rw [hr]
    rfl
  rw [heq]
  have hkept := kept_setEntry hunlocked hr'
  have hversion : r.version = info.version :=
    congrArg VersionInfo.version hinfo
  have hself : update list.data i r i = r :=
    update_self i r list.data
  have hother : ∀ j, j ≠ i → update list.data i r j
      = list.data j := fun j hj => update_of_ne hj r list.data
  have hiff : ∀ j, Settled { list with
      data := update list.data i r
      allocating := i, newest := i } j ↔ j = i ∨ list.Settled j := by
    intro j
    unfold Settled
    by_cases hj : j = i
    · subst hj
      simp only [hself, hversion, hlt, true_or, iff_true, true_and,
        implies_true, and_true]
      omega
    · simp only [hother j hj, hj, false_implies, and_true, false_or]
      exact (settled_of_ne hallocating hj).symm
  -- every version added before is at most the newest one
  have hless : ∀ a ∈ added, a.version < info.version := by
    intro a ha
    obtain ⟨rest, hrest⟩ : ∃ rest,
        added = (list.data list.newest).info :: rest :=
      List.head?_eq_some_iff.1 h.head
    have hsorted := h.sorted
    rw [hrest] at ha hsorted
    rcases List.mem_cons.1 ha with heq | hmem
    · rw [heq]
      exact hlater
    · exact (List.rel_of_pairwise_cons hsorted hmem).trans hlater
  have hne : ∀ j, list.Settled j → j ≠ i := fun j hj hji =>
    hsettled (hji ▸ hj)
  refine ⟨⟨(hiff i).2 (.inl rfl), hlt, ?_, ?_, ?_, ?_, ?_, ?_⟩,
    ⟨le_refl _, hkept.field, hkept.fresh, hkept.info⟩⟩
  · intro j hj hsettled'
    have hji : j ≠ i := fun hji => hsettled' ((hiff j).2 (.inl hji))
    show (update list.data i r j).unlocked = true
    rw [hother j hji]
    exact h.unlocked j hj fun h' => hsettled' ((hiff j).2 (.inr h'))
  · intro j hj
    show (update list.data i r j).info ∈ _
    rcases (hiff j).1 hj with hji | hold
    · rw [hji, hself, hinfo]
      exact List.mem_cons_self
    · rw [hother j (hne j hold)]
      exact List.mem_cons_of_mem _ (h.mem j hold)
  · intro j k hj hk
    show (update list.data i r j).version
      = (update list.data i r k).version → j = k
    rcases (hiff j).1 hj with hji | hj <;> rcases (hiff k).1 hk with hki | hk
    · intro _
      rw [hji, hki]
    · intro hjk
      rw [hji, hself, hother k (hne k hk), hversion] at hjk
      have hlow := hless _ (h.mem k hk)
      exact absurd hjk (Nat.ne_of_gt hlow)
    · intro hjk
      rw [hki, hself, hother j (hne j hj), hversion] at hjk
      have hlow := hless _ (h.mem j hj)
      exact absurd hjk (Nat.ne_of_lt hlow)
    · rw [hother j (hne j hj), hother k (hne k hk)]
      exact h.distinct j k hj hk
  · show some info = some (update list.data i r i).info
    rw [hself, hinfo]
  · exact List.pairwise_cons.2 ⟨hless, h.sorted⟩
  · exact List.forall_mem_cons.2 ⟨hmax, h.below⟩

-- ----- purging

theorem Sound.repaired (h : list.Sound added) :
    list.repaired.Sound added ∧ list.Kept list.repaired
      ∧ ∀ i < list.entries, (list.repaired.data i).version ≠ 0
        → list.repaired.Settled i := by
  unfold VersionList.repaired
  split
  case isFalse heq =>
    refine ⟨h, .refl, fun i hi hversion => ⟨hi, hversion, fun hi' => ?_⟩⟩
    rw [hi']
    exact not_not.1 heq
  case isTrue hne =>
    have hsettled : ¬ list.Settled list.allocating := fun h' =>
      hne (h'.2.2 rfl)
    have hunlocked := h.unlocked _ h.allocating hsettled
    have hdead : (list.data list.allocating).deactivate.unlocked = true :=
      rfl
    have hkept := kept_setEntry hunlocked hdead
    have hother : ∀ j, j ≠ list.allocating
        → (list.setEntry list.allocating
          (list.data list.allocating).deactivate).data j = list.data j :=
      fun j hj => update_of_ne hj _ _
    have hself : (list.setEntry list.allocating
        (list.data list.allocating).deactivate).data list.allocating
        = (list.data list.allocating).deactivate :=
      update_self _ _ _
    have hiff : ∀ j, (list.setEntry list.allocating
        (list.data list.allocating).deactivate).Settled j
          ↔ list.Settled j := by
      intro j
      by_cases hj : j = list.allocating
      · constructor
        · intro h'
          rw [hj] at h'
          exact absurd (congrArg ReadCount.version hself) h'.2.1
        · intro h'
          exact absurd (hj ▸ h') hsettled
      · unfold Settled
        rw [hother j hj]
        rfl
    refine ⟨h.shrink rfl ((hiff _).2 h.newest) h.allocating ?_
      (fun j => (hiff j).1) ?_, hkept, ?_⟩
    · intro j hj hsettled'
      rw [unlocked_iff]
      intro type
      rw [hkept.field j hj]
      exact unlocked_iff.1
        (h.unlocked j hj fun h' => hsettled' ((hiff j).2 h')) type
    · intro j hj
      rw [hother j]
      intro hj'
      exact hsettled (hj' ▸ (hiff j).1 hj)
    · intro j hj hversion
      by_cases hj' : j = list.allocating
      · rw [hj', hself] at hversion
        exact absurd rfl hversion
      · exact ⟨hj, hversion, fun h' => absurd h' hj'⟩

theorem foldl_min_le {α : Type} (f : α → ℕ) (l : List α) (least : ℕ) :
    l.foldl (fun least a => min least (f a)) least ≤ least
      ∧ ∀ a ∈ l, l.foldl (fun least a => min least (f a)) least
        ≤ f a := by
  induction l generalizing least with
  | nil => exact ⟨le_refl _, fun a ha => absurd ha List.not_mem_nil⟩
  | cons a l ih =>
    obtain ⟨hleast, hall⟩ := ih (min least (f a))
    refine ⟨hleast.trans (min_le_left _ _), fun b hb => ?_⟩
    rcases List.mem_cons.1 hb with heq | hmem
    · rw [heq]
      exact hleast.trans (min_le_right _ _)
    · exact hall b hmem

theorem leastVersion_le {entries : List ReadCount} (hr : r ∈ entries) :
    leastVersion entries ≤ r.version :=
  (foldl_min_le ReadCount.version entries maxVersion).2 r hr

theorem mem_active : r ∈ list.active
      ↔ ∃ i < list.entries, list.data i = r ∧ r.version ≠ 0 := by
  simp only [active, List.mem_filter, List.mem_map, List.mem_range,
    isActive_iff]
  constructor
  · intro h
    obtain ⟨⟨i, hi, heq⟩, hversion⟩ := h
    exact ⟨i, hi, heq, hversion⟩
  · intro h
    obtain ⟨i, hi, heq, hversion⟩ := h
    exact ⟨⟨i, hi, heq⟩, hversion⟩

/-- A slot that is locked, in any way, is reachable. -/
theorem reachable_of_locked (hi : i < list.entries)
    (hversion : (list.data i).version ≠ 0)
    (hlocked : (list.data i).unlocked = false) :
    list.reachable (list.data i) = true := by
  have hmem : list.data i ∈ list.active := mem_active.2 ⟨i, hi, rfl, hversion⟩
  by_cases hfull : (list.data i).countFull = 0
  · simp only [unlocked, decide_eq_false_iff_not] at hlocked
    simp only [reachable, decide_eq_true_eq]
    by_contra hnot
    omega
  · have hle : list.oldestFull ≤ (list.data i).version :=
      leastVersion_le (List.mem_filter.2 ⟨hmem, by simp [hfull]⟩)
    simp [reachable, hle]

/-- What the writer is told of a version is the first that was found. -/
theorem find_foldl_emplace (entries : List ReadCount)
    (refs : List VersionInfo)
    (hsame : ∀ r ∈ entries, r.version = info.version → r.info = info)
    (hrefs : refs.find? (fun ref => ref.version = info.version) = some info
      ∨ refs.find? (fun ref => ref.version = info.version) = none
        ∧ ∃ r ∈ entries, r.info = info) :
    (entries.foldl emplace refs).find?
      (fun ref => ref.version = info.version) = some info := by
  induction entries generalizing refs with
  | nil =>
    rcases hrefs with hfound | ⟨-, r, hr, -⟩
    · exact hfound
    · exact absurd hr List.not_mem_nil
  | cons r entries ih =>
    refine ih _ (fun r' hr' => hsame r' (List.mem_cons_of_mem r hr')) ?_
    have hself : decide (info.version = info.version) = true := by simp
    unfold emplace
    rcases hrefs with hfound | ⟨hnone, r', hr', hinfo⟩
    · left
      split
      · exact hfound
      · rw [List.find?_append, hfound]
        rfl
    · by_cases hversion : r.version = info.version
      · left
        have hnew : refs.any (fun ref => ref.version = r.version)
            = false := by
          rw [hversion, List.any_eq_false]
          exact List.find?_eq_none.1 hnone
        have hr := hsame r List.mem_cons_self hversion
        rw [hnew, if_neg Bool.false_ne_true, List.find?_append, hnone,
          hr, Option.none_or, List.find?_singleton, if_pos hself]
      · right
        have hmem : r' ∈ entries := by
          rcases List.mem_cons.1 hr' with heq | hmem
          · rw [← hinfo, heq] at hversion
            exact absurd rfl hversion
          · exact hmem
        refine ⟨?_, r', hmem, hinfo⟩
        split
        · exact hnone
        · have hr : decide (r.info.version = info.version) = false :=
            decide_eq_false hversion
          rw [List.find?_append, hnone, Option.none_or,
            List.find?_singleton, hr]
          rfl

/-- A locked version is reported as it was added. -/
theorem find_topRefs (h : list.Sound added)
    (hactive : ∀ j < list.entries, (list.data j).version ≠ 0
      → list.Settled j) (hi : list.Settled i)
    (hreachable : list.reachable (list.data i) = true) :
    list.topRefs.find? (fun ref => ref.version = (list.data i).info.version)
      = some (list.data i).info := by
  have hmem : list.data i ∈ list.active.filter list.reachable :=
    List.mem_filter.2 ⟨mem_active.2 ⟨i, hi.1, rfl, hi.2.1⟩, hreachable⟩
  refine find_foldl_emplace _ [] ?_ (.inr ⟨rfl, _, hmem, rfl⟩)
  intro r hr hversion
  obtain ⟨j, hj, heq, hne⟩ := mem_active.1 (List.mem_of_mem_filter hr)
  subst heq
  rw [h.distinct j i (hactive j hj hne) hi hversion]

/-- An entry that is cleared was not locked. -/
theorem unlocked_of_unreachable (h : list.unreachable i = true) :
    (list.data i).unlocked = true := by
  simp only [unreachable, decide_eq_true_eq, isActive_iff] at h
  by_contra hlocked
  rw [Bool.not_eq_true] at hlocked
  rw [reachable_of_locked h.1 h.2.1 hlocked] at h
  exact absurd h.2.2 (by decide)

section

variable (h : list.Sound added)

include h

theorem Sound.freed (hnewest : list.unreachable list.newest = false) :
    list.freed.Sound added ∧ list.Kept list.freed := by
  have hkeep : ∀ j, list.unreachable j = false
      → list.freed.data j = list.data j := by
    intro j hj
    simp [VersionList.freed, hj]
  have hfree : ∀ j, list.unreachable j = true
      → list.freed.data j = (list.data j).freeEntry := by
    intro j hj
    simp [VersionList.freed, hj]
  have hfield : ∀ j type, (list.freed.data j).fieldForType type
      = (list.data j).fieldForType type := by
    intro j type
    cases hj : list.unreachable j with
    | false => rw [hkeep j hj]
    | true =>
      rw [hfree j hj, fieldForType_freeEntry,
        unlocked_iff.1 (unlocked_of_unreachable hj)]
  have hiff : ∀ j, list.freed.Settled j
      ↔ list.Settled j ∧ list.unreachable j = false := by
    intro j
    cases hj : list.unreachable j with
    | false =>
      unfold Settled
      rw [hkeep j hj]
      simp only [and_true]
      rfl
    | true =>
      refine ⟨fun h' => ?_, fun h' => absurd h'.2 (by decide)⟩
      have hzero := h'.2.1
      rw [hfree j hj] at hzero
      exact absurd rfl hzero
  refine ⟨h.shrink rfl ((hiff _).2 ⟨h.newest, hnewest⟩) h.allocating ?_
    (fun j hj => ((hiff j).1 hj).1) ?_, le_refl _, fun j _ => hfield j,
    fun j hj hj' => absurd hj' (Nat.not_lt.2 hj), ?_⟩
  · intro j hj hsettled
    rw [unlocked_iff]
    intro type
    rw [hfield j type]
    refine unlocked_iff.1 ?_ type
    cases hunreachable : list.unreachable j with
    | true => exact unlocked_of_unreachable hunreachable
    | false =>
      exact h.unlocked j hj fun h' =>
        hsettled ((hiff j).2 ⟨h', hunreachable⟩)
  · intro j hj
    rw [hkeep j ((hiff j).1 hj).2]
  · intro j _ hlocked
    rw [hkeep j]
    by_contra hunreachable
    rw [Bool.not_eq_false] at hunreachable
    rw [unlocked_of_unreachable hunreachable] at hlocked
    exact Bool.noConfusion hlocked

/-- A purge that completes reports every locked version, and keeps it. -/
theorem Sound.purgeVersions {report : Report}
    (hpurge : list.purgeVersions = some (report, list')) :
    list'.Sound added ∧ list.Kept list'
      ∧ ∀ i < list.entries, (list.data i).unlocked = false
        → report.topRefs.find?
            (fun ref => ref.version = (list.data i).info.version)
          = some (list.data i).info := by
  obtain ⟨hsound, hkept, hactive⟩ := h.repaired
  unfold VersionList.purgeVersions at hpurge
  dsimp only at hpurge
  split at hpurge
  case isTrue => cases hpurge
  case isFalse hassert =>
    cases hpurge
    have hnewest : list.repaired.unreachable list.repaired.newest
        = false := by
      rw [← Bool.not_eq_true]
      exact fun h' => hassert (.inr (.inl h'))
    obtain ⟨hsound', hkept'⟩ := hsound.freed hnewest
    refine ⟨hsound', hkept.trans hkept', fun i hi hlocked => ?_⟩
    have hentries : list.repaired.entries = list.entries := by
      unfold VersionList.repaired
      split <;> rfl
    have hlocked' : (list.repaired.data i).unlocked = false := by
      rw [← Bool.not_eq_true, unlocked_iff] at hlocked ⊢
      intro hall
      refine hlocked fun type => ?_
      rw [← hkept.field i hi type]
      exact hall type
    have hsettled : list.repaired.Settled i := by
      by_contra hnot
      rw [hsound.unlocked i (hentries ▸ hi) hnot] at hlocked'
      exact Bool.noConfusion hlocked'
    rw [← hkept.info i hi hlocked]
    exact find_topRefs hsound (fun j hj => hactive j (hentries ▸ hj))
      hsettled (reachable_of_locked hsettled.1 hsettled.2.1 hlocked')

/-- No assertion of a purge fails while the newest version has a live
lock. -/
theorem Sound.purgeVersions_isSome
    (hlive : (list.data list.newest).countLive ≠ 0) :
    list.purgeVersions.isSome = true := by
  obtain ⟨hsound, hkept, hactive⟩ := h.repaired
  have hentries : list.repaired.entries = list.entries := by
    unfold VersionList.repaired
    split <;> rfl
  have hnewest : list.repaired.newest = list.newest := by
    unfold VersionList.repaired
    split <;> rfl
  have hlive' : (list.repaired.data list.repaired.newest).countLive
      ≠ 0 := by
    rw [hnewest]
    have hfield := hkept.field list.newest h.newest.1 .live
    exact fun hzero => hlive (hfield.symm.trans hzero)
  have hreachable : list.repaired.reachable
      (list.repaired.data list.repaired.newest) = true := by
    simp [reachable, hlive']
  have hfound := find_topRefs hsound
    (fun j hj => hactive j (hentries ▸ hj)) hsound.newest hreachable
  have hmem := List.mem_of_find?_eq_some hfound
  have hmax : (list.repaired.data list.repaired.newest).info.version
      < maxVersion := hsound.below _ (hsound.mem _ hsound.newest)
  have hactive' : list.repaired.data list.repaired.newest
      ∈ list.repaired.active :=
    mem_active.2 ⟨_, hsound.newest.1, rfl, hsound.newest.2.1⟩
  unfold VersionList.purgeVersions
  dsimp only
  rw [if_neg]
  · rfl
  · intro hassert
    rcases hassert with hempty | hfree | holdest | hleast
    · rw [List.isEmpty_iff] at hempty
      rw [hempty] at hmem
      exact List.not_mem_nil hmem
    · simp [unreachable, hreachable] at hfree
    · have hle := (foldl_min_le VersionInfo.version
        list.repaired.topRefs maxVersion).2 _ hmem
      rw [oldestVersion] at holdest
      omega
    · have hle : list.repaired.oldestLive
          ≤ (list.repaired.data list.repaired.newest).version :=
        leastVersion_le (List.mem_filter.2 ⟨hactive', by simp [hlive']⟩)
      rw [hleast] at hle
      exact absurd hmax (Nat.not_lt.2 hle)

/-- A write to a count of a settled slot. -/
theorem Sound.setField {count : ℕ} {type : LockType} (hi : list.Settled i) :
    (list.setEntry i ((list.data i).setField count type)).Sound added := by
  have hdata : ∀ j, ((list.setEntry i
      ((list.data i).setField count type)).data j).info
        = (list.data j).info := by
    intro j
    show (update list.data i _ j).info = _
    by_cases hj : j = i
    · rw [hj, update_self, info_setField]
    · rw [update_of_ne hj]
  have hiff : ∀ j, (list.setEntry i
      ((list.data i).setField count type)).Settled j
        ↔ list.Settled j := by
    intro j
    have hversion := congrArg VersionInfo.version (hdata j)
    unfold Settled
    rw [show (_ : ReadCount).version = _ from hversion]
    rfl
  refine h.shrink rfl ((hiff _).2 h.newest) h.allocating ?_
    (fun j => (hiff j).1) (fun j _ => hdata j)
  intro j hj hsettled
  have hj' : j ≠ i := fun hj' => hsettled ((hiff j).2 (hj' ▸ hi))
  show (update list.data i _ j).unlocked = true
  rw [update_of_ne hj']
  exact h.unlocked j hj fun h' => hsettled ((hiff j).2 h')

end

end VersionList

end BarqSync.Storage
