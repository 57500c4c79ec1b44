/-
The slots of the mappings of an encrypted file, after each way in which
the operations change them. A state is read through `slot m page` only,
so these are the only lemmas that look into the lists.
-/
import BarqSync.Storage.Encryption
import Mathlib.Data.List.Basic

namespace BarqSync.Storage

open EncryptedFile Mapping

variable {H : Type}

/-- A change of a slot leaves the other slots of the mapping. -/
theorem Mapping.slotAt_modifyAt (mapping : Mapping) (page p : ℕ)
    (change : Slot → Slot) :
    (mapping.modifyAt page change).slotAt p
      = if p = page then (mapping.slotAt p).map change
        else mapping.slotAt p := by
  unfold modifyAt slotAt
  by_cases hpage : mapping.firstPage ≤ page
  · rw [if_pos hpage]
    by_cases hp : mapping.firstPage ≤ p
    · rw [if_pos hp, if_pos hp]
      show (mapping.slots.modify (page - mapping.firstPage) change)[
        p - mapping.firstPage]? = _
      rw [List.getElem?_modify]
      by_cases heq : p = page
      · subst heq
        simp
      · have hne : page - mapping.firstPage ≠ p - mapping.firstPage := by
          omega
        simp [heq, hne]
    · rw [if_neg hp, if_neg hp]
      simp
  · rw [if_neg hpage]
    by_cases heq : p = page
    · subst heq
      simp [hpage]
    · rw [if_neg heq]

/-- Two changes of a slot, one after the other. -/
theorem Mapping.modifyAt_modifyAt (mapping : Mapping) (page : ℕ)
    (change change' : Slot → Slot) :
    (mapping.modifyAt page change).modifyAt page change'
      = mapping.modifyAt page (change' ∘ change) := by
  unfold modifyAt
  by_cases hpage : mapping.firstPage ≤ page
  · simp only [if_pos hpage, List.modify_modify_eq]
  · simp only [if_neg hpage]

namespace EncryptedFile

variable {s : EncryptedFile H} {m m' page p : ℕ} {pages first : ℕ}
  {slot : Slot} {s' : EncryptedFile H}

/-- A change of a slot leaves all other slots. -/
@[simp]
theorem slot_modifySlot (change : Slot → Slot) :
    (s.modifySlot m page change).slot m' p
      = if m' = m ∧ p = page then (s.slot m' p).map change
        else s.slot m' p := by
  unfold slot modifySlot
  rw [List.getElem?_modify]
  by_cases hm : m' = m
  · subst hm
    cases s.mappings[m']? with
    | none => simp
    | some mapping =>
      simp [slotAt_modifyAt]
  · have hne : m ≠ m' := fun h => hm h.symm
    simp [hm, hne]

/-- A change of a page's slots leaves the other pages. -/
@[simp]
theorem slot_modifySlots (change : ℕ → Slot → Slot) :
    (s.modifySlots page change).slot m p
      = if p = page then (s.slot m p).map (change m) else s.slot m p := by
  unfold slot modifySlots
  rw [List.getElem?_mapIdx]
  cases s.mappings[m]? with
  | none => simp
  | some mapping => simp [slotAt_modifyAt]

@[simp]
theorem file_modifySlot (change : Slot → Slot) :
    (s.modifySlot m page change).file = s.file := rfl

@[simp]
theorem file_modifySlots (change : ℕ → Slot → Slot) :
    (s.modifySlots page change).file = s.file := rfl

@[simp]
theorem slot_withFile (file : CryptFile H) :
    ({ s with file := file } : EncryptedFile H).slot m p = s.slot m p := rfl

/-- A page that is copied comes from another mapping that may not write
to it. -/
theorem upToDateCopy_eq_some {mem : Page}
    (h : s.upToDateCopy m page = some mem) :
    ∃ other slot, other ≠ m ∧ s.slot other page = some slot
      ∧ slot.state.upToDate = true ∧ slot.state.writable = false
      ∧ slot.mem = mem := by
  unfold upToDateCopy at h
  obtain ⟨⟨mapping, other⟩, hmem, hfound⟩ :=
    List.exists_of_findSome?_eq_some h
  simp only at hfound
  split at hfound
  · cases hfound
  · rename_i hne
    obtain ⟨slot, hslot, hstate⟩ := Option.bind_eq_some_iff.1 hfound
    split at hstate
    · cases hstate
    · rename_i hok
      cases hstate
      simp only [Bool.or_eq_true, Bool.not_eq_true', not_or,
        Bool.not_eq_true, Bool.not_eq_false] at hok
      refine ⟨other, slot, hne, ?_, hok.2, hok.1, rfl⟩
      have := List.mem_zipIdx_iff_getElem?.1 hmem
      unfold EncryptedFile.slot
      rw [this]
      exact hslot

/-- Every slot is marked. -/
theorem slot_mark (h : s.markDataAsPossiblyStale = some s') :
    s'.slot m p = (s.slot m p).map markedSlot := by
  unfold markDataAsPossiblyStale at h
  split at h
  · cases h
  · cases h
    unfold slot slotAt
    rw [List.getElem?_map]
    cases s.mappings[m]? with
    | none => rfl
    | some mapping =>
      show (if mapping.firstPage ≤ p then
        (mapping.slots.map markedSlot)[p - mapping.firstPage]? else none)
        = _
      by_cases hp : mapping.firstPage ≤ p
      · simp [hp]
      · simp [hp]

theorem file_mark (h : s.markDataAsPossiblyStale = some s') :
    s'.file = s.file.invalidateIvs := by
  unfold markDataAsPossiblyStale at h
  split at h
  · cases h
  · cases h
    rfl

/-- A slot after a mapping is extended was there before or is new. -/
theorem slot_extendTo (h : (s.extendTo m pages).slot m' p = some slot) :
    s.slot m' p = some slot ∨ slot = {} := by
  unfold EncryptedFile.slot extendTo at h
  obtain ⟨mapping, hmapping, hat⟩ := Option.bind_eq_some_iff.1 h
  rw [List.getElem?_modify] at hmapping
  obtain ⟨old, hold, hnew⟩ := Option.map_eq_some_iff.1 hmapping
  by_cases hm : m = m'
  · subst hm
    simp only [if_true] at hnew
    subst hnew
    unfold slotAt at hat
    simp only at hat
    split at hat
    · rename_i hp
      rw [List.getElem?_append] at hat
      split at hat
      · left
        unfold EncryptedFile.slot Mapping.slotAt
        rw [hold]
        simp only [Option.bind_some, if_pos hp]
        rw [List.getElem?_take] at hat
        split at hat
        · exact hat
        · cases hat
      · rw [List.getElem?_replicate] at hat
        split at hat
        · cases hat
          exact .inr rfl
        · cases hat
    · cases hat
  · simp only [if_neg hm] at hnew
    subst hnew
    left
    unfold EncryptedFile.slot
    rw [hold]
    exact hat

theorem slot_set
    (h : (⟨s.file, s.mappings.set m ⟨first, List.replicate pages {}⟩⟩
      : EncryptedFile H).slot m' p = some slot) :
    m' ≠ m ∧ s.slot m' p = some slot ∨ m' = m ∧ slot = {} := by
  unfold EncryptedFile.slot at h
  obtain ⟨mapping, hmapping, hat⟩ := Option.bind_eq_some_iff.1 h
  simp only [List.getElem?_set] at hmapping
  by_cases hm : m = m'
  · subst hm
    right
    split at hmapping
    · split at hmapping
      · cases hmapping
        unfold slotAt at hat
        split at hat
        · rw [List.getElem?_replicate] at hat
          split at hat
          · cases hat
            exact ⟨rfl, rfl⟩
          · cases hat
        · cases hat
      · cases hmapping
    · rename_i hne
      exact absurd rfl hne
  · rw [if_neg hm] at hmapping
    left
    refine ⟨fun heq => hm heq.symm, ?_⟩
    unfold EncryptedFile.slot
    rw [hmapping]
    exact hat

-- ===== flushing

section Flush

variable [DecidableEq H] {c : Cipher H} {s' : EncryptedFile H} {count : ℕ}

/-- A slot after its page was flushed. -/
def cleaned (slot : Slot) : Slot :=
  { slot with state := { slot.state with dirty := false } }

omit [DecidableEq H] in
theorem cleaned_of_not_dirty (h : slot.state.dirty = false) :
    cleaned slot = slot := by
  obtain ⟨⟨upToDate, staleIV, writable, dirty⟩, mem⟩ := slot
  cases h
  rfl

/-- A page is written if it is dirty. -/
theorem flushPage_cases (h : s.flushPage c m page = some s') :
    ∃ slot, s.slot m page = some slot
      ∧ (slot.state.dirty = false ∧ s' = s
        ∨ slot.state.dirty = true ∧ ∃ file,
          s.file.write c page slot.mem = some file
            ∧ s' = { s with file := file }.modifySlot m page cleaned) := by
  unfold flushPage at h
  obtain ⟨slot, hslot, h⟩ := Option.bind_eq_some_iff.1 h
  refine ⟨slot, hslot, ?_⟩
  split at h
  · rename_i hdirty
    cases h
    exact .inl ⟨by simpa using hdirty, rfl⟩
  · rename_i hdirty
    obtain ⟨file, hfile, rfl⟩ := Option.map_eq_some_iff.1 h
    exact .inr ⟨by simpa using hdirty, file, hfile, rfl⟩

theorem slot_flushPage (h : s.flushPage c m page = some s') : s'.slot m' p
      = if m' = m ∧ p = page then (s.slot m' p).map cleaned
        else s.slot m' p := by
  obtain ⟨slot, hslot, ⟨hdirty, rfl⟩ | ⟨-, file, -, rfl⟩⟩ :=
    flushPage_cases h
  · split
    · rename_i heq
      rw [heq.1, heq.2, hslot, Option.map_some, cleaned_of_not_dirty hdirty]
    · rfl
  · rw [slot_modifySlot, slot_withFile]

theorem slot_flushPages (h : flushPages c m count page s = some s') :
    s'.slot m' p
      = if m' = m ∧ page ≤ p ∧ p < page + count then
          (s.slot m' p).map cleaned
        else s.slot m' p := by
  induction count generalizing page s with
  | zero =>
    cases h
    rw [if_neg (by omega)]
  | succ count ih =>
    unfold flushPages at h
    obtain ⟨next, hnext, h⟩ := Option.bind_eq_some_iff.1 h
    rw [ih h, slot_flushPage hnext]
    by_cases hm : m' = m
    · by_cases hp : p = page
      · subst hp
        rw [if_neg (by omega), if_pos ⟨hm, rfl⟩, if_pos (by omega)]
      · have hne : ¬ (m' = m ∧ p = page) := fun heq => hp heq.2
        by_cases hle : page + 1 ≤ p ∧ p < page + 1 + count
        · rw [if_pos ⟨hm, hle⟩, if_neg hne, if_pos (by omega)]
        · rw [if_neg (fun heq => hle heq.2), if_neg hne, if_neg (by omega)]
    · rw [if_neg (fun heq => hm heq.1), if_neg (fun heq => hm heq.1),
        if_neg (fun heq => hm heq.1)]

omit [DecidableEq H] in
/-- A mapping has slots for the pages that it covers. -/
theorem slot_eq {mapping : Mapping} (hm : s.mappings[m]? = some mapping) :
    s.slot m p = if mapping.firstPage ≤ p then
      mapping.slots[p - mapping.firstPage]? else none := by
  unfold slot
  rw [hm]
  rfl

/-- A flush leaves the slots of the mapping clean. -/
theorem slot_flush (h : s.flush c m = some s') : s'.slot m' p
      = if m' = m then (s.slot m' p).map cleaned else s.slot m' p := by
  unfold flush at h
  obtain ⟨mapping, hmapping, h⟩ := Option.bind_eq_some_iff.1 h
  rw [slot_flushPages h]
  by_cases hm : m' = m
  · subst hm
    rw [if_pos rfl]
    by_cases hp : mapping.firstPage ≤ p
        ∧ p < mapping.firstPage + mapping.slots.length
    · rw [if_pos ⟨rfl, hp⟩]
    · rw [if_neg (fun heq => hp heq.2), slot_eq hmapping]
      split
      · rw [List.getElem?_eq_none (by omega)]
        rfl
      · rfl
  · rw [if_neg (fun heq => hm heq.1), if_neg hm]

/-- The file after a flush: an induction over the pages, in order. -/
theorem flushPages_induct (I : ℕ → CryptFile H → Prop)
    (hskip : ∀ i slot f, s.slot m i = some slot
      → slot.state.dirty = false → I i f → I (i + 1) f)
    (hwrite : ∀ i slot f f', s.slot m i = some slot
      → slot.state.dirty = true → I i f
      → f.write c i slot.mem = some f' → I (i + 1) f')
    (hstart : I page s.file) (h : flushPages c m count page s = some s') :
    I (page + count) s'.file := by
  -- the slots of the pages to come are those of the state before
  suffices hgen : ∀ t, (∀ i, page ≤ i → t.slot m i = s.slot m i)
      → I page t.file → flushPages c m count page t = some s'
      → I (page + count) s'.file from hgen s (fun _ _ => rfl) hstart h
  clear hstart h
  induction count generalizing page with
  | zero =>
    intro t _ hI h
    cases h
    exact hI
  | succ count ih =>
    intro t hslots hI h
    unfold flushPages at h
    obtain ⟨next, hnext, h⟩ := Option.bind_eq_some_iff.1 h
    have hrest : ∀ i, page + 1 ≤ i → next.slot m i = s.slot m i := by
      intro i hi
      rw [slot_flushPage hnext, if_neg (by omega), hslots i (by omega)]
    rw [show page + (count + 1) = page + 1 + count by omega]
    refine ih next hrest ?_ h
    obtain ⟨slot, hslot, ⟨hdirty, rfl⟩ | ⟨hdirty, file, hfile, rfl⟩⟩ :=
      flushPage_cases hnext
    · exact hskip page slot _ (hslots page le_rfl ▸ hslot) hdirty hI
    · exact hwrite page slot _ _ (hslots page le_rfl ▸ hslot) hdirty hI
        hfile

end Flush

-- ===== refreshing

section Refresh

variable [DecidableEq H] {c : Cipher H} {retries : ℕ} {toModify : Bool}
  {out : EncryptedFile H × Option String}

/-- A page that is read is up to date, unless that is an error. -/
theorem readPage_cases
    (h : s.readPage c m page retries toModify = some out) :
    ∃ slot result mem file, s.slot m page = some slot
      ∧ s.file.read c page retries slot.mem = some (result, mem, file)
      ∧ (decryptionError toModify result = none
          ∧ out = ({ s with file := file }.modifySlot m page fun slot =>
            ⟨{ slot.state with upToDate := true }, mem⟩, none)
        ∨ out.2 ≠ none
          ∧ out.1 = { s with file := file }.modifySlot m page fun slot =>
            { slot with mem := mem }) := by
  unfold readPage at h
  obtain ⟨slot, hslot, h⟩ := Option.bind_eq_some_iff.1 h
  obtain ⟨⟨result, mem, file⟩, hread, rfl⟩ := Option.map_eq_some_iff.1 h
  refine ⟨slot, result, mem, file, hslot, hread, ?_⟩
  cases herror : decryptionError toModify result with
  | none =>
    left
    refine ⟨rfl, ?_⟩
    simp only [Option.elim_none, Prod.mk.injEq, and_true]
    unfold modifySlot
    rw [mk.injEq]
    refine ⟨rfl, ?_⟩
    simp only
    rw [List.modify_modify_eq]
    congr 1
    funext mapping
    exact mapping.modifyAt_modifyAt page _ _
  | some msg =>
    exact .inr ⟨Option.some_ne_none _, rfl⟩

/-- How a page is refreshed: from another mapping, because its IV is the
same, or from the file. -/
theorem refreshPage_cases
    (h : s.refreshPage c m page retries toModify = some out) :
    ∃ slot, s.slot m page = some slot ∧ slot.state.dirty = false
      ∧ slot.state.writable = false ∧ slot.state.upToDate = false
      ∧ ((∃ mem, s.upToDateCopy m page = some mem
          ∧ out = (s.copied m page mem, none))
        ∨ s.upToDateCopy m page = none
          ∧ ((∃ file, slot.state.staleIV = true
              ∧ s.file.refreshIv page = some (false, file)
              ∧ out = ({ s with file := file }.modifySlots page
                fun _ => checkedSlot false, none))
            ∨ ∃ t, (slot.state.staleIV = false ∧ t = s
                ∨ ∃ file, s.file.refreshIv page = some (true, file)
                  ∧ t = { s with file := file }.modifySlots page
                    fun _ => checkedSlot true)
              ∧ t.readPage c m page retries toModify = some out)) := by
  unfold refreshPage at h
  obtain ⟨slot, hslot, h⟩ := Option.bind_eq_some_iff.1 h
  split at h
  · cases h
  rename_i hstate
  simp only [Bool.or_eq_true, not_or, Bool.not_eq_true] at hstate
  refine ⟨slot, hslot, hstate.1.1, hstate.1.2, hstate.2, ?_⟩
  cases hcopy : s.upToDateCopy m page with
  | some mem =>
    rw [hcopy] at h
    cases h
    exact .inl ⟨mem, rfl, rfl⟩
  | none =>
    rw [hcopy] at h
    right
    refine ⟨rfl, ?_⟩
    obtain ⟨⟨same, t⟩, hcheck, h⟩ := Option.bind_eq_some_iff.1 h
    unfold checkPossiblyStalePage at hcheck
    rw [hslot] at hcheck
    by_cases hstale : slot.state.staleIV = true
    · rw [if_pos (by simpa using hstale)] at hcheck
      obtain ⟨⟨changed, file⟩, hrefresh, hcheck⟩ :=
        Option.bind_eq_some_iff.1 hcheck
      split at hcheck
      · cases hcheck
      · cases hcheck
        cases changed with
        | false =>
          simp only [Bool.not_false, if_true] at h
          cases h
          exact .inl ⟨file, hstale, hrefresh, rfl⟩
        | true =>
          simp only [Bool.not_true, Bool.false_eq_true, if_false] at h
          exact .inr ⟨_, .inr ⟨file, hrefresh, rfl⟩, h⟩
    · rw [if_neg (by simpa using hstale)] at hcheck
      cases hcheck
      simp only [Bool.false_eq_true, if_false] at h
      exact .inr ⟨s, .inl ⟨by simpa using hstale, rfl⟩, h⟩

/-- One page of a read barrier: it is refreshed if that is needed, and
then marked. -/
theorem readBarrierPage_cases
    (h : s.readBarrierPage c m page retries toModify = some out) :
    ∃ slot mid, s.slot m page = some slot
      ∧ (slot.state.upToDate = true ∧ mid = (s, none)
        ∨ slot.state.upToDate = false
          ∧ s.refreshPage c m page retries toModify = some mid)
      ∧ (out = mid ∧ (toModify = false ∨ mid.2 ≠ none)
        ∨ toModify = true ∧ mid.2 = none
          ∧ out = (mid.1.modifySlot m page fun slot =>
            { slot with state := { slot.state with writable := true } },
            none)) := by
  unfold readBarrierPage at h
  obtain ⟨slot, hslot, h⟩ := Option.bind_eq_some_iff.1 h
  obtain ⟨mid, hmid, rfl⟩ := Option.map_eq_some_iff.1 h
  refine ⟨slot, mid, hslot, ?_, ?_⟩
  · split at hmid
    · rename_i hup
      exact .inr ⟨by simpa using hup, hmid⟩
    · rename_i hup
      cases hmid
      exact .inl ⟨by simpa using hup, rfl⟩
  · by_cases hmark : (toModify && mid.2.isNone) = true
    · rw [if_pos hmark]
      simp only [Bool.and_eq_true, Option.isNone_iff_eq_none] at hmark
      exact .inr ⟨hmark.1, hmark.2, rfl⟩
    · rw [if_neg hmark]
      left
      refine ⟨rfl, ?_⟩
      simp only [Bool.and_eq_true, Option.isNone_iff_eq_none,
        not_and_or, Bool.not_eq_true] at hmark
      exact hmark

end Refresh

end EncryptedFile

end BarqSync.Storage
