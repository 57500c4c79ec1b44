/-
Encrypted pages survive interrupted writes.

The move of an older generation to the first place is made in the buffer
only. When the block is read again, after an invalidation or because a
read is repeated, it is undone, and the page is still taken for one that
has been read. `Expected` excludes both while there is a page for which
this matters.
-/
import BarqSync.Storage.Proofs.Tables
import BarqSync.Sys.Runs

namespace BarqSync.Storage

open Sys CryptFile Disk EncryptedFile Function

variable {H : Type} {c : Cipher H}

-- ===== the mappings

section Mappings

variable [DecidableEq H] {s s' : EncryptedFile H} {log : PageLog}
  {m page : ℕ} {f f' : CryptFile H}

/-- Some mapping has read the page. -/
def Held (s : EncryptedFile H) (page : ℕ) : Prop :=
  ∃ m slot, s.slot m page = some slot
    ∧ (slot.state.upToDate = true ∨ slot.state.staleIV = true)

/-- What holds in every state reached. -/
structure Safe (c : Cipher H) (s : EncryptedFile H) (log : PageLog) :
    Prop where
  file : FileInv c s.file log (Held s)
  /-- Only a page that was read is modified. -/
  modified : ∀ m page slot, s.slot m page = some slot
    → slot.state.dirty = true ∨ slot.state.writable = true
    → slot.state.upToDate = true

/-- What a slot says of its page. -/
def SlotOk (held : Prop) (slot : Slot) : Prop :=
  (slot.state.upToDate = true ∨ slot.state.staleIV = true → held)
    ∧ (slot.state.dirty = true ∨ slot.state.writable = true
      → slot.state.upToDate = true)

omit [DecidableEq H] in
theorem Safe.slot (h : Safe c s log) {slot : Slot}
    (hslot : s.slot m page = some slot) : SlotOk (Held s page) slot :=
  ⟨fun hstate => ⟨m, slot, hslot, hstate⟩, h.modified m page slot hslot⟩

omit [DecidableEq H] in
theorem Safe.of_slots {current : ℕ → Prop}
    (hfile : FileInv c s.file log current)
    (hslots : ∀ m p slot, s.slot m p = some slot
      → SlotOk (current p) slot) : Safe c s log :=
  ⟨hfile.mono fun p ⟨m, slot, hslot, hstate⟩ =>
    (hslots m p slot hslot).1 hstate,
    fun m p slot hslot => (hslots m p slot hslot).2⟩

omit [DecidableEq H] in
theorem Safe.modifySlot (h : Safe c s log) {change : Slot → Slot}
    (hchange : ∀ slot, s.slot m page = some slot
      → SlotOk (Held s page) (change slot)) :
    Safe c (s.modifySlot m page change) log := by
  refine .of_slots h.file fun m' p slot hslot => ?_
  rw [slot_modifySlot] at hslot
  split at hslot
  · rename_i heq
    obtain ⟨old, hold, rfl⟩ := Option.map_eq_some_iff.1 hslot
    rw [heq.1, heq.2] at hold
    rw [heq.2]
    exact hchange old hold
  · exact h.slot hslot

/-- `refresh_iv` only looks a table up. -/
theorem FileInv.refreshIv {current : ℕ → Prop} {changed : Bool}
    (h : FileInv c f log current)
    (hrefresh : f.refreshIv page = some (changed, f')) :
    FileInv c f' log current := by
  unfold CryptFile.refreshIv at hrefresh
  split at hrefresh
  · cases hrefresh
  · simp only at hrefresh
    split at hrefresh
    · cases hrefresh
      exact h.congr (by simp) (by simp)
    · cases hrefresh
      exact h.congr (by simp) (by simp)

omit [DecidableEq H] in
theorem Safe.checked (h : Safe c s log) {file : CryptFile H}
    {changed : Bool} (hfile : FileInv c file log (Held s)) :
    Safe c ({ s with file := file }.modifySlots page
      fun _ => EncryptedFile.checkedSlot changed) log := by
  refine .of_slots hfile fun m' p slot hslot => ?_
  rw [slot_modifySlots] at hslot
  split at hslot
  · obtain ⟨old, hold, rfl⟩ := Option.map_eq_some_iff.1 hslot
    obtain ⟨hheld, hup⟩ := h.slot hold
    unfold checkedSlot
    split
    · rename_i hstale
      exact ⟨fun _ => hheld (.inr hstale), fun hstate => by
        simp [hup hstate]⟩
    · exact ⟨hheld, hup⟩
  · exact h.slot hslot

variable {retries : ℕ} {toModify : Bool}
  {out : EncryptedFile H × Option String} {offset : ℕ} {slots : List Slot}

theorem Safe.readPage (h : Safe c s log)
    (hunmoved : retries ≠ 0 → Unmoved c s.file.disk)
    (hread : s.readPage c m page retries toModify = some out) :
    Safe c out.1 log ∧ (out.2 = none → ∃ slot,
      out.1.slot m page = some slot ∧ slot.state.upToDate = true) := by
  obtain ⟨slot, result, mem, file, hslot, hfile, hout⟩ :=
    readPage_cases hread
  have hinv := h.file.read hunmoved hfile
  -- the slots but one are as before, and the page is current now
  have hgen : ∀ change : Slot → Slot,
      (∀ old, (change old).state.dirty = old.state.dirty
        ∧ (change old).state.writable = old.state.writable
        ∧ (old.state.upToDate = true → (change old).state.upToDate = true))
      → Safe c ({ s with file := file }.modifySlot m page change) log := by
    intro change hchange
    refine .of_slots hinv fun m' p slot' hslot' => ?_
    rw [slot_modifySlot] at hslot'
    split at hslot'
    · rename_i heq
      obtain ⟨old, hold, rfl⟩ := Option.map_eq_some_iff.1 hslot'
      obtain ⟨hdirty, hwritable, hup⟩ := hchange old
      refine ⟨fun _ => .inl heq.2, fun hstate => ?_⟩
      rw [hdirty, hwritable] at hstate
      exact hup (h.modified m' p old hold hstate)
    · exact ⟨fun hstate => .inr ((h.slot hslot').1 hstate),
        (h.slot hslot').2⟩
  rcases hout with ⟨-, rfl⟩ | ⟨herror, heq⟩
  · refine ⟨hgen _ fun old => ⟨rfl, rfl, fun _ => rfl⟩, fun _ => ?_⟩
    refine ⟨⟨{ slot.state with upToDate := true }, mem⟩, ?_, rfl⟩
    rw [slot_modifySlot, if_pos ⟨rfl, rfl⟩, slot_withFile, hslot]
    rfl
  · refine ⟨?_, fun hnone => absurd hnone herror⟩
    rw [heq]
    exact hgen _ fun old => ⟨rfl, rfl, id⟩

theorem disk_refreshIv {changed : Bool}
    (h : f.refreshIv page = some (changed, f')) : f'.disk = f.disk := by
  unfold refreshIv at h
  split at h
  · cases h
  · simp only at h
    split at h
    · cases h
      simp
    · cases h
      simp

theorem Safe.refreshPage (h : Safe c s log)
    (hunmoved : retries ≠ 0 → Unmoved c s.file.disk)
    (hrefresh : s.refreshPage c m page retries toModify = some out) :
    Safe c out.1 log ∧ (out.2 = none → ∃ slot,
      out.1.slot m page = some slot ∧ slot.state.upToDate = true) := by
  obtain ⟨slot, hslot, -, -, hup, hcase⟩ :=
    refreshPage_cases hrefresh
  rcases hcase with ⟨mem, hcopy, rfl⟩ | ⟨-, ⟨file, hstale, hsame, rfl⟩
    | ⟨t, ht, hread⟩⟩
  · obtain ⟨other, slot', -, hslot', hup', -⟩ :=
      upToDateCopy_eq_some hcopy
    refine ⟨h.modifySlot fun _ _ => ⟨fun _ => ⟨other, slot', hslot',
      .inl hup'⟩, fun _ => rfl⟩, fun _ => ⟨⟨{ slot.state with
        upToDate := true, staleIV := false }, mem⟩, ?_, rfl⟩⟩
    unfold copied
    rw [slot_modifySlot, if_pos ⟨rfl, rfl⟩, hslot]
    rfl
  · refine ⟨h.checked (h.file.refreshIv hsame), fun _ => ?_⟩
    refine ⟨checkedSlot false slot, ?_, ?_⟩
    · rw [slot_modifySlots, if_pos rfl, slot_withFile, hslot]
      rfl
    · unfold checkedSlot
      rw [if_pos hstale]
      rfl
  · rcases ht with ⟨-, rfl⟩ | ⟨file, hchanged, rfl⟩
    · exact h.readPage hunmoved hread
    · refine Safe.readPage (h.checked (h.file.refreshIv hchanged)) ?_ hread
      rw [file_modifySlots, disk_refreshIv hchanged]
      exact hunmoved

theorem disk_reread {last out : ReadResult × Page × CryptFile H}
    (h : CryptFile.reread c page retries last = some out) :
    out.2.2.disk = last.2.2.disk := by
  induction retries generalizing last with
  | zero =>
    cases h
    rfl
  | succ retries ih =>
    unfold reread at h
    split at h
    · cases h
      rfl
    · obtain ⟨next, hnext, h⟩ := Option.bind_eq_some_iff.1 h
      unfold attemptRead at hnext
      obtain ⟨f', hf', rfl⟩ := Option.map_eq_some_iff.1 hnext
      rw [ih h, disk_decryptPage, disk_getIvTable hf']

theorem disk_read {dst : Page} {out : ReadResult × Page × CryptFile H}
    (h : f.read c page retries dst = some out) :
    out.2.2.disk = f.disk := by
  unfold CryptFile.read at h
  obtain ⟨first, hfirst, h⟩ := Option.bind_eq_some_iff.1 h
  unfold attemptRead at hfirst
  obtain ⟨f', hf', rfl⟩ := Option.map_eq_some_iff.1 hfirst
  rw [disk_reread h, disk_decryptPage, disk_getIvTable hf']

theorem disk_readPage
    (h : s.readPage c m page retries toModify = some out) :
    out.1.file.disk = s.file.disk := by
  obtain ⟨slot, result, mem, file, -, hread, hout⟩ :=
    readPage_cases h
  rcases hout with ⟨-, rfl⟩ | ⟨-, heq⟩
  · exact disk_read hread
  · rw [heq]
    exact disk_read hread

theorem disk_refreshPage
    (h : s.refreshPage c m page retries toModify = some out) :
    out.1.file.disk = s.file.disk := by
  obtain ⟨slot, -, -, -, -, hcase⟩ := refreshPage_cases h
  rcases hcase with ⟨mem, -, rfl⟩ | ⟨-, ⟨file, -, hsame, rfl⟩
    | ⟨t, ⟨-, rfl⟩ | ⟨file, hchanged, rfl⟩, hread⟩⟩
  · rfl
  · exact disk_refreshIv hsame
  · exact disk_readPage hread
  · rw [disk_readPage hread]
    exact disk_refreshIv hchanged

theorem disk_readBarrierPage
    (h : s.readBarrierPage c m page retries toModify = some out) :
    out.1.file.disk = s.file.disk := by
  obtain ⟨slot, mid, -, hmid, hout⟩ :=
    readBarrierPage_cases h
  have hdisk : mid.1.file.disk = s.file.disk := by
    rcases hmid with ⟨-, rfl⟩ | ⟨-, hrefresh⟩
    · rfl
    · exact disk_refreshPage hrefresh
  rcases hout with ⟨rfl, -⟩ | ⟨-, -, rfl⟩
  · exact hdisk
  · exact hdisk

theorem Safe.readBarrierPage (h : Safe c s log)
    (hunmoved : retries ≠ 0 → Unmoved c s.file.disk)
    (hread : s.readBarrierPage c m page retries toModify = some out) :
    Safe c out.1 log := by
  obtain ⟨slot, mid, hslot, hmid, hout⟩ :=
    readBarrierPage_cases hread
  have hsafe : Safe c mid.1 log ∧ (mid.2 = none → ∃ slot,
      mid.1.slot m page = some slot ∧ slot.state.upToDate = true) := by
    rcases hmid with ⟨hup, rfl⟩ | ⟨-, hrefresh⟩
    · exact ⟨h, fun _ => ⟨slot, hslot, hup⟩⟩
    · exact h.refreshPage hunmoved hrefresh
  rcases hout with ⟨rfl, -⟩ | ⟨-, hnone, rfl⟩
  · exact hsafe.1
  · obtain ⟨slot', hslot', hup⟩ := hsafe.2 hnone
    refine hsafe.1.modifySlot fun old hold =>
      ⟨(hsafe.1.slot hold).1, fun _ => ?_⟩
    rw [hslot'] at hold
    cases hold
    exact hup

theorem Safe.readBarrierPages {retries : List ℕ} (h : Safe c s log)
    (hunmoved : (∀ r ∈ retries, r = 0) ∨ Unmoved c s.file.disk)
    (hread : EncryptedFile.readBarrierPages c m toModify page retries s
      = some out) : Safe c out.1 log := by
  induction retries generalizing page s with
  | nil =>
    cases hread
    exact h
  | cons r rest ih =>
    unfold readBarrierPages at hread
    obtain ⟨next, hnext, hread⟩ := Option.bind_eq_some_iff.1 hread
    have hsafe := h.readBarrierPage
      (fun hne => hunmoved.resolve_left fun hall =>
        hne (hall r List.mem_cons_self)) hnext
    split at hread
    · cases hread
      exact hsafe
    · refine ih hsafe ?_ hread
      rw [disk_readBarrierPage hnext]
      exact hunmoved.imp_left fun hall r' hr' =>
        hall r' (List.mem_cons_of_mem _ hr')

omit [DecidableEq H] in
theorem Safe.writeAndUpdateAll {size : ℕ} (h : Safe c s log)
    (hwrite : s.writeAndUpdateAll m page offset size = some s') :
    Safe c s' log := by
  unfold EncryptedFile.writeAndUpdateAll at hwrite
  obtain ⟨slot, hslot, hwrite⟩ := Option.bind_eq_some_iff.1 hwrite
  split at hwrite
  · cases hwrite
  rename_i hstate
  cases hwrite
  simp only [not_or, not_not] at hstate
  refine .of_slots h.file fun m' p slot' hslot' => ?_
  rw [slot_modifySlots] at hslot'
  split at hslot'
  · rename_i heq
    subst heq
    obtain ⟨old, hold, rfl⟩ := Option.map_eq_some_iff.1 hslot'
    refine ⟨fun _ => ⟨m, slot, hslot, .inl hstate.2.1⟩, fun hmodified => ?_⟩
    unfold updatedSlot at hmodified ⊢
    by_cases hm : m' = m
    · subst hm
      rw [hslot] at hold
      cases hold
      rw [if_pos rfl]
      exact hstate.2.1
    · rw [if_neg hm] at hmodified ⊢
      split at hmodified
      · rename_i hup
        rw [if_pos hup]
        exact hup
      · rename_i hup
        rw [if_neg hup]
        split at hmodified
        · rename_i hstale
          rw [if_pos hstale]
        · exact absurd (h.modified m' p old hold hmodified) hup
  · exact h.slot hslot'

omit [DecidableEq H] in
theorem Safe.writeBarrierPages {fuel size : ℕ} (h : Safe c s log)
    (hwrite : EncryptedFile.writeBarrierPages m fuel page offset size s
      = some s') : Safe c s' log := by
  induction fuel generalizing page offset size s with
  | zero =>
    cases hwrite
    exact h
  | succ fuel ih =>
    unfold writeBarrierPages at hwrite
    split at hwrite
    · cases hwrite
      exact h
    · obtain ⟨next, hnext, hwrite⟩ := Option.bind_eq_some_iff.1 hwrite
      exact ih (h.writeAndUpdateAll hnext) hwrite

-- ===== flushing

theorem flushedLog_take {k : ℕ} {slot : Slot} (h : slots[k]? = some slot) :
    flushedLog (slots.take (k + 1)) page log
      = if slot.state.dirty then
          (flushedLog (slots.take k) page log).finished (page + k) slot.mem
        else flushedLog (slots.take k) page log := by
  induction slots generalizing k page log with
  | nil => cases h
  | cons head rest ih =>
    cases k with
    | zero =>
      cases h
      simp only [List.take_succ_cons, List.take_zero, flushedLog,
        Nat.add_zero]
    | succ k =>
      rw [List.getElem?_cons_succ] at h
      rw [List.take_succ_cons, List.take_succ_cons]
      show flushedLog (rest.take (k + 1)) (page + 1) _ = _
      rw [ih h, show page + 1 + k = page + (k + 1) by omega]
      rfl

theorem Safe.flush {mapping : Mapping} (h : Safe c s log)
    (hm : s.mappings[m]? = some mapping) (hflush : s.flush c m = some s') :
    Safe c s' (flushedLog mapping.slots mapping.firstPage log) := by
  have hslots : ∀ m' p, s'.slot m' p
      = if m' = m then (s.slot m' p).map cleaned
        else s.slot m' p := fun _ _ => slot_flush hflush
  refine .of_slots (show FileInv c s'.file _ (Held s) from ?_)
    fun m' p slot hslot => ?_
  · unfold EncryptedFile.flush at hflush
    rw [hm] at hflush
    have hindex : ∀ {i slot}, s.slot m i = some slot
        → mapping.firstPage ≤ i
          ∧ mapping.slots[i - mapping.firstPage]? = some slot := by
      intro i slot hslot
      rw [slot_eq hm] at hslot
      split at hslot
      · exact ⟨by assumption, hslot⟩
      · cases hslot
    have hend := flushPages_induct (fun i f => FileInv c f (flushedLog
        (mapping.slots.take (i - mapping.firstPage)) mapping.firstPage log)
        (Held s)) ?_ ?_ ?_ hflush
    · simpa using hend
    · intro i slot f hslot hdirty hinv
      obtain ⟨hle, hat⟩ := hindex hslot
      rw [show i + 1 - mapping.firstPage = i - mapping.firstPage + 1 by
        omega, flushedLog_take hat, if_neg (by simp [hdirty])]
      exact hinv
    · intro i slot f f' hslot hdirty hinv hwrite
      obtain ⟨hle, hat⟩ := hindex hslot
      rw [show i + 1 - mapping.firstPage = i - mapping.firstPage + 1 by
        omega, flushedLog_take hat, if_pos hdirty,
        show mapping.firstPage + (i - mapping.firstPage) = i by omega]
      exact hinv.write hwrite
    · simpa [flushedLog] using h.file
  · rw [hslots] at hslot
    split at hslot
    · obtain ⟨old, hold, rfl⟩ := Option.map_eq_some_iff.1 hslot
      obtain ⟨hheld, hup⟩ := h.slot hold
      exact ⟨hheld, fun hstate =>
        hup (.inr (hstate.resolve_left (by simp [cleaned])))⟩
    · exact h.slot hslot

/-- A crash while pages are flushed that were all read. -/
theorem FileInv.interruptedFlush {steps : ℕ} {current : ℕ → Prop}
    {out : Disk H × PageLog} (h : FileInv c f log current)
    (hcur : ∀ i slot, slots[i]? = some slot → slot.state.dirty = true
      → current (page + i))
    (hcrash : Storage.interruptedFlush c slots page steps f log
      = some out) (p : ℕ) (hdone : out.2.completed p = true) :
    Kept c out.2 out.1 p := by
  induction slots generalizing page steps f log with
  | nil =>
    cases hcrash
    exact h.kept p hdone
  | cons slot rest ih =>
    have hrest : ∀ i slot', rest[i]? = some slot'
        → slot'.state.dirty = true → current (page + 1 + i) := by
      intro i slot' hslot' hdirty
      rw [show page + 1 + i = page + (i + 1) by omega]
      exact hcur (i + 1) slot' hslot' hdirty
    unfold Storage.interruptedFlush at hcrash
    split at hcrash
    · exact ih h hrest hcrash
    rename_i hdirty
    split at hcrash
    · cases hcrash
      exact h.kept p hdone
    split at hcrash
    · obtain ⟨⟨data, f'⟩, hprep, rfl⟩ := Option.map_eq_some_iff.1 hcrash
      exact h.interrupted (hcur 0 slot rfl (by simpa using hdirty)) hprep p
        hdone
    · obtain ⟨f', hwrite, hcrash⟩ := Option.bind_eq_some_iff.1 hcrash
      exact ih (h.write hwrite) hrest hcrash

end Mappings

-- ===== the runs

namespace Logged

variable [DecidableEq H] {s s' : Logged H} {event : Event}
  {file : EncryptedFile H} {log : PageLog}

/-- The condition on an event: a read is repeated only while no page is
decrypted by its second generation only, and the IVs are invalidated only
while all tables in the buffer are as on disk. -/
def Expected (c : Cipher H) (s : Logged H) : Event → Prop
  | .readBarrier _ _ _ _ retries =>
    (∀ i, retries i = 0) ∨ Unmoved c s.file.file.disk
  | .markDataAsPossiblyStale =>
    ∀ page, s.file.file.table page = s.file.file.disk.ivs page
  | _ => True

omit [DecidableEq H] in
theorem safe_setDataSize (h : Safe c file log) (pages : ℕ) :
    Safe c { file with file := file.file.setDataSize pages } log :=
  ⟨h.file.congr rfl fun _ => rfl, h.modified⟩

omit [DecidableEq H] in
theorem safe_mark {file' : EncryptedFile H} (h : Safe c file log)
    (hok : ∀ page, file.file.table page = file.file.disk.ivs page)
    (hmark : file.markDataAsPossiblyStale = some file') :
    Safe c file' log := by
  -- what is looked up from now on is what is on disk
  have hinv : FileInv c file'.file log (Held file) := by
    rw [file_mark hmark]
    exact h.file.congr rfl fun p => (hok p).symm
  refine .of_slots hinv fun m' p slot hslot => ?_
  rw [slot_mark hmark] at hslot
  obtain ⟨old, hold, rfl⟩ := Option.map_eq_some_iff.1 hslot
  obtain ⟨hheld, hmodified⟩ := h.slot hold
  unfold markedSlot
  split
  · rename_i hup
    simp only [Bool.and_eq_true, Bool.not_eq_true'] at hup
    refine ⟨fun _ => hheld (.inl hup.1.1), fun hstate => ?_⟩
    rw [hup.1.2, hup.2] at hstate
    simp at hstate
  · exact ⟨hheld, hmodified⟩

/-- Every event that meets the condition keeps the invariant. -/
theorem safe_step (h : Safe c s.file s.log) (hok : Expected c s event)
    (hstep : s.step c event = some s') : Safe c s'.file s'.log := by
  cases event with
  | readBarrier m addr size toModify retries =>
    obtain ⟨out, hout, rfl⟩ := Option.map_eq_some_iff.1 hstep
    unfold readBarrier at hout
    split at hout
    · cases hout
    · refine h.readBarrierPages ?_ hout
      refine hok.imp_left fun hall r hr => ?_
      obtain ⟨i, -, rfl⟩ := List.mem_map.1 hr
      exact hall i
  | store m page offset byte =>
    simp only [step] at hstep
    split at hstep
    · cases hstep
      exact h.modifySlot fun old hold =>
        ⟨(h.slot hold).1, (h.slot hold).2⟩
    · cases hstep
  | writeBarrier m addr size =>
    obtain ⟨file, hfile, rfl⟩ := Option.map_eq_some_iff.1 hstep
    unfold writeBarrier at hfile
    split at hfile
    · cases hfile
    · exact h.writeBarrierPages hfile
  | flush m =>
    obtain ⟨file, hfile, rfl⟩ := Option.map_eq_some_iff.1 hstep
    obtain ⟨mapping, hmapping, -⟩ := Option.bind_eq_some_iff.1 hfile
    have hm : s.mapping m = mapping := by
      simp [Logged.mapping, hmapping]
    show Safe c file (flushedLog _ _ _)
    rw [hm]
    exact h.flush hmapping hfile
  | markDataAsPossiblyStale =>
    obtain ⟨file, hfile, rfl⟩ := Option.map_eq_some_iff.1 hstep
    exact safe_mark h hok hfile
  | extendTo m pages =>
    cases hstep
    have hslots : ∀ {m' p slot},
        (s.file.extendTo m pages).slot m' p = some slot
          → s.file.slot m' p = some slot ∨ slot = {} :=
      slot_extendTo
    have hinv : FileInv c (s.file.extendTo m pages).file s.log
        (Held s.file) := h.file.congr rfl fun _ => rfl
    refine .of_slots hinv fun m' p slot hslot => ?_
    rcases hslots hslot with hold | rfl
    · exact h.slot hold
    · simp [SlotOk]
  | set m firstPage pages =>
    obtain ⟨file, hfile, rfl⟩ := Option.map_eq_some_iff.1 hstep
    unfold EncryptedFile.set at hfile
    obtain ⟨flushed, hflushed, rfl⟩ := Option.map_eq_some_iff.1 hfile
    obtain ⟨mapping, hmapping, -⟩ := Option.bind_eq_some_iff.1 hflushed
    have hm : s.mapping m = mapping := by
      have hmapping' : s.file.mappings[m]? = some mapping := hmapping
      simp [Logged.mapping, hmapping']
    have hsafe := (safe_setDataSize h (firstPage + pages)).flush hmapping
      hflushed
    show Safe c _ (flushedLog _ _ _)
    rw [hm]
    refine .of_slots hsafe.file fun m' p slot hslot => ?_
    rcases slot_set hslot with ⟨-, hold⟩ | ⟨-, rfl⟩
    · exact hsafe.slot hold
    · simp [SlotOk]
  | crash m steps =>
    obtain ⟨⟨disk, log⟩, hcrash, rfl⟩ := Option.map_eq_some_iff.1 hstep
    have hnone : ∀ m' p,
        (s.reopened c disk log).file.slot m' p = none := by
      intro m' p
      unfold slot reopened
      simp only [List.getElem?_map]
      cases s.file.mappings[m']? with
      | none => rfl
      | some mapping =>
        show Mapping.slotAt {} p = none
        unfold Mapping.slotAt
        split <;> rfl
    refine .of_slots (FileInv.reopened ?_) fun m' p slot hslot => ?_
    · refine h.file.interruptedFlush ?_ hcrash
      intro i slot hslot hdirty
      have hat : s.file.slot m ((s.mapping m).firstPage + i)
          = some slot := by
        unfold EncryptedFile.slot Mapping.slotAt
        unfold Logged.mapping at hslot ⊢
        cases hm : s.file.mappings[m]? with
        | none =>
          rw [hm] at hslot
          simp at hslot
        | some mapping =>
          rw [hm] at hslot
          simpa using hslot
      exact ⟨m, slot, hat, .inl (h.modified m _ slot hat (.inl hdirty))⟩
    · rw [hnone] at hslot
      cases hslot

omit [DecidableEq H] in
theorem safe_start (mappings : ℕ) :
    Safe c (start c mappings).file (start c mappings).log := by
  have hnone : ∀ m p, (start c mappings).file.slot m p = none := by
    intro m p
    unfold slot start
    simp only [List.getElem?_replicate]
    split
    · show Mapping.slotAt {} p = none
      unfold Mapping.slotAt
      split <;> rfl
    · rfl
  constructor
  · constructor <;>
    · intro p hdone
      cases hdone
  · intro m p slot hslot
    rw [hnone] at hslot
    cases hslot

/-- In every run in which no IV table is read again while a page depends
on the generation that was moved in the buffer, a page that was written
completely once can be decrypted, to the plaintext of its last completed
write or of one that was interrupted since. -/
theorem pages_survive (c : Cipher H) (mappings : ℕ)
    (hrun : Run (step c) (Expected c) (start c mappings) s) {page : ℕ}
    (hdone : s.log.completed page = true) (dst : Page) :
    ∃ mem f, (s.file.file.setDataSize (page + 1)).attemptRead c page
        .useCache dst = some (.success, mem, f)
      ∧ mem ∈ s.log.plaintexts page := by
  have hsafe : Safe c s.file s.log := hrun.invariant
    (I := fun s => Safe c s.file s.log) (safe_start mappings)
    fun t event u ht hok hstep => safe_step ht hok hstep
  have hinv : FileInv c (s.file.file.setDataSize (page + 1)) s.log
      (Held s.file) := hsafe.file.congr rfl fun _ => rfl
  have hcapacity : ¬ (s.file.file.setDataSize (page + 1)).cryptor.capacity
      ≤ page := by
    show ¬ max _ _ ≤ page
    rw [max_le_iff, not_and_or]
    right
    have hblock : pagesPerBlock = 64 := rfl
    rw [hblock]
    omega
  have hget : (s.file.file.setDataSize (page + 1)).getIvTable page
      .useCache = some _ := if_neg hcapacity
  obtain ⟨hinv', hblock, -⟩ := hinv.getIvTable hget
  obtain ⟨mem, f, heq, hmem, -⟩ := hinv'.decryptPage hblock hdone dst
  refine ⟨mem, f, ?_, hmem⟩
  unfold attemptRead
  rw [hget]
  exact congrArg some heq

-- ===== two runs

/-- Each byte is shifted by the IV, and the HMAC is the page. -/
private def shiftCipher : Cipher Page where
  encrypt iv _ p := fun i => p i + iv.toUInt8
  decrypt iv _ p := fun i => p i - iv.toUInt8
  hmac p := p
  noHmac := Page.zero
  decrypt_encrypt iv page p := by
    funext i
    exact UInt8.add_sub_cancel (p i) iv.toUInt8
  hmac_injective := Function.injective_id

/-- The first byte of the first page is changed and published. -/
private def changed (byte : UInt8) : List Event :=
  [.readBarrier 0 0 1 true fun _ => 0, .store 0 0 ⟨0, by decide⟩ byte,
    .writeBarrier 0 0 1]

/-- A write of the first page completes, the next one is interrupted, and
the page is read after the file is opened again. -/
private def readBack : List Event :=
  .set 0 0 1 :: changed 1 ++ [.flush 0] ++ changed 2
    ++ [.crash 0 1, .set 0 0 1, .readBarrier 0 0 1 false fun _ => 0]

set_option maxRecDepth 100000 in
theorem pages_survive_readBack :
    ∃ s, exec (step shiftCipher) (start shiftCipher 1) readBack = some s
      ∧ s.log.completed 0 = true
      ∧ ∃ mem f, (s.file.file.setDataSize 1).attemptRead shiftCipher 0
          .useCache Page.zero = some (.success, mem, f)
        ∧ mem ∈ s.log.plaintexts 0 := by
  obtain ⟨s, hs, hdone⟩ := (Option.any_eq_true _ _).1 (show (exec
    (step shiftCipher) (start shiftCipher 1) readBack).any
      (fun s => s.log.completed 0) = true by decide +kernel)
  refine ⟨s, hs, hdone, pages_survive shiftCipher 1
    (run_of_exec hs (ExecOk.of_forall ?_)) hdone Page.zero⟩
  intro event hevent t
  simp only [readBack, changed, List.cons_append, List.nil_append,
    List.mem_cons, List.not_mem_nil, or_false] at hevent
  rcases hevent with rfl | rfl | rfl | rfl | rfl | rfl | rfl | rfl | rfl
    | rfl | rfl <;> simp [Expected]

/-- The IVs are invalidated after the page was read, and another write of
it is interrupted. -/
private def invalidated : List Event :=
  readBack ++ .markDataAsPossiblyStale :: changed 3
    ++ [.crash 0 1, .set 0 0 1]

set_option maxRecDepth 100000 in
/-- The page is lost: no generation is the one it was encrypted with. -/
theorem invalidated_page_lost :
    ∃ s, exec (step shiftCipher) (start shiftCipher 1) invalidated = some s
      ∧ s.log.completed 0 = true
      ∧ ∃ mem f, s.file.file.attemptRead shiftCipher 0 .useCache Page.zero
        = some (.failed, mem, f) := by
  obtain ⟨s, hs, hlost⟩ := (Option.any_eq_true _ _).1 (show (exec
    (step shiftCipher) (start shiftCipher 1) invalidated).any
      (fun s => s.log.completed 0 && (s.file.file.attemptRead shiftCipher 0
        .useCache Page.zero).any fun out => out.1 = .failed) = true by
    decide +kernel)
  rw [Bool.and_eq_true] at hlost
  obtain ⟨⟨result, mem, f⟩, hread, hresult⟩ :=
    (Option.any_eq_true _ _).1 hlost.2
  cases of_decide_eq_true hresult
  exact ⟨s, hs, hlost.1, mem, f, hread⟩

end Logged

end BarqSync.Storage
