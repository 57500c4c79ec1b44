/-
The IV tables of encrypted pages, and what a write of one page does to
them.

`Kept` says that the data of a page on disk is decrypted by one of the
two generations of its IV table. A write replaces the older generation,
so it is safe only if the table that it starts from (`table`: the one in
the buffer, or the one on disk while the block has not been read) has in
its first generation the one that decrypts the data. This holds for every
page that a mapping has read (`current`), because a read that had to use
the second generation moves it to the first.
-/
import BarqSync.Storage.Interruption
import BarqSync.Storage.Proofs.Slots
import Mathlib.Tactic.Common

namespace BarqSync.Storage

open CryptFile Disk EncryptedFile Function

variable {H : Type} {c : Cipher H}

-- ===== the tables

namespace CryptFile

/-- The table that a lookup of the page finds. -/
def table (f : CryptFile H) (page : ℕ) : IVTable H :=
  if f.cryptor.ivBlocksRead (page / pagesPerBlock) then
    f.cryptor.ivBuffer page
  else f.disk.ivs page

variable {f : CryptFile H} {page p : ℕ} {f' : CryptFile H}

@[simp]
theorem disk_lookedUp (mode : IVLookupMode) :
    (f.lookedUp page mode).disk = f.disk := by
  unfold lookedUp
  split <;> rfl

@[simp]
theorem disk_cached : (f.cached page).disk = f.disk := rfl

@[simp]
theorem table_cached : (f.cached page).table p = f.table p := rfl

@[simp]
theorem disk_setTable (iv : IVTable H) :
    (f.setTable page iv).disk = f.disk := rfl

/-- A lookup reads a block only if it was not read. -/
@[simp]
theorem table_lookedUp : (f.lookedUp page .useCache).table p = f.table p := by
  unfold lookedUp
  split
  · rename_i hread
    simp only [ne_eq, not_true_eq_false, false_or, Bool.not_eq_true]
      at hread
    unfold table readIvBlock
    by_cases hp : p / pagesPerBlock = page / pagesPerBlock
    · simp [hp, hread]
    · simp [hp]
  · rfl

theorem blockRead_lookedUp (mode : IVLookupMode) :
    (f.lookedUp page mode).cryptor.ivBlocksRead (page / pagesPerBlock)
      = true := by
  unfold lookedUp
  split
  · simp [readIvBlock]
  · rename_i h
    simp only [ne_eq, not_or, not_not] at h
    exact h.2

theorem disk_getIvTable {mode : IVLookupMode}
    (h : f.getIvTable page mode = some f') : f'.disk = f.disk := by
  unfold getIvTable at h
  split at h
  · cases h
  · cases h
    simp

/-- Once its block was read the table is the one in the buffer. -/
theorem ivBuffer_lookedUp (mode : IVLookupMode) :
    (f.lookedUp page mode).cryptor.ivBuffer page
      = (f.lookedUp page mode).table page := by
  unfold table
  rw [blockRead_lookedUp, if_pos rfl]

theorem table_getIvTable (h : f.getIvTable page .useCache = some f') :
    (∀ p, f'.table p = f.table p)
      ∧ f'.cryptor.ivBlocksRead (page / pagesPerBlock) = true
      ∧ f'.cryptor.ivBuffer page = f'.table page := by
  unfold getIvTable at h
  split at h
  · cases h
  · cases h
    exact ⟨by simp, blockRead_lookedUp _, ivBuffer_lookedUp _⟩

theorem table_setTable (iv : IVTable H)
    (hread : f.cryptor.ivBlocksRead (page / pagesPerBlock) = true) :
    (f.setTable page iv).table p
      = if p = page then iv else f.table p := by
  unfold table setTable
  by_cases hp : p = page
  · subst hp
    simp [hread]
  · simp [hp]

/-- A block that is fetched again has the tables of the disk. -/
theorem table_refetch : (f.lookedUp page .refetch).table p
      = if p / pagesPerBlock = page / pagesPerBlock then f.disk.ivs p
        else f.table p := by
  unfold lookedUp
  rw [if_pos (.inl (by simp))]
  unfold table readIvBlock
  by_cases hp : p / pagesPerBlock = page / pagesPerBlock
  · simp [hp]
  · simp [hp]

@[simp]
theorem disk_decryptPage [DecidableEq H] (dst : Page) :
    (f.decryptPage c page dst).2.2.disk = f.disk := by
  unfold decryptPage
  simp only
  split; · rfl
  split; · rfl
  split; · rfl
  split; · rfl
  split; · rfl
  split <;> rfl

end CryptFile

-- ===== the invariant

section Invariant

variable {log : PageLog} {disk disk' : Disk H} {page : ℕ} {data : Page}
  {iv : UInt32} {log' : PageLog}

/-- The data is a plaintext of the page, under this IV and HMAC. -/
def Decrypts (c : Cipher H) (log : PageLog) (page : ℕ) (iv : UInt32)
    (hmac : H) (data : Page) : Prop :=
  iv ≠ 0 ∧ hmac = c.hmac data
    ∧ ∃ src ∈ log.plaintexts page, data = c.encrypt iv page src

theorem Decrypts.mono {hmac : H} (h : Decrypts c log page iv hmac data)
    (hsub : log.plaintexts page ⊆ log'.plaintexts page) :
    Decrypts c log' page iv hmac data := by
  obtain ⟨hiv, hhmac, src, hsrc, hdata⟩ := h
  exact ⟨hiv, hhmac, src, hsub hsrc, hdata⟩

/-- One of the generations on disk decrypts the page. -/
structure Kept (c : Cipher H) (log : PageLog) (disk : Disk H) (page : ℕ) :
    Prop where
  inFile : dataPosToFilePos page + encryptionPageSize ≤ disk.size
  generation : Decrypts c log page (disk.ivs page).iv1
      (disk.ivs page).hmac1 (disk.data page)
    ∨ Decrypts c log page (disk.ivs page).iv2 (disk.ivs page).hmac2
        (disk.data page)
      ∧ (disk.ivs page).iv1 ≠ 0
      ∧ (disk.ivs page).hmac1 ≠ (disk.ivs page).hmac2

theorem Kept.mono (h : Kept c log disk page)
    (hsize : disk.size ≤ disk'.size)
    (hivs : disk'.ivs page = disk.ivs page)
    (hdata : disk'.data page = disk.data page)
    (hsub : log.plaintexts page ⊆ log'.plaintexts page) :
    Kept c log' disk' page := by
  refine ⟨h.inFile.trans hsize, ?_⟩
  rw [hivs, hdata]
  rcases h.generation with hfirst | ⟨hsecond, hrest⟩
  · exact .inl (hfirst.mono hsub)
  · exact .inr ⟨hsecond.mono hsub, hrest⟩

/-- What holds of the cryptor and its file; `current` are the pages that
some mapping has read. -/
structure FileInv (c : Cipher H) (f : CryptFile H) (log : PageLog)
    (current : ℕ → Prop) : Prop where
  kept : ∀ page, log.completed page = true → Kept c log f.disk page
  /-- The buffer differs from the disk by moved generations only. -/
  buffered : ∀ page, log.completed page = true
    → f.table page = f.disk.ivs page
      ∨ f.table page = unbumped (f.disk.ivs page)
        ∧ Decrypts c log page (f.disk.ivs page).iv2
          (f.disk.ivs page).hmac2 (f.disk.data page)
  current : ∀ page, log.completed page = true → current page
    → Decrypts c log page (f.table page).iv1 (f.table page).hmac1
      (f.disk.data page)

variable {f f' : CryptFile H} {current current' : ℕ → Prop}

section

variable (h : FileInv c f log current)

include h

theorem FileInv.mono (hsub : ∀ page, current' page → current page) :
    FileInv c f log current' :=
  ⟨h.kept, h.buffered, fun page hdone hcur =>
    h.current page hdone (hsub page hcur)⟩

/-- Only the disk and the tables matter. -/
theorem FileInv.congr
    (hdisk : f'.disk = f.disk) (htable : ∀ p, f'.table p = f.table p) :
    FileInv c f' log current := by
  constructor
  · rw [hdisk]
    exact h.kept
  · intro p hp
    rw [hdisk, htable]
    exact h.buffered p hp
  · intro p hp hcur
    rw [hdisk, htable]
    exact h.current p hp hcur

theorem FileInv.getIvTable (hget : f.getIvTable page .useCache = some f') :
    FileInv c f' log current
      ∧ f'.cryptor.ivBlocksRead (page / pagesPerBlock) = true
      ∧ f'.cryptor.ivBuffer page = f'.table page := by
  obtain ⟨htable, hrest⟩ := table_getIvTable hget
  exact ⟨h.congr (disk_getIvTable hget) htable, hrest⟩

/-- A change of the table of a page that is not known, or that moves the
second generation to the first. -/
theorem FileInv.setTable
    (hread : f.cryptor.ivBlocksRead (page / pagesPerBlock) = true)
    (htable : f.table page = f.disk.ivs page)
    (hdecrypts : log.completed page = true
      → Decrypts c log page (f.disk.ivs page).iv2 (f.disk.ivs page).hmac2
        (f.disk.data page)) :
    FileInv c (f.setTable page (unbumped (f.table page))) log
      fun p => p = page ∨ current p := by
  constructor
  · exact h.kept
  · intro p hp
    rw [table_setTable _ hread]
    split
    · rename_i heq
      subst heq
      exact .inr ⟨by rw [htable]; rfl, hdecrypts hp⟩
    · exact h.buffered p hp
  · intro p hp hcur
    rw [table_setTable _ hread]
    split
    · rename_i heq
      subst heq
      rw [htable]
      exact hdecrypts hp
    · rename_i hne
      exact h.current p hp (hcur.resolve_left hne)

end

variable [DecidableEq H] {src : Page}
  {out : ReadResult × Page × CryptFile H} {retries : ℕ}

section

variable (h : FileInv c f log current) (hread : f.cryptor.ivBlocksRead
  (page / pagesPerBlock) = true)

include h hread

/-- A page that was written completely is decrypted, and is current from
then on. -/
theorem FileInv.decryptPage
    (hdone : log.completed page = true) (dst : Page) :
    ∃ mem f', f.decryptPage c page dst = (.success, mem, f')
      ∧ mem ∈ log.plaintexts page
      ∧ FileInv c f' log fun p => p = page ∨ current p := by
  have hbuffer : f.cryptor.ivBuffer page = f.table page := by
    unfold table
    rw [if_pos hread]
  obtain ⟨hsize, hgen⟩ := h.kept page hdone
  have hsize' : ¬ f.disk.size < dataPosToFilePos page
      + encryptionPageSize := not_lt.2 hsize
  -- the first generation in the buffer decrypts the page
  have hfirst : Decrypts c log page (f.table page).iv1
      (f.table page).hmac1 (f.disk.data page)
      → ∃ mem f', f.decryptPage c page dst = (.success, mem, f')
        ∧ mem ∈ log.plaintexts page
        ∧ FileInv c f' log fun p => p = page ∨ current p := by
    intro hdec
    obtain ⟨hiv, hhmac, src, hsrc, hdata⟩ := hdec
    refine ⟨src, f, ?_, hsrc, h.kept, h.buffered, ?_⟩
    · unfold CryptFile.decryptPage
      simp only [hbuffer]
      rw [if_neg hiv, if_neg hsize', if_pos hhmac.symm, hdata,
        c.decrypt_encrypt]
    · intro p hp hcur
      rcases hcur with rfl | hcur
      · exact ⟨hiv, hhmac, src, hsrc, hdata⟩
      · exact h.current p hp hcur
  rcases h.buffered page hdone with htable | ⟨htable, hdec⟩
  · rcases hgen with hdec | ⟨hdec, hiv1, hne⟩
    · exact hfirst (by rw [htable]; exact hdec)
    · obtain ⟨hiv, hhmac, src, hsrc, hdata⟩ := id hdec
      refine ⟨src, f.setTable page (unbumped (f.table page)), ?_, hsrc,
        h.setTable hread htable fun _ => hdec⟩
      unfold CryptFile.decryptPage
      simp only [hbuffer, htable]
      rw [if_neg hiv1, if_neg hsize',
        if_neg (by rw [← hhmac]; exact hne.symm), if_neg hiv,
        if_pos hhmac.symm, hdata, c.decrypt_encrypt]
  · exact hfirst (by rw [htable]; exact hdec)

/-- Whatever an attempt to decrypt a page finds, the page is current if
it was written completely. -/
theorem FileInv.decryptPage_inv (dst : Page) :
    FileInv c (f.decryptPage c page dst).2.2 log
      (fun p => p = page ∨ current p) := by
  by_cases hdone : log.completed page = true
  · obtain ⟨mem, f', heq, -, hinv⟩ := h.decryptPage hread hdone dst
    rw [heq]
    exact hinv
  · have hsame : FileInv c f log fun p => p = page ∨ current p := by
      refine ⟨h.kept, h.buffered, fun p hp hcur => ?_⟩
      rcases hcur with rfl | hcur
      · exact absurd hp hdone
      · exact h.current p hp hcur
    unfold CryptFile.decryptPage
    simp only
    split; · exact hsame
    split; · exact hsame
    split; · exact hsame
    split; · exact hsame
    split
    · refine ⟨h.kept, fun p hp => ?_, fun p hp hcur => ?_⟩
      · have hne : p ≠ page := fun heq => hdone (heq ▸ hp)
        rw [table_setTable _ hread, if_neg hne]
        exact h.buffered p hp
      · have hne : p ≠ page := fun heq => hdone (heq ▸ hp)
        rw [table_setTable _ hread, if_neg hne]
        exact h.current p hp (hcur.resolve_left hne)
    · split <;> exact hsame

end

/-- No page is decrypted by its second generation only. -/
def Unmoved (c : Cipher H) (disk : Disk H) : Prop :=
  ∀ page, c.hmac (disk.data page) = (disk.ivs page).hmac2
    → c.hmac (disk.data page) = (disk.ivs page).hmac1

omit [DecidableEq H] in
theorem FileInv.refetch (h : FileInv c f log current)
    (hunmoved : Unmoved c f.disk) :
    FileInv c ((f.lookedUp page .refetch).cached page) log current := by
  constructor
  · simpa using h.kept
  · intro p hp
    rw [disk_cached, disk_lookedUp, table_cached, table_refetch]
    split
    · exact .inl rfl
    · exact h.buffered p hp
  · intro p hp hcur
    rw [disk_cached, disk_lookedUp, table_cached, table_refetch]
    split
    · rcases (h.kept p hp).generation with hfirst | ⟨hsecond, -, hne⟩
      · exact hfirst
      · have := hunmoved p hsecond.2.1.symm
        exact absurd (this.symm.trans hsecond.2.1.symm) hne
    · exact h.current p hp hcur

theorem FileInv.reread {last : ReadResult × Page × CryptFile H}
    (h : FileInv c last.2.2 log fun p => p = page ∨ current p)
    (hunmoved : retries ≠ 0 → Unmoved c last.2.2.disk)
    (hread : CryptFile.reread c page retries last = some out) :
    FileInv c out.2.2 log (fun p => p = page ∨ current p) := by
  induction retries generalizing last with
  | zero =>
    cases hread
    exact h
  | succ retries ih =>
    unfold CryptFile.reread at hread
    split at hread
    · cases hread
      exact h
    · obtain ⟨next, hnext, hread⟩ := Option.bind_eq_some_iff.1 hread
      unfold CryptFile.attemptRead CryptFile.getIvTable at hnext
      split at hnext
      · cases hnext
      · obtain ⟨f', hf', rfl⟩ := Option.map_eq_some_iff.1 hnext
        cases hf'
        have hblock : ((last.2.2.lookedUp page .refetch).cached
            page).cryptor.ivBlocksRead (page / pagesPerBlock) = true :=
          blockRead_lookedUp (f := last.2.2) .refetch
        have hinv := (h.refetch (hunmoved
          (Nat.succ_ne_zero retries))).decryptPage_inv hblock last.2.1
        refine ih (hinv.mono fun p hp => .inr hp) ?_ hread
        intro _
        rw [disk_decryptPage, disk_cached, disk_lookedUp]
        exact hunmoved (Nat.succ_ne_zero retries)

theorem FileInv.read {dst : Page} (h : FileInv c f log current)
    (hunmoved : retries ≠ 0 → Unmoved c f.disk)
    (hread : f.read c page retries dst = some out) :
    FileInv c out.2.2 log (fun p => p = page ∨ current p) := by
  unfold CryptFile.read at hread
  obtain ⟨first, hfirst, hread⟩ := Option.bind_eq_some_iff.1 hread
  unfold attemptRead at hfirst
  obtain ⟨f', hf', rfl⟩ := Option.map_eq_some_iff.1 hfirst
  obtain ⟨hinv, hblock, -⟩ := h.getIvTable hf'
  refine FileInv.reread (hinv.decryptPage_inv hblock dst) ?_ hread
  rw [disk_decryptPage, disk_getIvTable hf']
  exact hunmoved

-- ===== writes

theorem encryptLoop_spec {hmac2 : H} {fuel : ℕ} {iv1 : UInt32}
    (h : encryptLoop c page src hmac2 fuel iv = some (iv1, data)) :
    iv1 ≠ 0 ∧ data = c.encrypt iv1 page src ∧ c.hmac data ≠ hmac2 := by
  induction fuel generalizing iv with
  | zero => cases h
  | succ fuel ih =>
    unfold encryptLoop at h
    have hbump : (if iv + 1 = 0 then (1 : UInt32) else iv + 1) ≠ 0 := by
      split
      · decide
      · assumption
    generalize (if iv + 1 = 0 then (1 : UInt32) else iv + 1) = next
      at h hbump
    simp only at h
    split at h
    · exact ih h
    · rename_i hne
      cases h
      exact ⟨hbump, rfl, hne⟩

/-- A write that is prepared: the new table keeps the old first
generation as its second. -/
theorem prepareWrite_spec
    (h : f.prepareWrite c page src = some (data, f')) :
    ∃ iv : UInt32, iv ≠ 0 ∧ data = c.encrypt iv page src
      ∧ c.hmac data ≠ (f.table page).hmac1
      ∧ f'.disk = f.disk
      ∧ f'.cryptor.ivBlocksRead (page / pagesPerBlock) = true
      ∧ f'.cryptor.ivBuffer page
        = ⟨iv, c.hmac data, (f.table page).iv1, (f.table page).hmac1⟩
      ∧ ∀ p, p ≠ page → f'.table p = f.table p := by
  unfold prepareWrite at h
  obtain ⟨g, hg, h⟩ := Option.bind_eq_some_iff.1 h
  obtain ⟨⟨iv, data'⟩, hloop, heq⟩ := Option.map_eq_some_iff.1 h
  obtain ⟨htable, hblock, hbuffer⟩ := table_getIvTable hg
  have hdisk := disk_getIvTable hg
  cases heq
  rw [hbuffer, htable] at hloop
  obtain ⟨hiv, hdata, hne⟩ := encryptLoop_spec hloop
  refine ⟨iv, hiv, hdata, hne, hdisk, hblock, ?_, ?_⟩
  · simp [setTable, hbuffer, htable]
  · intro p hp
    rw [table_setTable _ hblock, if_neg hp, htable]

/-- A completed write. -/
theorem FileInv.write (h : FileInv c f log current)
    (hwrite : f.write c page src = some f') :
    FileInv c f' (log.finished page src) current := by
  unfold CryptFile.write at hwrite
  obtain ⟨⟨data, g⟩, hprep, rfl⟩ := Option.map_eq_some_iff.1 hwrite
  obtain ⟨iv, hiv, hdata, -, hdisk, hblock, hbuffer, hother⟩ :=
    prepareWrite_spec hprep
  have hcompleted : ∀ p, p ≠ page
      → (log.finished page src).completed p = true
      → log.completed p = true := by
    intro p hp hdone
    simpa [PageLog.finished, update_of_ne hp] using hdone
  have hsub : ∀ p, p ≠ page → log.plaintexts p
      ⊆ (log.finished page src).plaintexts p := by
    intro p hp
    simp [PageLog.finished, update_of_ne hp]
  have hfirst : Decrypts c (log.finished page src) page iv (c.hmac data)
      data :=
    ⟨hiv, rfl, src, by simp [PageLog.finished], hdata⟩
  have htable : ∀ p, (((g.ivWritten page).dataWritten page data).cached
      page).table p = if p = page then g.cryptor.ivBuffer page
        else f.table p := by
    intro p
    rw [table_cached]
    by_cases hp : p = page
    · subst hp
      simp [table, dataWritten, ivWritten, hblock]
    · rw [if_neg hp, ← hother p hp]
      simp [table, dataWritten, ivWritten, writeIv,
        writeData, update_of_ne hp]
  constructor
  · intro p hdone
    by_cases hp : p = page
    · subst hp
      refine ⟨?_, .inl ?_⟩
      · exact le_max_right _ _
      · simpa [dataWritten, ivWritten, writeIv, writeData,
          hbuffer] using hfirst
    · refine (h.kept p (hcompleted p hp hdone)).mono ?_ ?_ ?_ (hsub p hp)
      · rw [← hdisk]
        exact (le_max_left _ _).trans (le_max_left _ _)
      · simp [dataWritten, ivWritten, writeIv, writeData,
          update_of_ne hp, hdisk]
      · simp [dataWritten, ivWritten, writeIv, writeData,
          update_of_ne hp, hdisk]
  · intro p hdone
    rw [htable]
    by_cases hp : p = page
    · subst hp
      left
      simp [dataWritten, ivWritten, writeIv, writeData]
    · rw [if_neg hp]
      simp only [disk_cached, dataWritten, ivWritten, writeIv,
        writeData, update_of_ne hp, hdisk]
      refine (h.buffered p (hcompleted p hp hdone)).imp_right ?_
      exact fun hmoved => ⟨hmoved.1, hmoved.2.mono (hsub p hp)⟩
  · intro p hdone hcur
    rw [htable]
    by_cases hp : p = page
    · subst hp
      simpa [dataWritten, ivWritten, writeIv, writeData,
        hbuffer] using hfirst
    · rw [if_neg hp]
      simp only [disk_cached, dataWritten, ivWritten, writeIv,
        writeData, update_of_ne hp, hdisk]
      exact (h.current p (hcompleted p hp hdone) hcur).mono (hsub p hp)

/-- A write that is interrupted after the table was written: the second
generation of a current page decrypts the old data. -/
theorem FileInv.interrupted (h : FileInv c f log current)
    (hcur : current page)
    (hprep : f.prepareWrite c page src = some (data, f')) (p : ℕ)
    (hdone : (log.begun page src).completed p = true) :
    Kept c (log.begun page src) (f'.ivWritten page).disk p := by
  obtain ⟨iv, hiv, -, hne, hdisk, -, hbuffer, -⟩ := prepareWrite_spec hprep
  have hsub : log.plaintexts p ⊆ (log.begun page src).plaintexts p := by
    by_cases hp : p = page
    · subst hp
      simp [PageLog.begun]
    · simp [PageLog.begun, update_of_ne hp]
  have hdone' : log.completed p = true := hdone
  by_cases hp : p = page
  · subst hp
    have hold := h.current p hdone' hcur
    refine ⟨?_, .inr ?_⟩
    · refine (h.kept p hdone').inFile.trans ?_
      rw [← hdisk]
      exact le_max_left _ _
    · simp only [ivWritten, writeIv, update_self, hbuffer, hdisk]
      exact ⟨hold.mono hsub, hiv, hne⟩
  · refine (h.kept p hdone').mono ?_ ?_ ?_ hsub
    · rw [← hdisk]
      exact le_max_left _ _
    · simp [ivWritten, writeIv, update_of_ne hp, hdisk]
    · simp [ivWritten, writeIv, hdisk]

omit [DecidableEq H] in
theorem FileInv.reopened
    (h : ∀ page, log.completed page = true → Kept c log disk page) :
    FileInv c ⟨disk, Cryptor.new c⟩ log fun _ => False :=
  ⟨h, fun _ _ => .inl rfl, fun _ _ hcur => hcur.elim⟩

end Invariant

end BarqSync.Storage
