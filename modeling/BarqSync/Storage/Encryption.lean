/-
Encrypted files (util/encrypted_file_mapping.cpp): the cryptor, with its
tables of IVs and HMACs, and the mappings of a file.

# The file

Each group of 64 data pages follows a header page with their IV tables.
An IV table has two generations: the one used to encrypt the page last,
and the one before. A page of plaintext or ciphertext is 4096 bytes; data
positions are given as page indexes.

# The cipher

AES and HMAC-SHA-224 are parameters (`Cipher`), with the two facts about
them that everything rests on: decryption inverts encryption, and no two
pages have the same HMAC.

# Failures

An operation that fails an assertion has no result. A decryption error is
thrown after parts of the operation took effect, so its text is returned
beside the state that it leaves.

# What is left out

An IV table beyond the size of the IV buffer is one whose block has not
been read. The debug validation, and the access mode of a mapping. How
often a failed read is repeated, because another process may be writing,
is a parameter.
-/
import Mathlib.Data.Fintype.Pi
import Mathlib.Logic.Function.Basic

namespace BarqSync.Storage

-- ===== pages

def encryptionPageSize : ℕ := 4096

/-- `sizeof(IVTable)`. -/
def metadataSize : ℕ := 64

def pagesPerBlock : ℕ := encryptionPageSize / metadataSize

abbrev Page := Fin encryptionPageSize → UInt8

/-- Memory that was never written to. -/
def Page.zero : Page := fun _ => 0

/-- `memcpy` of some bytes of a page. -/
def Page.copy (src dst : Page) (offset size : ℕ) : Page := fun i =>
  if offset ≤ i.1 ∧ i.1 < offset + size then src i else dst i

/-- `IVTable`. -/
structure IVTable (H : Type) where
  iv1 : UInt32
  hmac1 : H
  iv2 : UInt32
  hmac2 : H
deriving DecidableEq, Repr

/-- The encryption of pages. -/
structure Cipher (H : Type) where
  /-- The IV and the page index give the IV of the cipher. -/
  encrypt : UInt32 → ℕ → Page → Page
  decrypt : UInt32 → ℕ → Page → Page
  hmac : Page → H
  /-- An HMAC of zeros, in a table that was never written. -/
  noHmac : H
  decrypt_encrypt : ∀ iv page p, decrypt iv page (encrypt iv page p) = p
  hmac_injective : Function.Injective hmac

variable {H : Type} [DecidableEq H] (c : Cipher H)

def Cipher.noTable : IVTable H := ⟨0, c.noHmac, 0, c.noHmac⟩

variable (page : ℕ) (mode : IVLookupMode)

/-- `data_pos_to_file_pos`. -/
def dataPosToFilePos : ℕ :=
  page * encryptionPageSize
    + (page / pagesPerBlock + 1) * encryptionPageSize

/-- `iv_table_pos`. -/
def ivTablePos : ℕ :=
  page / pagesPerBlock * (pagesPerBlock + 1) * encryptionPageSize
    + page % pagesPerBlock * metadataSize

/-- What is on disk. Space that was never written to reads as zeros. -/
structure Disk (H : Type) where
  ivs : ℕ → IVTable H
  data : ℕ → Page
  size : ℕ

namespace Disk

variable (disk : Disk H)

/-- An empty file. -/
def empty : Disk H := ⟨fun _ => c.noTable, fun _ => Page.zero, 0⟩

/-- The first write of `AESCryptor::write`. -/
def writeIv (iv : IVTable H) : Disk H :=
  { disk with
    ivs := Function.update disk.ivs page iv
    size := max disk.size (ivTablePos page + metadataSize) }

/-- The second write of `AESCryptor::write`. -/
def writeData (data : Page) : Disk H :=
  { disk with
    data := Function.update disk.data page data
    size := max disk.size (dataPosToFilePos page + encryptionPageSize) }

end Disk

-- ===== the cryptor

/-- `AESCryptor`. -/
structure Cryptor (H : Type) where
  /-- `m_iv_buffer`. -/
  ivBuffer : ℕ → IVTable H
  /-- `m_iv_buffer_cache`. -/
  ivBufferCache : ℕ → IVTable H
  /-- `m_iv_blocks_read`. -/
  ivBlocksRead : ℕ → Bool
  /-- The capacity of `m_iv_buffer`. -/
  capacity : ℕ

def Cryptor.new : Cryptor H :=
  ⟨fun _ => c.noTable, fun _ => c.noTable, fun _ => false, 0⟩

inductive IVLookupMode
  | useCache
  | refetch
deriving DecidableEq, Repr

inductive ReadResult
  | eof
  | uninitialized
  | interruptedFirstWrite
  | staleHmac
  | failed
  | success
deriving DecidableEq, Repr

/-- The cryptor with its file. -/
structure CryptFile (H : Type) where
  disk : Disk H
  cryptor : Cryptor H

namespace CryptFile

variable (f : CryptFile H)

/-- `set_data_size`, in pages. -/
def setDataSize (pages : ℕ) : CryptFile H :=
  { f with
    cryptor := { f.cryptor with
      capacity := max f.cryptor.capacity
        ((pages + pagesPerBlock - 1) / pagesPerBlock * pagesPerBlock) } }

/-- `read_iv_block`: the tables of all pages of the block. -/
def readIvBlock : CryptFile H :=
  { f with
    cryptor := { f.cryptor with
      ivBuffer := fun i =>
        if i / pagesPerBlock = page / pagesPerBlock then f.disk.ivs i
        else f.cryptor.ivBuffer i
      ivBlocksRead := Function.update f.cryptor.ivBlocksRead
        (page / pagesPerBlock) true } }

/-- The table of the page in the buffer, after a read of its block if that
is needed. -/
def lookedUp : CryptFile H :=
  if mode ≠ .useCache ∨ ¬ f.cryptor.ivBlocksRead (page / pagesPerBlock) then
    f.readIvBlock page
  else f

/-- `m_iv_buffer_cache[idx] = m_iv_buffer[idx]`. -/
def cached : CryptFile H :=
  { f with
    cryptor := { f.cryptor with
      ivBufferCache := Function.update f.cryptor.ivBufferCache page
        (f.cryptor.ivBuffer page) } }

def setTable (iv : IVTable H) : CryptFile H :=
  { f with
    cryptor := { f.cryptor with
      ivBuffer := Function.update f.cryptor.ivBuffer page iv } }

/-- `get_iv_table`. -/
def getIvTable : Option (CryptFile H) :=
  if f.cryptor.capacity ≤ page then none
  else some ((f.lookedUp page mode).cached page)

/-- `refresh_iv`. -/
def refreshIv : Option (Bool × CryptFile H) :=
  if f.cryptor.capacity ≤ page then none
  else
    let f := f.lookedUp page .useCache
    if f.cryptor.ivBuffer page ≠ f.cryptor.ivBufferCache page then
      some (true, f.cached page)
    else some (false, f)

/-- `invalidate_ivs`. -/
def invalidateIvs : CryptFile H :=
  { f with cryptor := { f.cryptor with ivBlocksRead := fun _ => false } }

/-- `memcpy(&iv.iv1, &iv.iv2, 32)`. -/
def unbumped (iv : IVTable H) : IVTable H :=
  { iv with iv1 := iv.iv2, hmac1 := iv.hmac2 }

/-- `attempt_read`, once the table of the page is in the buffer. -/
def decryptPage (dst : Page) : ReadResult × Page × CryptFile H :=
  let iv := f.cryptor.ivBuffer page
  let data := f.disk.data page
  if iv.iv1 = 0 then (.uninitialized, dst, f)
  else if f.disk.size < dataPosToFilePos page + encryptionPageSize then
    (.eof, dst, f)
  else if c.hmac data = iv.hmac1 then
    (.success, c.decrypt iv.iv1 page data, f)
  -- either the file is corrupted, or a write was interrupted
  else if iv.iv2 = 0 then (.interruptedFirstWrite, dst, f)
  else if c.hmac data = iv.hmac2 then
    (.success, c.decrypt iv.iv2 page data, f.setTable page (unbumped iv))
  else if data = Page.zero then (.staleHmac, dst, f)
  else (.failed, dst, f)

/-- `attempt_read`. -/
def attemptRead (dst : Page) : Option (ReadResult × Page × CryptFile H) :=
  (f.getIvTable page mode).map fun f => f.decryptPage c page dst

/-- Results that are not tried again. -/
def ReadResult.final (r : ReadResult) : Bool :=
  r = .success ∨ r = .eof ∨ r = .uninitialized

/-- The loop of `read`, from the second attempt on. -/
def reread (page : ℕ) : ℕ → ReadResult × Page × CryptFile H →
    Option (ReadResult × Page × CryptFile H)
  | 0, last => some last
  | retries + 1, last =>
    if ReadResult.final last.1 then some last
    else (last.2.2.attemptRead c page .refetch last.2.1).bind
      (reread page retries)

/-- `read`. -/
def read (page retries : ℕ) (dst : Page) :
    Option (ReadResult × Page × CryptFile H) :=
  (f.attemptRead c page .useCache dst).bind (reread c page retries)

/-- The loop of `write`: the first IV whose ciphertext has another HMAC.
There are fewer than `2^32` IVs. -/
def encryptLoop (page : ℕ) (src : Page) (hmac2 : H) :
    ℕ → UInt32 → Option (UInt32 × Page)
  | 0, _ => none
  | fuel + 1, iv1 =>
    -- 0 is reserved for a page that was never written
    let iv1 := if iv1 + 1 = 0 then 1 else iv1 + 1
    let data := c.encrypt iv1 page src
    if c.hmac data = hmac2 then encryptLoop page src hmac2 fuel iv1
    else some (iv1, data)

/-- `write`, before the file is written to: the ciphertext, and the new
table in the buffer. -/
def prepareWrite (src : Page) : Option (Page × CryptFile H) :=
  (f.getIvTable page .useCache).bind fun f =>
    let iv := f.cryptor.ivBuffer page
    (encryptLoop c page src iv.hmac1 (2 ^ 32) iv.iv1).map fun out =>
      (out.2, f.setTable page ⟨out.1, c.hmac out.2, iv.iv1, iv.hmac1⟩)

/-- The file after the first write of `write`. -/
def ivWritten : CryptFile H :=
  { f with disk := f.disk.writeIv page (f.cryptor.ivBuffer page) }

/-- The file after the second. -/
def dataWritten (data : Page) : CryptFile H :=
  { f with disk := f.disk.writeData page data }

/-- `write`. -/
def write (src : Page) : Option (CryptFile H) :=
  (f.prepareWrite c page src).map fun out =>
    ((out.2.ivWritten page).dataWritten page out.1).cached page

end CryptFile

-- ===== the mappings

/-- `PageState`. -/
structure PageState where
  upToDate : Bool := false
  staleIV : Bool := false
  writable : Bool := false
  dirty : Bool := false
deriving DecidableEq, Repr

/-- A page of a mapping: its state and its memory. -/
structure Slot where
  state : PageState := {}
  mem : Page := Page.zero

/-- `EncryptedFileMapping`. -/
structure Mapping where
  firstPage : ℕ := 0
  slots : List Slot := []

namespace Mapping

/-- The slot of a page of the file. -/
def slotAt (m : Mapping) (page : ℕ) : Option Slot :=
  if m.firstPage ≤ page then m.slots[page - m.firstPage]? else none

/-- A change of the slot of a page of the file, if there is one. -/
def modifyAt (m : Mapping) (page : ℕ) (change : Slot → Slot) : Mapping :=
  if m.firstPage ≤ page then
    { m with slots := m.slots.modify (page - m.firstPage) change }
  else m

end Mapping

/-- `EncryptedFile`. -/
structure EncryptedFile (H : Type) where
  file : CryptFile H
  mappings : List Mapping

namespace EncryptedFile

variable (s : EncryptedFile H)

/-- The slot of a page of the file in a mapping. -/
def slot (m page : ℕ) : Option Slot :=
  s.mappings[m]?.bind fun mapping => mapping.slotAt page

def modifySlot (m page : ℕ) (change : Slot → Slot) : EncryptedFile H :=
  { s with mappings := s.mappings.modify m (·.modifyAt page change) }

/-- A change of the slots of a page in all mappings. -/
def modifySlots (change : ℕ → Slot → Slot) : EncryptedFile H :=
  { s with mappings := s.mappings.mapIdx fun m mapping =>
      mapping.modifyAt page (change m) }

/-- The search of `copy_up_to_date_page` in the other mappings. -/
def upToDateCopy (m page : ℕ) : Option Page :=
  s.mappings.zipIdx.findSome? fun other =>
    if other.2 = m then none
    else (other.1.slotAt page).bind fun slot =>
      if slot.state.writable || !slot.state.upToDate then none
      else some slot.mem

/-- `copy_up_to_date_page`, of a copy that was found. -/
def copied (m page : ℕ) (mem : Page) : EncryptedFile H :=
  s.modifySlot m page fun slot =>
    ⟨{ slot.state with upToDate := true, staleIV := false }, mem⟩

/-- What `check_possibly_stale_page` does to the slots of the page. -/
def checkedSlot (didChange : Bool) (slot : Slot) : Slot :=
  if slot.state.staleIV then
    { slot with state := { slot.state with
        staleIV := false, upToDate := !didChange || slot.state.upToDate } }
  else slot

/-- `check_possibly_stale_page`: whether the page has not changed. -/
def checkPossiblyStalePage (m page : ℕ) :
    Option (Bool × EncryptedFile H) :=
  if (s.slot m page).any fun slot => slot.state.staleIV then
    (s.file.refreshIv page).bind fun out =>
      if s.mappings.any fun mapping => (mapping.slotAt page).any fun slot =>
          slot.state.staleIV && slot.state.upToDate then none
      else
        some (!out.1, { s with file := out.2 }.modifySlots page
          fun _ => checkedSlot out.1)
  else some (false, s)

/-- The text after which `refresh_page` gives up. -/
def decryptionError (toModify : Bool) : ReadResult → Option String
  | .eof => if toModify then none else some "is out of bounds"
  | .uninitialized =>
    if toModify then none else some "has never been written to"
  | .interruptedFirstWrite =>
    if toModify then none
    else some "has never been successfully written to, but a write was begun"
  | .staleHmac => none
  | .failed => some ("failed the HMAC check. Either the encryption key is "
      ++ "incorrect or data is corrupted")
  | .success => none

/-- `throw_decryption_error`. -/
def throwDecryptionError (msg : String) : String :=
  let size := s.file.disk.size
  s!"page {page} in file of size {size} {msg}"

/-- The read of a page from the file at the end of `refresh_page`. -/
def readPage (m page retries : ℕ) (toModify : Bool) :
    Option (EncryptedFile H × Option String) :=
  (s.slot m page).bind fun slot =>
    (s.file.read c page retries slot.mem).map fun out =>
      let s := { s with file := out.2.2 }.modifySlot m page
        fun slot => { slot with mem := out.2.1 }
      (decryptionError toModify out.1).elim
        (s.modifySlot m page fun slot =>
          { slot with state := { slot.state with upToDate := true } }, none)
        fun msg => (s, some (s.throwDecryptionError page msg))

/-- `refresh_page`. -/
def refreshPage (m page retries : ℕ) (toModify : Bool) :
    Option (EncryptedFile H × Option String) :=
  (s.slot m page).bind fun slot =>
    if slot.state.dirty || slot.state.writable || slot.state.upToDate then
      none
    else
      (s.upToDateCopy m page).elim
        ((s.checkPossiblyStalePage m page).bind fun out =>
          if out.1 then some (out.2, none)
          else out.2.readPage c m page retries toModify)
        fun mem => some (s.copied m page mem, none)

/-- One page of `read_barrier`. -/
def readBarrierPage (m page retries : ℕ) (toModify : Bool) :
    Option (EncryptedFile H × Option String) :=
  (s.slot m page).bind fun slot =>
    (if ¬ slot.state.upToDate then s.refreshPage c m page retries toModify
      else some (s, none)).map fun out =>
        if toModify && out.2.isNone then
          (out.1.modifySlot m page fun slot =>
            { slot with state := { slot.state with writable := true } },
            none)
        else out

/-- The loop of `read_barrier` over the next pages, with the number of
retries of each. -/
def readBarrierPages (m : ℕ) (toModify : Bool) :
    ℕ → List ℕ → EncryptedFile H → Option (EncryptedFile H × Option String)
  | _, [], s => some (s, none)
  | page, retries :: rest, s =>
    (s.readBarrierPage c m page retries toModify).bind fun out =>
      if out.2.isSome then some out
      else readBarrierPages m toModify (page + 1) rest out.1

/-- The pages of the file that some bytes of a mapping are on, as the
first one and their number. -/
def span (m addr size : ℕ) : ℕ × ℕ :=
  let first := ((s.mappings[m]?).getD {}).firstPage
  (first + addr / encryptionPageSize,
    (addr + size - 1) / encryptionPageSize + 1 - addr / encryptionPageSize)

/-- `read_barrier`. -/
def readBarrier (m addr size : ℕ) (toModify : Bool) (retries : ℕ → ℕ) :
    Option (EncryptedFile H × Option String) :=
  if size = 0 then none
  else
    let pages := s.span m addr size
    readBarrierPages c m toModify pages.1
      ((List.range pages.2).map retries) s

/-- What `write_and_update_all` does to the slots of the page. -/
def updatedSlot (m offset size : ℕ) (src : Page) (other : ℕ)
    (slot : Slot) : Slot :=
  if other = m then
    { slot with state := { slot.state with
        dirty := true, writable := false } }
  else if slot.state.upToDate then
    { slot with mem := src.copy slot.mem offset size }
  -- other parts of a possibly stale page may be out of date
  else if slot.state.staleIV then
    ⟨{ slot.state with upToDate := true, staleIV := false }, src⟩
  else slot

/-- `write_and_update_all`. -/
def writeAndUpdateAll (m page offset size : ℕ) :
    Option (EncryptedFile H) :=
  (s.slot m page).bind fun slot =>
    if ¬ slot.state.writable ∨ ¬ slot.state.upToDate
        ∨ slot.state.staleIV ∨ encryptionPageSize < offset + size then none
    else some (s.modifySlots page (updatedSlot m offset size slot.mem))

/-- The loop of `write_barrier`; `size` counts from the start of the page
and is at most the fuel. -/
def writeBarrierPages (m : ℕ) : ℕ → ℕ → ℕ → ℕ → EncryptedFile H →
    Option (EncryptedFile H)
  | 0, _, _, _, s => some s
  | fuel + 1, page, offset, size, s =>
    if size = 0 then some s
    else
      let bytes := min encryptionPageSize size - offset
      (s.writeAndUpdateAll m page offset bytes).bind
        (writeBarrierPages m fuel (page + 1) 0 (size - (offset + bytes)))

/-- `write_barrier`. -/
def writeBarrier (m addr size : ℕ) : Option (EncryptedFile H) :=
  if size = 0 then none
  else
    let offset := addr % encryptionPageSize
    writeBarrierPages m (size + offset) (s.span m addr size).1 offset
      (size + offset) s

/-- One page of `do_flush`. -/
def flushPage (m page : ℕ) : Option (EncryptedFile H) :=
  (s.slot m page).bind fun slot =>
    if ¬ slot.state.dirty then some s
    else (s.file.write c page slot.mem).map fun file =>
      { s with file := file }.modifySlot m page fun slot =>
        { slot with state := { slot.state with dirty := false } }

/-- The loop of `do_flush`. -/
def flushPages (m : ℕ) : ℕ → ℕ → EncryptedFile H → Option (EncryptedFile H)
  | 0, _, s => some s
  | count + 1, page, s =>
    (s.flushPage c m page).bind (flushPages m count (page + 1))

/-- `flush`. -/
def flush (m : ℕ) : Option (EncryptedFile H) :=
  s.mappings[m]?.bind fun mapping =>
    flushPages c m mapping.slots.length mapping.firstPage s

/-- What `mark_pages_for_iv_check` does to a slot. -/
def markedSlot (slot : Slot) : Slot :=
  if slot.state.upToDate && !slot.state.dirty && !slot.state.writable then
    { slot with state := { slot.state with
        upToDate := false, staleIV := true } }
  else slot

/-- `mark_data_as_possibly_stale`. -/
def markDataAsPossiblyStale : Option (EncryptedFile H) :=
  if s.mappings.any fun mapping => mapping.slots.any fun slot =>
      slot.state.upToDate && !slot.state.dirty && !slot.state.writable
        && slot.state.staleIV then none
  else some
    { file := s.file.invalidateIvs
      mappings := s.mappings.map fun mapping =>
        { mapping with slots := mapping.slots.map markedSlot } }

/-- `extend_to`, in pages, in fresh memory. -/
def extendTo (m pages : ℕ) : EncryptedFile H :=
  let first := ((s.mappings[m]?).getD {}).firstPage
  { file := s.file.setDataSize (first + pages)
    mappings := s.mappings.modify m fun mapping =>
      { mapping with slots := mapping.slots.take pages
          ++ List.replicate (pages - mapping.slots.length) {} } }

/-- `set`, in pages, to fresh memory. -/
def set (m firstPage pages : ℕ) : Option (EncryptedFile H) :=
  (flush c { s with file := s.file.setDataSize (firstPage + pages) } m).map
    fun out => ⟨out.file,
      out.mappings.set m ⟨firstPage, List.replicate pages {}⟩⟩

/-- The caller writes to the memory of a page. -/
def store (m page : ℕ) (offset : Fin encryptionPageSize) (byte : UInt8) :
    EncryptedFile H :=
  s.modifySlot m page fun slot =>
    { slot with mem := Function.update slot.mem offset byte }

end EncryptedFile

end BarqSync.Storage
