/-
Where the pages of an encrypted file and their IV tables lie
(`encrypted_file_mapping.cpp`).

A block of the file is one page of IV tables and the 64 data pages that
they are for. Positions are signed 64-bit numbers in the source; here they
are natural numbers, and an encrypted size stays below `2 ^ 63` for every
data size up to `2 ^ 62`.

A file that ends inside a page of IV tables is taken for longer than one
that ends with it: the tables in that page are not counted as such. So
`encrypted_size_to_data_size` is monotone from every other size on only.
-/
import BarqSync.Storage.Encryption

namespace BarqSync.Storage.Layout

variable (dataPos filePos size : ℕ)

/-- `page_index`. -/
def pageIndex : ℕ := dataPos / encryptionPageSize

/-- `block_index`. -/
def blockIndex : ℕ := pageIndex dataPos / pagesPerBlock

/-- `data_pos_to_file_pos`. -/
def dataPosToFilePos : ℕ :=
  dataPos + (blockIndex dataPos + 1) * encryptionPageSize

/-- `file_pos_to_data_pos`. -/
def filePosToDataPos : ℕ :=
  let metadataPageCount :=
    (pageIndex filePos + pagesPerBlock) / (pagesPerBlock + 1)
  filePos - metadataPageCount * encryptionPageSize

/-- `iv_table_pos`. -/
def ivTablePos : ℕ :=
  let metadataIndex := pageIndex dataPos &&& (pagesPerBlock - 1)
  blockIndex dataPos * (pagesPerBlock + 1) * encryptionPageSize
    + metadataIndex * metadataSize

/-- `iv_table_block_pos`. -/
def ivTableBlockPos : ℕ :=
  blockIndex dataPos * (pagesPerBlock + 1) * encryptionPageSize

/-- `encrypted_size_to_data_size`. -/
def encryptedSizeToDataSize : ℕ :=
  if size = 0 then 0 else filePosToDataPos size

/-- `data_size_to_encrypted_size`. -/
def dataSizeToEncryptedSize : ℕ :=
  let r := size % encryptionPageSize
  dataPosToFilePos (size + if r = 0 then 0 else encryptionPageSize - r)

-- ===== pages

/-- The positions of a page are those that the rest of the model takes
from its index. -/
theorem filePos_page (page : ℕ) :
    dataPosToFilePos (page * encryptionPageSize)
        = Storage.dataPosToFilePos page
      ∧ ivTablePos (page * encryptionPageSize)
        = Storage.ivTablePos page := by
  have hindex : pageIndex (page * encryptionPageSize) = page :=
    Nat.mul_div_cancel page (by decide)
  have hmod : page &&& (pagesPerBlock - 1) = page % pagesPerBlock :=
    Nat.and_two_pow_sub_one_eq_mod page 6
  constructor
  · rw [dataPosToFilePos, blockIndex, hindex, Storage.dataPosToFilePos]
  · simp only [ivTablePos, blockIndex, hindex, hmod, Storage.ivTablePos]

/-- Two stretches of a file that have no byte in common. -/
def Apart (a b size : ℕ) : Prop := a + size ≤ b ∨ b + size ≤ a

/-- Data pages do not overlap each other or a page of IV tables. -/
theorem pages_apart (i j k : ℕ) :
    (i ≠ j → Apart (dataPosToFilePos (i * encryptionPageSize))
      (dataPosToFilePos (j * encryptionPageSize)) encryptionPageSize)
    ∧ Apart (dataPosToFilePos (i * encryptionPageSize))
      (ivTableBlockPos k) encryptionPageSize := by
  simp only [Apart, dataPosToFilePos, ivTableBlockPos, blockIndex,
    pageIndex, encryptionPageSize, pagesPerBlock, metadataSize]
  omega

/-- The IV tables of two pages do not overlap. -/
theorem tables_apart {i j : ℕ} (h : i ≠ j) :
    Apart (ivTablePos (i * encryptionPageSize))
      (ivTablePos (j * encryptionPageSize)) metadataSize := by
  rw [(filePos_page i).2, (filePos_page j).2]
  simp only [Apart, Storage.ivTablePos, encryptionPageSize, pagesPerBlock,
    metadataSize]
  omega

theorem filePosToDataPos_dataPosToFilePos (dataPos : ℕ) :
    filePosToDataPos (dataPosToFilePos dataPos) = dataPos := by
  simp only [filePosToDataPos, dataPosToFilePos, blockIndex, pageIndex,
    encryptionPageSize, pagesPerBlock, metadataSize]
  omega

-- ===== sizes

/-- The size as the number of whole pages it takes. -/
theorem dataSizeToEncryptedSize_eq (size : ℕ) :
    dataSizeToEncryptedSize size
      = dataPosToFilePos ((size + encryptionPageSize - 1)
        / encryptionPageSize * encryptionPageSize) := by
  simp only [dataSizeToEncryptedSize]
  congr 1
  split
  · simp only [encryptionPageSize] at *
    omega
  · simp only [encryptionPageSize] at *
    omega

theorem dataPosToFilePos_mono {a b : ℕ} (h : a ≤ b) :
    dataPosToFilePos a ≤ dataPosToFilePos b := by
  simp only [dataPosToFilePos, blockIndex, pageIndex, encryptionPageSize,
    pagesPerBlock, metadataSize]
  omega

/-- The size ends inside a page of IV tables. -/
def InTables : Prop :=
  pageIndex size % (pagesPerBlock + 1) = 0
    ∧ size % encryptionPageSize ≠ 0

theorem encryptedSizeToDataSize_mono {a b : ℕ} (ha : ¬ InTables a)
    (h : a ≤ b) :
    encryptedSizeToDataSize a ≤ encryptedSizeToDataSize b := by
  simp only [InTables, pageIndex, encryptionPageSize, pagesPerBlock,
    metadataSize] at ha
  simp only [encryptedSizeToDataSize, filePosToDataPos, pageIndex,
    encryptionPageSize, pagesPerBlock, metadataSize]
  split_ifs <;> omega

/-- The layout of an encrypted file: data pages and IV tables have places
of their own, positions and sizes can be converted back, and what is below
a size is in a file of the converted size. -/
theorem layout_sound (i j k size size' : ℕ) :
    (i ≠ j → Apart (dataPosToFilePos (i * encryptionPageSize))
        (dataPosToFilePos (j * encryptionPageSize)) encryptionPageSize
      ∧ Apart (ivTablePos (i * encryptionPageSize))
        (ivTablePos (j * encryptionPageSize)) metadataSize)
    ∧ Apart (dataPosToFilePos (i * encryptionPageSize))
      (ivTableBlockPos k) encryptionPageSize
    ∧ filePosToDataPos (dataPosToFilePos k) = k
    ∧ encryptedSizeToDataSize (dataSizeToEncryptedSize size)
      = (size + encryptionPageSize - 1) / encryptionPageSize
        * encryptionPageSize
    ∧ (size ≤ size' → dataSizeToEncryptedSize size
      ≤ dataSizeToEncryptedSize size')
    ∧ (size ≤ size' → ¬ InTables size → encryptedSizeToDataSize size
      ≤ encryptedSizeToDataSize size')
    ∧ (k < size → dataPosToFilePos (pageIndex k * encryptionPageSize)
        + encryptionPageSize ≤ dataSizeToEncryptedSize size
      ∧ ivTablePos k + metadataSize ≤ dataSizeToEncryptedSize size)
    ∧ (size ≤ 2 ^ 62 → dataSizeToEncryptedSize size < 2 ^ 63) := by
  refine ⟨fun h => ⟨(pages_apart i j k).1 h, tables_apart h⟩,
    (pages_apart i i k).2, filePosToDataPos_dataPosToFilePos k, ?_, ?_,
    fun hle hin => encryptedSizeToDataSize_mono hin hle, ?_, ?_⟩
  · rw [dataSizeToEncryptedSize_eq, encryptedSizeToDataSize, if_neg,
      filePosToDataPos_dataPosToFilePos]
    simp [dataPosToFilePos, encryptionPageSize]
  · intro hle
    rw [dataSizeToEncryptedSize_eq, dataSizeToEncryptedSize_eq]
    apply dataPosToFilePos_mono
    simp only [encryptionPageSize]
    omega
  · intro hk
    have hmod : pageIndex k &&& (pagesPerBlock - 1)
        = pageIndex k % pagesPerBlock :=
      Nat.and_two_pow_sub_one_eq_mod _ 6
    simp only [dataSizeToEncryptedSize_eq, ivTablePos, hmod]
    simp only [dataPosToFilePos, blockIndex, pageIndex,
      encryptionPageSize, pagesPerBlock, metadataSize]
    omega
  · intro hsize
    simp only [dataSizeToEncryptedSize_eq, dataPosToFilePos, blockIndex,
      pageIndex, encryptionPageSize, pagesPerBlock, metadataSize]
    omega

/-- A file of one page has less data than one that is a byte shorter. -/
theorem encryptedSizeToDataSize_not_mono :
    encryptedSizeToDataSize 4096 < encryptedSizeToDataSize 4095 := by
  decide

end BarqSync.Storage.Layout
