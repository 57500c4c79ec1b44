/-
An encrypted file whose process may die between any two writes to it.

# Events

The mapping layer reads pages, its callers write to the pages that they
may modify, publish them, and flush them, and other processes make the
reader recheck its IVs. A crash comes while a mapping is flushed, after
any number of the writes to the file (`steps`); with none it comes between
two calls. The file is then opened again: nothing of the memory is left.

# Ghosts

`PageLog` records which pages were written completely, and the plaintexts
of a page: the last one written completely, and those whose write was
interrupted since.
-/
import BarqSync.Storage.Encryption

namespace BarqSync.Storage

variable {H : Type} [DecidableEq H] (c : Cipher H)

/-- What was written to each page. -/
structure PageLog where
  completed : ℕ → Bool
  plaintexts : ℕ → List Page

namespace PageLog

def start : PageLog := ⟨fun _ => false, fun _ => []⟩

/-- A write that completed. -/
def finished (log : PageLog) (page : ℕ) (src : Page) : PageLog :=
  ⟨Function.update log.completed page true,
    Function.update log.plaintexts page [src]⟩

/-- A write that was interrupted. -/
def begun (log : PageLog) (page : ℕ) (src : Page) : PageLog :=
  { log with plaintexts :=
      Function.update log.plaintexts page (src :: log.plaintexts page) }

end PageLog

/-- A crash in the loop of `do_flush`, after some of its writes: what is
on disk. -/
def interruptedFlush : List Slot → ℕ → ℕ → CryptFile H → PageLog →
    Option (Disk H × PageLog)
  | [], _, _, f, log => some (f.disk, log)
  | slot :: rest, page, steps, f, log =>
    if ¬ slot.state.dirty then
      interruptedFlush rest (page + 1) steps f log
    else if steps = 0 then some (f.disk, log)
    else if steps = 1 then
      (f.prepareWrite c page slot.mem).map fun out =>
        ((out.2.ivWritten page).disk, log.begun page slot.mem)
    else
      (f.write c page slot.mem).bind fun f =>
        interruptedFlush rest (page + 1) (steps - 2) f
          (log.finished page slot.mem)

/-- The log after `flush`. -/
def flushedLog : List Slot → ℕ → PageLog → PageLog
  | [], _, log => log
  | slot :: rest, page, log =>
    flushedLog rest (page + 1)
      (if slot.state.dirty then log.finished page slot.mem else log)

/-- An encrypted file and what was written to it. -/
structure Logged (H : Type) where
  file : EncryptedFile H
  log : PageLog

namespace Logged

inductive Event
  | readBarrier (m addr size : ℕ) (toModify : Bool) (retries : ℕ → ℕ)
  | store (m page : ℕ) (offset : Fin encryptionPageSize) (byte : UInt8)
  | writeBarrier (m addr size : ℕ)
  | flush (m : ℕ)
  | markDataAsPossiblyStale
  | extendTo (m pages : ℕ)
  | set (m firstPage pages : ℕ)
  | crash (m steps : ℕ)

/-- A new file, with some mappings that cover nothing. -/
def start (mappings : ℕ) : Logged H :=
  ⟨⟨⟨Disk.empty c, Cryptor.new c⟩, List.replicate mappings {}⟩, .start⟩

/-- The file after it is opened again. -/
def reopened (s : Logged H) (disk : Disk H) (log : PageLog) : Logged H :=
  ⟨⟨⟨disk, Cryptor.new c⟩, s.file.mappings.map fun _ => {}⟩, log⟩

/-- The mapping with this number. -/
def mapping (s : Logged H) (m : ℕ) : Mapping :=
  (s.file.mappings[m]?).getD {}

def step (s : Logged H) : Event → Option (Logged H)
  | .readBarrier m addr size toModify retries =>
    (s.file.readBarrier c m addr size toModify retries).map fun out =>
      { s with file := out.1 }
  | .store m page offset byte =>
    if (s.file.slot m page).any fun slot => slot.state.writable then
      some { s with file := s.file.store m page offset byte }
    else none
  | .writeBarrier m addr size =>
    (s.file.writeBarrier m addr size).map fun file =>
      { s with file := file }
  | .flush m =>
    (s.file.flush c m).map fun file =>
      ⟨file, flushedLog (s.mapping m).slots (s.mapping m).firstPage s.log⟩
  | .markDataAsPossiblyStale =>
    s.file.markDataAsPossiblyStale.map fun file => { s with file := file }
  | .extendTo m pages => some { s with file := s.file.extendTo m pages }
  | .set m firstPage pages =>
    (s.file.set c m firstPage pages).map fun file =>
      ⟨file, flushedLog (s.mapping m).slots (s.mapping m).firstPage s.log⟩
  | .crash m steps =>
    (interruptedFlush c (s.mapping m).slots (s.mapping m).firstPage steps
      s.file.file s.log).map fun out => s.reopened c out.1 out.2

end Logged

end BarqSync.Storage
