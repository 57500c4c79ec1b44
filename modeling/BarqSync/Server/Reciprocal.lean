/-
The reciprocal histories of the server (`ReciprocalHistory` and
`get_history_contents` of `noinst/server/server_history.cpp`).

# Storage

Each client file has a base version and, once instantiated, a column of
transforms: entry `j` belongs to the server version `base + j + 1`. An
entry may be null, which means that no transform is stored, and the
column ends with the last version a transform was stored for.

# The accessor

A `ReciprocalHistory` keeps the base version and the size of the column
beside the column. The base version of the client file is stored by its
caller: `update_upload_progress` calls `trim` and then writes the new
base version, which is one event here.

# Failures

An operation has no result when an assertion fails, or when it reads or
writes an entry that the column does not have.
-/
import BarqSync.Instructions

namespace BarqSync.Server

/-- What the history stores of a client file, as far as reciprocal
histories and the listing of client files use it. -/
structure ClientFile where
  identSalt : ℕ := 0
  clientVersion : ℕ := 0
  rhBaseVersion : ℕ := 0
  proxyFile : ℕ := 0
  clientType : ℕ := 0
  lockedServerVersion : ℕ := 0
  /-- The column that `cf_recip_hist_refs` refers to. -/
  recipHist : Option (List (Option Bytes)) := none
deriving DecidableEq, Repr

/-- The accessor `ReciprocalHistory`. -/
structure ReciprocalHistory where
  remoteFileIndex : ℕ
  baseVersion : ℕ
  size : ℕ
  /-- `m_changesets` is there. -/
  instantiated : Bool
deriving DecidableEq, Repr

namespace ReciprocalHistory

/-- The constructor, with the stored base version. -/
def new (file : ClientFile) (remoteFileIndex : ℕ) : ReciprocalHistory where
  remoteFileIndex := remoteFileIndex
  baseVersion := file.rhBaseVersion
  size := (file.recipHist.getD []).length
  instantiated := file.recipHist.isSome

variable (h : ReciprocalHistory) (column : List (Option Bytes))

/-- `get`. -/
def get (serverVersion : ℕ) : Option (Option Bytes) :=
  if h.instantiated ∧ h.baseVersion < serverVersion then
    let i := serverVersion - h.baseVersion - 1
    if i < h.size then column[i]? else some none
  else none

/-- `set`: the column grows until it has the entry. A null transform is
stored as an empty one. -/
def set (serverVersion : ℕ) (transform : Option Bytes) :
    Option (ReciprocalHistory × List (Option Bytes)) :=
  if h.instantiated ∧ h.baseVersion < serverVersion then
    let i := serverVersion - h.baseVersion - 1
    let grown := column ++ List.replicate (i + 1 - h.size) none
    if i < grown.length then
      some ({ h with size := max h.size (i + 1) },
        grown.set i (some (transform.getD [])))
    else none
  else none

/-- The loop of `trim`: the counter when it ends, and what is left. -/
def eraseFront : ℕ → List (Option Bytes) → Option (ℕ × List (Option Bytes))
  | 0, column => some (0, column)
  | _ + 1, [] => none
  | n + 1, _ :: column => eraseFront n column

/-- `trim`. The size is lowered by the counter of the loop. -/
def trim (newBaseVersion : ℕ) :
    Option (ReciprocalHistory × List (Option Bytes)) :=
  if h.baseVersion < newBaseVersion then
    let n := newBaseVersion - h.baseVersion
    if h.size ≤ n then
      some ({ h with baseVersion := newBaseVersion, size := 0 }, [])
    else if h.instantiated then
      (eraseFront n column).map fun left =>
        ({ h with
          baseVersion := newBaseVersion
          size := h.size - left.1 }, left.2)
    else none
  else none

end ReciprocalHistory

/-- The client files, and the accessor in use. -/
structure RecipState where
  files : List ClientFile
  accessor : Option ReciprocalHistory := none
deriving DecidableEq, Repr

inductive RecipEvent
  | new (remoteFileIndex : ℕ)
  | close
  | ensureInstantiated
  | set (serverVersion : ℕ) (transform : Option Bytes)
  /-- `trim`, and the new base version stored. -/
  | trim (newBaseVersion : ℕ)
deriving DecidableEq, Repr

namespace RecipState

variable (s : RecipState)

/-- The column the accessor is attached to. -/
def column (h : ReciprocalHistory) : List (Option Bytes) :=
  ((s.files[h.remoteFileIndex]?).bind ClientFile.recipHist).getD []

/-- The accessor in use reads the transform of a version. -/
def get (serverVersion : ℕ) : Option (Option Bytes) :=
  s.accessor.bind fun h => h.get (s.column h) serverVersion

/-- The accessor has changed, and its column. -/
def write (h : ReciprocalHistory) (column : List (Option Bytes))
    (rhBaseVersion : ℕ) : RecipState where
  files := s.files.modify h.remoteFileIndex fun file =>
    { file with
      rhBaseVersion := rhBaseVersion
      recipHist :=
        if h.instantiated then some column else file.recipHist }
  accessor := some h

def step : RecipEvent → Option RecipState
  | .new i =>
    (s.files[i]?).map fun file =>
      { s with accessor := some (.new file i) }
  | .close => some { s with accessor := none }
  | .ensureInstantiated =>
    s.accessor.map fun h =>
      if h.instantiated then s
      else s.write { h with instantiated := true } [] h.baseVersion
  | .set serverVersion transform =>
    s.accessor.bind fun h =>
      (h.set (s.column h) serverVersion transform).map fun r =>
        s.write r.1 r.2 h.baseVersion
  | .trim newBaseVersion =>
    s.accessor.bind fun h =>
      (h.trim (s.column h) newBaseVersion).map fun r =>
        s.write r.1 r.2 newBaseVersion

/-- The loop of `get_history_contents` over the entries of client file
`i`. The version is computed from the index of the client file. -/
def reciprocalHistory (i : ℕ) (file : ClientFile) :
    Option (List (Option Bytes)) :=
  let h := ReciprocalHistory.new file i
  (List.range h.size).mapM fun _ =>
    h.get (file.recipHist.getD []) (file.rhBaseVersion + i + 1)

/-- `get_history_contents`: the client files and their reciprocal
histories. -/
def getHistoryContents :
    Option (List (ClientFile × List (Option Bytes))) :=
  (List.range s.files.length).mapM fun i =>
    (s.files[i]?).bind fun file =>
      (reciprocalHistory i file).map fun entries => (file, entries)

end RecipState

end BarqSync.Server
