/-
Virtual paths and the server's directory (`noinst/server/server_dir.cpp`,
`ServerImpl::get_or_create_file`): how the path a client names becomes
the file the server opens.

# Real paths

`File::resolve` is taken to append one component to a directory, so a
real path is the list of its components. A trailing slash, which is what
`real_path += '/'` adds to the root when the virtual path has no leading
one, then changes nothing, and `real_path + ".barq"` extends the last
component.

# Server files

`m_files` maps the virtual path, as the client spelled it, to the
`ServerFile` object that serves it. Objects are numbered in the order of
their creation; entries are never removed.
-/
import BarqSync.Instructions
import Mathlib.Data.List.Basic

namespace BarqSync.Server

-- ===== characters

/-- The bytes of an ASCII text. -/
def ascii (text : List Char) : Bytes :=
  text.map Char.toUInt8

/-- The separator `/`. -/
def slash : UInt8 := 47

/-- The character `"`. -/
def quote : UInt8 := 34

/-- The character `.`. -/
def dot : UInt8 := 46

/-- The suffix of every database file. -/
def barqSuffix : Bytes := ascii ['.', 'b', 'a', 'r', 'q']

/-- `CoreFileType::Lock`: appended to the database file's path. -/
def lockSuffix : Bytes := ascii ['.', 'l', 'o', 'c', 'k']

/-- `CoreFileType::Control`: appended to the database file's path. -/
def controlSuffix : Bytes :=
  ascii ['.', 'c', 'o', 'n', 't', 'r', 'o', 'l']

/-- `std::isalnum` in the classic locale. -/
def isAlnum (ch : UInt8) : Bool :=
  (48 ≤ ch && ch ≤ 57) || (65 ≤ ch && ch ≤ 90) || (97 ≤ ch && ch ≤ 122)

/-- The characters a segment may have: letters, digits and `_-."`. -/
def isSegmentChar (ch : UInt8) : Bool :=
  isAlnum ch || ch == 95 || ch == 45 || ch == dot || ch == quote

-- ===== virtual paths

/-- `valid_virt_path_segment`. -/
def validVirtPathSegment (seg : Bytes) : Bool :=
  !seg.isEmpty
    -- Prevents `.`, `..` and hidden files.
    && seg.head? != some dot
    -- Prevents clashes with the files a virtual path stands for.
    && !(barqSuffix.isSuffixOf seg
      || (barqSuffix ++ lockSuffix).isSuffixOf seg
      || (barqSuffix ++ controlSuffix).isSuffixOf seg)
    && seg.all isSegmentChar

/-- The components of a file-system path. -/
abbrev RealPath := List Bytes

/-- `File::resolve` of one component. -/
def resolve (name : Bytes) (base : RealPath) : RealPath :=
  base ++ [name]

/-- `path + suffix`: the suffix goes to the last component. -/
def RealPath.withSuffix (suffix : Bytes) : RealPath → RealPath
  | [] => [suffix]
  | [name] => [name ++ suffix]
  | name :: next :: rest => name :: withSuffix suffix (next :: rest)

/-- The segments the loops of `parse_virtual_path` and `make_dirs` visit:
one leading slash is skipped, and every other slash separates. -/
def virtSegments (virtPath : Bytes) : List Bytes :=
  (if virtPath.head? = some slash then virtPath.tail else virtPath).splitOn
    slash

/-- `segment.erase(std::remove(…, '"'), …)`. -/
def unquote (segment : Bytes) : Bytes :=
  segment.filter (· ≠ quote)

/-- The loop of `parse_virtual_path`. -/
def parseSegments : RealPath → List Bytes → Option RealPath
  | realPath, [] => some realPath
  | realPath, segment :: rest =>
    if validVirtPathSegment (unquote segment)
    then parseSegments (resolve (unquote segment) realPath) rest
    else none

/-- `parse_virtual_path`: the real path, when the virtual path is
valid. -/
def parseVirtualPath (root : RealPath) (virtPath : Bytes) :
    Option RealPath :=
  if virtPath = [] then none
  else (parseSegments root (virtSegments virtPath)).map
    (RealPath.withSuffix barqSuffix)

/-- `make_tenant_virtual_path`: the virtual path of a tenant's client
path, when both are accepted. -/
def makeTenantVirtualPath (tenantId clientPath : Bytes) : Option Bytes :=
  if validVirtPathSegment tenantId = false then none
  else if clientPath = [] then none
  else if clientPath.head? = some slash then none
  else if (parseVirtualPath [] (slash :: clientPath)).isNone then none
  else some (slash :: tenantId ++ slash :: clientPath)

-- ===== directories

/-- How `make_dirs` can fail. -/
inductive DirError
  /-- A `BARQ_ASSERT` failed. -/
  | assertion
  /-- `mkdir` in a directory that does not exist. -/
  | noSuchDirectory
deriving DecidableEq, Repr

/-- `try_make_dir`, on the directories that exist. -/
def tryMakeDir (path : RealPath) (dirs : List RealPath) :
    Except DirError (List RealPath) :=
  if path ∈ dirs then .ok dirs
  else if path.dropLast ∈ dirs then .ok (path :: dirs)
  else .error .noSuchDirectory

/-- The loop of `make_dirs` over the segments before the last. -/
def makeDirsLoop : RealPath → List Bytes → List RealPath
    → Except DirError (List RealPath)
  | _, [], dirs => .ok dirs
  | realPath, name :: rest, dirs =>
    if validVirtPathSegment name then
      match tryMakeDir (resolve name realPath) dirs with
      | .ok dirs' => makeDirsLoop (resolve name realPath) rest dirs'
      | .error e => .error e
    else .error .assertion

/-- `make_dirs`: creates the directories on the way to the file. -/
def makeDirs (root : RealPath) (virtPath : Bytes)
    (dirs : List RealPath) : Except DirError (List RealPath) :=
  if virtPath = [] then .error .assertion
  else makeDirsLoop root (virtSegments virtPath).dropLast dirs

-- ===== server files

/-- The part of `ServerImpl` that hands out server files. -/
structure Files where
  /-- `m_root_dir`. -/
  root : RealPath
  /-- The directories that exist. -/
  dirs : List RealPath
  /-- `m_files`: virtual path and number of the object, in the order of
  creation. -/
  files : List (Bytes × Nat)
deriving Repr

/-- A server that has just started. -/
def Files.start (root : RealPath) (dirs : List RealPath) : Files :=
  ⟨root, dirs, []⟩

/-- `get_file`. -/
def Files.getFile (s : Files) (virtPath : Bytes) : Option Nat :=
  s.files.lookup virtPath

/-- `get_or_create_file`. -/
def Files.getOrCreateFile (s : Files) (virtPath : Bytes) :
    Except DirError Files :=
  match s.getFile virtPath with
  | some _ => .ok s
  | none =>
    if (parseVirtualPath s.root virtPath).isNone then .error .assertion
    else
      match makeDirs s.root virtPath s.dirs with
      | .ok dirs =>
        .ok { s with
          dirs := dirs
          files := s.files ++ [(virtPath, s.files.length)] }
      | .error e => .error e

/-- The server serves one virtual path after the other. -/
def Files.serve : Files → List Bytes → Except DirError Files
  | s, [] => .ok s
  | s, virtPath :: rest =>
    match s.getOrCreateFile virtPath with
    | .ok s' => s'.serve rest
    | .error e => .error e

end BarqSync.Server
