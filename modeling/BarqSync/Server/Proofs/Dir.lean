/-
What a virtual path stands for: which real path, which directories and
which server file, and when two virtual paths, or two tenants, are kept
apart.

# Quotes and leading slashes

`parse_virtual_path` removes every `"` from a segment before it looks at
it, and treats a path without a leading slash as one with. Neither
`make_dirs` nor the key of `m_files` does: both work on the path as it
was spelled. All that can go wrong goes wrong there, and the module says
exactly when.
-/
import BarqSync.Server.Dir
import Mathlib.Data.List.Nodup

namespace BarqSync.Server

open Files

variable {s s' : Files} {virtPath p clientPath q tenantId seg : Bytes}
  {root rp base realPath rq : RealPath} {dirs : List RealPath}
  {paths : List Bytes}

-- ===== segments

/-- What a valid segment is. -/
theorem validVirtPathSegment_iff (seg : Bytes) :
    validVirtPathSegment seg = true
      ↔ seg ≠ [] ∧ seg.head? ≠ some dot
        ∧ (¬barqSuffix <:+ seg ∧ ¬(barqSuffix ++ lockSuffix) <:+ seg
          ∧ ¬(barqSuffix ++ controlSuffix) <:+ seg)
        ∧ ∀ ch ∈ seg, isSegmentChar ch = true := by
  unfold validVirtPathSegment
  simp only [Bool.and_eq_true, Bool.not_eq_true', List.isEmpty_eq_false_iff,
    bne_iff_ne, Bool.or_eq_false_iff, List.all_eq_true, and_assoc]
  simp only [← Bool.not_eq_true, List.isSuffixOf_iff_suffix]

/-- Removing the quotes of a valid name that has them removed anyway
cannot have made it valid: `parse_virtual_path` accepts fewer names than
the assertion in `make_dirs`. -/
theorem validVirtPathSegment_of_unquote
    (h : validVirtPathSegment (unquote seg) = true) :
    validVirtPathSegment seg = true := by
  rw [validVirtPathSegment_iff] at h ⊢
  obtain ⟨hne, hhead, ⟨hbarq, hlock, hcontrol⟩, hchars⟩ := h
  -- A suffix without quotes survives the removal.
  have hsuffix : ∀ sfx : Bytes, unquote sfx = sfx
      → ¬sfx <:+ unquote seg → ¬sfx <:+ seg := by
    intro sfx hsfx hnot hmem
    apply hnot
    rw [← hsfx]
    exact hmem.filter _
  refine ⟨?_, ?_, ⟨hsuffix _ (by decide) hbarq,
    hsuffix _ (by decide) hlock, hsuffix _ (by decide) hcontrol⟩, ?_⟩
  · rintro rfl
    exact hne rfl
  · intro hdot
    apply hhead
    cases seg with
    | nil => cases hdot
    | cons ch rest =>
      cases hdot
      rfl
  · intro ch hch
    by_cases hq : ch = quote
    · subst hq
      decide
    · exact hchars ch (List.mem_filter.2 ⟨hch, by simpa using hq⟩)

/-- A proper name of a directory entry. -/
structure IsName (name : Bytes) : Prop where
  ne_nil : name ≠ []
  ne_dot : name ≠ [dot]
  ne_dotdot : name ≠ [dot, dot]
  slash_not_mem : slash ∉ name

/-- A valid segment is a proper name, and stays one with any suffix that
has no slash. -/
theorem isName_append (h : validVirtPathSegment seg = true)
    {suffix : Bytes} (hs : slash ∉ suffix) : IsName (seg ++ suffix) := by
  rw [validVirtPathSegment_iff] at h
  obtain ⟨hne, hhead, -, hchars⟩ := h
  obtain ⟨ch, rest, rfl⟩ := List.exists_cons_of_ne_nil hne
  have hdot : ch ≠ dot := fun heq => hhead (congrArg some heq)
  refine ⟨by simp, ?_, ?_, ?_⟩
  · intro heq
    exact hdot (List.cons.inj heq).1
  · intro heq
    exact hdot (List.cons.inj heq).1
  · intro hmem
    rcases List.mem_append.1 hmem with hmem | hmem
    · exact absurd (hchars _ hmem) (by decide)
    · exact hs hmem

-- ===== real paths

/-- A suffix goes to the last component. -/
theorem withSuffix_concat (suffix : Bytes) (dir : RealPath)
    (name : Bytes) :
    RealPath.withSuffix suffix (dir ++ [name])
      = dir ++ [name ++ suffix] := by
  induction dir with
  | nil => rfl
  | cons d dir ih =>
    cases dir with
    | nil => rfl
    | cons d' dir => exact congrArg (d :: ·) ih

/-- The loop appends the segments without their quotes, if each of them
is then valid. -/
theorem parseSegments_eq_some {segs : List Bytes} {path : RealPath} :
    parseSegments root segs = some path
      ↔ (∀ seg ∈ segs, validVirtPathSegment (unquote seg) = true)
        ∧ path = root ++ segs.map unquote := by
  induction segs generalizing root with
  | nil =>
    unfold parseSegments
    simp [eq_comm (a := path)]
  | cons seg segs ih =>
    unfold parseSegments
    split
    · rename_i hvalid
      rw [ih]
      simp [resolve, hvalid]
    · rename_i hvalid
      simp [hvalid]

/-- An accepted virtual path: the directories on its way, its last
segment and the real path they make. -/
structure Accepted (root : RealPath) (virtPath : Bytes)
    (dirs : List Bytes) (last : Bytes) (realPath : RealPath) : Prop where
  ne_nil : virtPath ≠ []
  segments : virtSegments virtPath = dirs ++ [last]
  valid : ∀ seg ∈ dirs ++ [last], validVirtPathSegment (unquote seg) = true
  real_eq : realPath
    = root ++ (dirs.map unquote ++ [unquote last ++ barqSuffix])

/-- What `parse_virtual_path` accepts, and what it answers. -/
theorem accepted_of_parse
    (h : parseVirtualPath root virtPath = some realPath) :
    ∃ dirs last, Accepted root virtPath dirs last realPath := by
  unfold parseVirtualPath at h
  split at h
  · cases h
  · rename_i hne
    obtain ⟨path, hpath, rfl⟩ := Option.map_eq_some_iff.1 h
    rw [parseSegments_eq_some] at hpath
    obtain ⟨hvalid, rfl⟩ := hpath
    have hsegs : virtSegments virtPath ≠ [] := List.splitOn_ne_nil _ _
    obtain ⟨dirs, last, hsegs⟩ :=
      (List.eq_nil_or_concat' _).resolve_left hsegs
    rw [hsegs] at hvalid
    refine ⟨dirs, last, hne, hsegs, hvalid, ?_⟩
    rw [hsegs, List.map_append, ← List.append_assoc, List.map_singleton,
      withSuffix_concat, List.append_assoc]

section Accepted

variable {root : RealPath} {p q : Bytes} {dirs dirs' : List Bytes}
  {last last' : Bytes} {rp rq : RealPath} {name : Bytes}

section

variable (h : Accepted root p dirs last rp)

include h

theorem Accepted.dirs_valid (hseg : seg ∈ dirs) :
    validVirtPathSegment (unquote seg) = true :=
  h.valid seg (List.mem_append_left _ hseg)

theorem Accepted.last_valid : validVirtPathSegment (unquote last) = true :=
  h.valid last (List.mem_append_right _ (List.mem_singleton_self _))

/-- The directory of the real path. -/
theorem Accepted.dropLast_eq : rp.dropLast = root ++ dirs.map unquote := by
  rw [h.real_eq, ← List.append_assoc, List.dropLast_concat]

/-- Every component below the root is a proper name. -/
theorem Accepted.isName
    (hname : name ∈ dirs.map unquote ++ [unquote last ++ barqSuffix]) :
    IsName name := by
  rcases List.mem_append.1 hname with hname | hname
  · obtain ⟨seg, hseg, rfl⟩ := List.mem_map.1 hname
    rw [← List.append_nil (unquote seg)]
    exact isName_append (h.dirs_valid hseg) List.not_mem_nil
  · rw [List.mem_singleton.1 hname]
    exact isName_append h.last_valid (by decide)

/-- No directory on the way has the name of a file that a virtual path
stands for. -/
theorem Accepted.dir_ne (name : Bytes) :
    name ++ barqSuffix ∉ dirs.map unquote
      ∧ name ++ (barqSuffix ++ lockSuffix) ∉ dirs.map unquote
      ∧ name ++ (barqSuffix ++ controlSuffix) ∉ dirs.map unquote := by
  have hnot : ∀ sfx ∈ [barqSuffix, barqSuffix ++ lockSuffix,
      barqSuffix ++ controlSuffix], name ++ sfx ∉ dirs.map unquote := by
    intro sfx hsfx hmem
    obtain ⟨seg, hseg, heq⟩ := List.mem_map.1 hmem
    have hvalid := h.dirs_valid hseg
    rw [heq, validVirtPathSegment_iff] at hvalid
    obtain ⟨-, -, ⟨hbarq, hlock, hcontrol⟩, -⟩ := hvalid
    have hsuffix : sfx <:+ name ++ sfx := List.suffix_append _ _
    simp only [List.mem_cons, List.not_mem_nil, or_false] at hsfx
    rcases hsfx with rfl | rfl | rfl
    · exact hbarq hsuffix
    · exact hlock hsuffix
    · exact hcontrol hsuffix
  exact ⟨hnot _ (by simp), hnot _ (by simp), hnot _ (by simp)⟩

/-- A path below the root that leads to a directory on the way to `p`
ends in the name of one. -/
theorem Accepted.mem_of_prefix {names : List Bytes}
    (hpre : root ++ (names ++ [name]) <+: rp.dropLast) :
    name ∈ dirs.map unquote := by
  rw [h.dropLast_eq, List.prefix_append_right_inj] at hpre
  exact hpre.subset (List.mem_append_right _ (List.mem_singleton_self _))

end

end Accepted

-- ===== two spellings

/-- A virtual path without its leading slash and its quotes. -/
def spelling (virtPath : Bytes) : Bytes :=
  unquote (if virtPath.head? = some slash then virtPath.tail else virtPath)

/-- Splitting commutes with the removal of other characters. -/
theorem splitOn_filter {α : Type*} [DecidableEq α] {sep : α}
    {keep : α → Bool} (hsep : keep sep = true) (xs : List α) :
    (xs.filter keep).splitOn sep
      = (xs.splitOn sep).map (List.filter keep) := by
  induction xs with
  | nil => rfl
  | cons x xs ih =>
    rw [List.splitOn_cons_eq_if_modifyHead]
    by_cases hx : x = sep
    · subst hx
      rw [List.filter_cons_of_pos hsep,
        List.splitOn_cons_eq_if_modifyHead, ih]
      simp
    · rw [if_neg (by simpa using hx)]
      obtain ⟨y, ys, hys⟩ :=
        List.exists_cons_of_ne_nil (List.splitOn_ne_nil sep xs)
      by_cases hkeep : keep x = true
      · rw [List.filter_cons_of_pos hkeep,
          List.splitOn_cons_eq_if_modifyHead, ih,
          if_neg (by simpa using hx), hys]
        simp [hkeep]
      · rw [List.filter_cons_of_neg hkeep, ih, hys]
        simp [hkeep]

/-- The segments of a spelling are the segments without their quotes. -/
theorem splitOn_spelling (virtPath : Bytes) :
    (spelling virtPath).splitOn slash
      = (virtSegments virtPath).map unquote :=
  splitOn_filter (by decide) _

/-- Two accepted paths stand for one real path exactly when they are two
spellings of one path. -/
theorem Accepted.real_eq_iff {dirs dirs' : List Bytes}
    {last last' : Bytes} (h : Accepted root p dirs last rp)
    (h' : Accepted root q dirs' last' rq) :
    rp = rq ↔ spelling p = spelling q := by
  have hsplit : rp = rq
      ↔ (virtSegments p).map unquote = (virtSegments q).map unquote := by
    rw [h.real_eq, h'.real_eq, h.segments, h'.segments]
    simp only [List.map_append, List.map_singleton, List.append_right_inj,
      List.append_singleton_inj, List.append_left_inj]
  rw [hsplit, ← splitOn_spelling, ← splitOn_spelling]
  constructor
  · intro heq
    have hp := @List.intercalate_splitOn _ (spelling p) _ _ slash
    rw [heq, List.intercalate_splitOn] at hp
    exact hp.symm
  · intro heq
    rw [heq]

-- ===== directories

/-- `try_make_dir` below a directory that exists. -/
theorem tryMakeDir_of_mem (hbase : base ∈ dirs) (name : Bytes) :
    ∃ dirs', tryMakeDir (resolve name base) dirs = .ok dirs'
      ∧ ∀ x, x ∈ dirs' ↔ x ∈ dirs ∨ x = base ++ [name] := by
  unfold tryMakeDir resolve
  by_cases hmem : base ++ [name] ∈ dirs
  · rw [if_pos hmem]
    refine ⟨dirs, rfl, fun x => ⟨Or.inl, ?_⟩⟩
    rintro (hx | rfl)
    · exact hx
    · exact hmem
  · rw [if_neg hmem, List.dropLast_concat, if_pos hbase]
    refine ⟨_, rfl, fun x => ?_⟩
    rw [List.mem_cons, or_comm]

/-- Over valid names the loop creates every directory on its way, and
nothing else. -/
theorem makeDirsLoop_ok {names : List Bytes}
    (hvalid : ∀ name ∈ names, validVirtPathSegment name = true)
    (hbase : base ∈ dirs) :
    ∃ dirs', makeDirsLoop base names dirs = .ok dirs'
      ∧ ∀ x, x ∈ dirs' ↔ x ∈ dirs ∨ ∃ ns, ns <+: names
        ∧ x = base ++ ns := by
  induction names generalizing base dirs with
  | nil =>
    refine ⟨dirs, rfl, fun x => ⟨Or.inl, ?_⟩⟩
    rintro (hx | ⟨ns, hns, rfl⟩)
    · exact hx
    · rw [List.prefix_nil.1 hns, List.append_nil]
      exact hbase
  | cons name names ih =>
    obtain ⟨dirs1, hmake, hmem1⟩ := tryMakeDir_of_mem hbase name
    have hnext : resolve name base ∈ dirs1 := (hmem1 _).2 (.inr rfl)
    obtain ⟨dirs2, hloop, hmem2⟩ :=
      ih (fun n hn => hvalid n (List.mem_cons_of_mem _ hn)) hnext
    refine ⟨dirs2, ?_, fun x => ?_⟩
    · unfold makeDirsLoop
      rw [if_pos (hvalid name List.mem_cons_self), hmake]
      exact hloop
    · rw [hmem2, hmem1]
      constructor
      · rintro ((hx | rfl) | ⟨ns, hns, rfl⟩)
        · exact .inl hx
        · exact .inr ⟨[name], by simp, rfl⟩
        · refine .inr ⟨name :: ns, ?_, by simp [resolve]⟩
          exact List.cons_prefix_cons.2 ⟨rfl, hns⟩
      · rintro (hx | ⟨ns, hns, rfl⟩)
        · exact .inl (.inl hx)
        · cases ns with
          | nil => exact .inl (.inl (by rwa [List.append_nil]))
          | cons n ns =>
            obtain ⟨rfl, hns'⟩ := List.cons_prefix_cons.1 hns
            exact .inr ⟨ns, hns', by simp [resolve]⟩

/-- A segment loses nothing when it has no quote. -/
theorem unquote_eq_self_iff (seg : Bytes) :
    unquote seg = seg ↔ quote ∉ seg := by
  unfold unquote
  rw [List.filter_eq_self]
  constructor
  · intro h hmem
    simpa using h _ hmem
  · intro h ch hch
    rw [decide_eq_true_eq]
    exact fun heq => h (heq ▸ hch)

theorem map_unquote_eq_self_iff (dirs : List Bytes) :
    dirs.map unquote = dirs ↔ ∀ dir ∈ dirs, quote ∉ dir := by
  have hinj := @List.map_inj_left _ _ dirs unquote id
  rw [List.map_id] at hinj
  rw [hinj]
  exact forall₂_congr fun dir _ => unquote_eq_self_iff dir

section MakeDirs

variable {root : RealPath} {p : Bytes} {dirs : List Bytes} {last : Bytes}
  {rp : RealPath} {existing : List RealPath}

/-- `make_dirs` on an accepted path creates the directories as they were
spelled. -/
theorem Accepted.makeDirs_ok (h : Accepted root p dirs last rp)
    (hroot : root ∈ existing) :
    ∃ after, makeDirs root p existing = .ok after
      ∧ ∀ x, x ∈ after ↔ x ∈ existing
        ∨ ∃ ns, ns <+: dirs ∧ x = root ++ ns := by
  have hvalid : ∀ name ∈ dirs, validVirtPathSegment name = true :=
    fun name hname => validVirtPathSegment_of_unquote (h.dirs_valid hname)
  obtain ⟨after, hloop, hmem⟩ := makeDirsLoop_ok hvalid hroot
  refine ⟨after, ?_, hmem⟩
  unfold makeDirs
  rw [if_neg h.ne_nil, h.segments, List.dropLast_concat]
  exact hloop

/-- The parent of the real path exists afterwards exactly when it did
before or no directory was spelled with a quote. -/
theorem Accepted.parent_mem_iff (h : Accepted root p dirs last rp)
    {after : List RealPath}
    (hafter : ∀ x, x ∈ after ↔ x ∈ existing
      ∨ ∃ ns, ns <+: dirs ∧ x = root ++ ns) :
    rp.dropLast ∈ after
      ↔ rp.dropLast ∈ existing ∨ ∀ dir ∈ dirs, quote ∉ dir := by
  rw [hafter, h.dropLast_eq, ← map_unquote_eq_self_iff]
  refine or_congr_right ⟨?_, ?_⟩
  · rintro ⟨ns, hns, heq⟩
    rw [← List.append_cancel_left heq] at hns
    exact hns.eq_of_length (List.length_map _)
  · intro hmap
    exact ⟨dirs, List.prefix_rfl, congrArg (root ++ ·) hmap⟩

end MakeDirs

-- ===== server files

/-- What every run of the server keeps: the root exists, and the objects
are numbered. -/
structure Files.Numbered (s : Files) : Prop where
  root_mem : s.root ∈ s.dirs
  numbers : s.files.map Prod.snd = List.range s.files.length

theorem Files.mem_of_getFile {i : Nat} (h : s.getFile p = some i) :
    (p, i) ∈ s.files := by
  obtain ⟨l1, l2, heq, -⟩ := List.lookup_eq_some_iff.1 h
  rw [heq]
  exact List.mem_append_right _ List.mem_cons_self

/-- Different paths are served by different objects. -/
theorem Files.Numbered.getFile_inj (h : s.Numbered) {i : Nat}
    (hp : s.getFile p = some i) (hq : s.getFile q = some i) : p = q := by
  have hnodup : (s.files.map Prod.snd).Nodup := by
    rw [h.numbers]
    exact List.nodup_range
  have hpair : (p, i) = (q, i) :=
    List.inj_on_of_nodup_map hnodup (mem_of_getFile hp)
      (mem_of_getFile hq) rfl
  exact congrArg Prod.fst hpair

/-- What serving one path does, and that it succeeds on an accepted
path. -/
theorem Files.getOrCreateFile_ok (h : s.Numbered)
    (hparse : parseVirtualPath s.root virtPath = some realPath) :
    ∃ s', s.getOrCreateFile virtPath = .ok s' ∧ s'.root = s.root
      ∧ s'.Numbered ∧ (s'.getFile virtPath).isSome
      ∧ ∀ q i, s.getFile q = some i → s'.getFile q = some i := by
  unfold getOrCreateFile
  cases hget : s.getFile virtPath with
  | some i => exact ⟨s, rfl, rfl, h, by rw [hget]; rfl, fun _ _ => id⟩
  | none =>
    obtain ⟨dirs, last, hacc⟩ := accepted_of_parse hparse
    obtain ⟨after, hmake, hmem⟩ := hacc.makeDirs_ok h.root_mem
    rw [hparse, hmake]
    refine ⟨_, rfl, rfl, ⟨(hmem _).2 (.inl h.root_mem), ?_⟩, ?_, ?_⟩
    · simp [h.numbers, List.range_succ]
    · unfold getFile at hget ⊢
      rw [List.lookup_append, hget]
      simp
    · intro q i hq
      unfold getFile at hq ⊢
      rw [List.lookup_append, hq]
      rfl

/-- A path that is not accepted is not served. -/
theorem Files.parse_of_getOrCreateFile (hnew : s.getFile virtPath = none)
    (h : s.getOrCreateFile virtPath = .ok s') :
    ∃ realPath, parseVirtualPath s.root virtPath = some realPath := by
  unfold getOrCreateFile at h
  rw [hnew] at h
  cases hparse : parseVirtualPath s.root virtPath with
  | none =>
    rw [hparse] at h
    cases h
  | some realPath => exact ⟨realPath, rfl⟩

/-- One served path keeps the numbering and the objects there are. -/
theorem Files.getOrCreateFile_spec (h : s.Numbered)
    (hserve : s.getOrCreateFile virtPath = .ok s') :
    s'.Numbered ∧ (s'.getFile virtPath).isSome
      ∧ ∀ q i, s.getFile q = some i → s'.getFile q = some i := by
  cases hget : s.getFile virtPath with
  | some i =>
    have heq : s' = s := by
      unfold getOrCreateFile at hserve
      rw [hget] at hserve
      exact (Except.ok.inj hserve).symm
    subst heq
    exact ⟨h, by rw [hget]; rfl, fun _ _ => id⟩
  | none =>
    obtain ⟨realPath, hparse⟩ :=
      parse_of_getOrCreateFile hget hserve
    obtain ⟨s1, hs1, -, hspec⟩ := getOrCreateFile_ok h hparse
    rw [hserve] at hs1
    cases hs1
    exact hspec

/-- After a run every path it served has its object, and different paths
have different ones. -/
theorem Files.serve_spec (h : s.Numbered)
    (hserve : s.serve paths = .ok s') :
    s'.Numbered ∧ (∀ p ∈ paths, (s'.getFile p).isSome)
      ∧ ∀ q i, s.getFile q = some i → s'.getFile q = some i := by
  induction paths generalizing s with
  | nil =>
    cases hserve
    exact ⟨h, by simp, fun _ _ => id⟩
  | cons p paths ih =>
    unfold serve at hserve
    cases hstep : s.getOrCreateFile p with
    | error e =>
      rw [hstep] at hserve
      cases hserve
    | ok s1 =>
      rw [hstep] at hserve
      obtain ⟨h1, hsome, hkeep⟩ := getOrCreateFile_spec h hstep
      obtain ⟨h2, hall, hkeep'⟩ := ih h1 hserve
      refine ⟨h2, ?_, fun q i hq => hkeep' q i (hkeep q i hq)⟩
      intro q hq
      rcases List.mem_cons.1 hq with rfl | hq
      · obtain ⟨i, hi⟩ := Option.isSome_iff_exists.1 hsome
        rw [hkeep' q i hi]
        rfl
      · exact hall q hq

/-- Accepted paths are served. -/
theorem Files.serve_ok (h : s.Numbered)
    (hacc : ∀ p ∈ paths, (parseVirtualPath s.root p).isSome) :
    ∃ s', s.serve paths = .ok s' := by
  induction paths generalizing s with
  | nil => exact ⟨s, rfl⟩
  | cons p paths ih =>
    obtain ⟨rp, hrp⟩ :=
      Option.isSome_iff_exists.1 (hacc p List.mem_cons_self)
    obtain ⟨s1, hstep, hroot, h1, -⟩ := getOrCreateFile_ok h hrp
    obtain ⟨s2, hs2⟩ := ih h1 fun q hq => by
      rw [hroot]
      exact hacc q (List.mem_cons_of_mem _ hq)
    refine ⟨s2, ?_⟩
    unfold serve
    rw [hstep]
    exact hs2

-- ===== isolation

/-- The path is inside the directory and cannot lead out of it again. -/
def StrictlyBelow (root path : RealPath) : Prop :=
  ∃ names, names ≠ [] ∧ path = root ++ names ∧ ∀ name ∈ names, IsName name

/-- What a client of the virtual path `p` is promised, next to one of
`q`: `rp` and `rq` are their real paths, `existing` the directories
there are. -/
structure KeptApart (root : RealPath) (existing : List RealPath)
    (p q : Bytes) (rp rq : RealPath) : Prop where
  below : StrictlyBelow root rp
  /-- Paths of one real path are served by one object in every run. -/
  sameFile : rp = rq → ∀ paths s, p ∈ paths → q ∈ paths
    → (Files.start root existing).serve paths = .ok s
    → s.getFile p = s.getFile q
  /-- The file is not a directory on the way to the other. -/
  notDirectory : ¬rp <+: rq.dropLast
  /-- The file is not another one's lock or control file. -/
  notCoreFile : rp ≠ rq.withSuffix lockSuffix
    ∧ rp ≠ rq.withSuffix controlSuffix
  /-- No directory on the way is one of the other's files. -/
  dirsNotFiles : ¬rq <+: rp.dropLast
    ∧ ¬rq.withSuffix lockSuffix <+: rp.dropLast
    ∧ ¬rq.withSuffix controlSuffix <+: rp.dropLast
  /-- `make_dirs` succeeds, and the parent directory then exists. -/
  parentMade : ∃ after, makeDirs root p existing = .ok after
    ∧ rp.dropLast ∈ after

section Isolation

variable {root : RealPath} {existing : List RealPath} {p q : Bytes}
  {dirs dirs' : List Bytes} {last last' : Bytes} {rp rq : RealPath}

section

variable (h : Accepted root p dirs last rp)

include h

theorem Accepted.strictlyBelow : StrictlyBelow root rp :=
  ⟨_, by simp, h.real_eq, fun _ => h.isName⟩

/-- No file of a virtual path is a directory on the way to another. -/
theorem Accepted.files_not_dirs (h' : Accepted root q dirs' last' rq) :
    ¬rq <+: rp.dropLast
      ∧ ¬rq.withSuffix lockSuffix <+: rp.dropLast
      ∧ ¬rq.withSuffix controlSuffix <+: rp.dropLast := by
  obtain ⟨hbarq, hlock, hcontrol⟩ := h.dir_ne (unquote last')
  have hsuffix : ∀ sfx : Bytes, rq.withSuffix sfx
      = root ++ (dirs'.map unquote
        ++ [unquote last' ++ (barqSuffix ++ sfx)]) := by
    intro sfx
    rw [h'.real_eq, ← List.append_assoc, withSuffix_concat]
    simp
  refine ⟨fun hpre => ?_, fun hpre => ?_, fun hpre => ?_⟩
  · rw [h'.real_eq] at hpre
    exact hbarq (h.mem_of_prefix hpre)
  · rw [hsuffix] at hpre
    exact hlock (h.mem_of_prefix hpre)
  · rw [hsuffix] at hpre
    exact hcontrol (h.mem_of_prefix hpre)

/-- A database file is never a lock or a control file: their names end
in different letters. -/
theorem Accepted.ne_coreFile (h' : Accepted root q dirs' last' rq) :
    rp ≠ rq.withSuffix lockSuffix ∧ rp ≠ rq.withSuffix controlSuffix := by
  have hlast : ∀ sfx : Bytes, sfx.getLast? ≠ none
      → sfx.getLast? ≠ barqSuffix.getLast? → rp ≠ rq.withSuffix sfx := by
    intro sfx hsome hne heq
    rw [h.real_eq, h'.real_eq, ← List.append_assoc, ← List.append_assoc,
      withSuffix_concat] at heq
    have hname := congrArg List.getLast? heq
    simp only [List.getLast?_concat, Option.some.injEq] at hname
    have hch := congrArg List.getLast? hname
    rw [List.getLast?_append, List.getLast?_append,
      Option.or_of_isSome (by decide),
      Option.or_of_isSome (Option.isSome_iff_ne_none.2 hsome)] at hch
    exact hne hch.symm
  exact ⟨hlast _ (by decide) (by decide), hlast _ (by decide) (by decide)⟩

end

theorem Files.numbered_start (hroot : root ∈ existing) :
    (Files.start root existing).Numbered :=
  ⟨hroot, rfl⟩

/-- Two paths have one object in every run exactly when they are
equal. -/
theorem sameFile_iff (hroot : root ∈ existing)
    (h : parseVirtualPath root p = some rp)
    (h' : parseVirtualPath root q = some rq) :
    (∀ paths s, p ∈ paths → q ∈ paths
      → (Files.start root existing).serve paths = .ok s
      → s.getFile p = s.getFile q) ↔ p = q := by
  have hstart := numbered_start hroot
  constructor
  · intro hall
    have hacc : ∀ x ∈ [p, q], (parseVirtualPath root x).isSome := by
      simp [h, h']
    obtain ⟨s, hs⟩ := serve_ok hstart hacc
    obtain ⟨hnum, hserved, -⟩ := serve_spec hstart hs
    have hsame := hall [p, q] s (by simp) (by simp) hs
    obtain ⟨i, hi⟩ := Option.isSome_iff_exists.1 (hserved p (by simp))
    exact hnum.getFile_inj hi (hsame ▸ hi)
  · intro heq paths s _ _ _
    rw [heq]

/-- The promise is kept exactly when the two paths are not two spellings
of one, and the directories of `p` are not spelled with quotes. -/
theorem keptApart_iff (hroot : root ∈ existing)
    (hp : parseVirtualPath root p = some rp)
    (hq : parseVirtualPath root q = some rq) :
    KeptApart root existing p q rp rq
      ↔ (spelling p = spelling q → p = q)
        ∧ (root ++ (virtSegments p).dropLast.map unquote ∈ existing
          ∨ ∀ dir ∈ (virtSegments p).dropLast, quote ∉ dir) := by
  obtain ⟨dirs, last, h⟩ := accepted_of_parse hp
  obtain ⟨dirs', last', h'⟩ := accepted_of_parse hq
  obtain ⟨after, hmake, hafter⟩ := h.makeDirs_ok hroot
  have hparent := h.parent_mem_iff hafter
  rw [h.segments, List.dropLast_concat, ← h.dropLast_eq, ← hparent,
    ← h.real_eq_iff h', ← sameFile_iff hroot hp hq]
  constructor
  · intro hkept
    obtain ⟨after', hmake', hmem⟩ := hkept.parentMade
    rw [hmake] at hmake'
    cases hmake'
    exact ⟨hkept.sameFile, hmem⟩
  · rintro ⟨hsame, hmem⟩
    exact ⟨h.strictlyBelow, hsame, (h'.files_not_dirs h).1,
      h.ne_coreFile h', h.files_not_dirs h', after, hmake, hmem⟩

end Isolation

-- ===== tenants

/-- Two tenants' files do not meet: neither is the other's, and neither
is below the directory of the other tenant, whether that is taken from
its identifier (`tenant_can_store_bytes`) or from its files. -/
structure TenantsApart (root : RealPath) (tenantId' : Bytes)
    (rp rq : RealPath) : Prop where
  ne : rp ≠ rq
  notBelow : ¬resolve tenantId' root <+: rp
  notBelowFiles : ¬rq.take (root.length + 1) <+: rp

section

variable (h : makeTenantVirtualPath tenantId clientPath = some virtPath)

include h

/-- The segments of a tenant's virtual path begin with its identifier. -/
theorem virtSegments_tenant :
    virtSegments virtPath = tenantId :: clientPath.splitOn slash := by
  unfold makeTenantVirtualPath at h
  split_ifs at h with hvalid
  cases h
  have hslash : slash ∉ tenantId := by
    have hname := isName_append (Bool.not_eq_false _ ▸ hvalid)
      (List.not_mem_nil (a := slash))
    rw [List.append_nil] at hname
    exact hname.slash_not_mem
  unfold virtSegments
  rw [List.cons_append, List.head?_cons, if_pos rfl, List.tail_cons]
  rw [List.splitOn_append_cons_self, List.splitOn_eq_singleton hslash]
  rfl

/-- The real path of a tenant's file: below its identifier without
quotes. -/
theorem real_eq_tenant (hp : parseVirtualPath root virtPath = some rp) :
    ∃ names, rp = root ++ unquote tenantId :: names := by
  obtain ⟨dirs, last, hacc⟩ := accepted_of_parse hp
  have hsegs := hacc.segments
  rw [virtSegments_tenant h] at hsegs
  cases dirs with
  | nil =>
    have hnil := (List.cons.inj hsegs).2
    exact absurd hnil (List.splitOn_ne_nil _ _)
  | cons dir dirs =>
    obtain ⟨rfl, -⟩ := List.cons.inj hsegs
    exact ⟨_, hacc.real_eq⟩

end

/-- Two different tenants are kept apart exactly when their identifiers
differ by more than quotes. -/
theorem tenantsApart_iff {tenantId' clientPath' : Bytes}
    (h : makeTenantVirtualPath tenantId clientPath = some p)
    (h' : makeTenantVirtualPath tenantId' clientPath' = some q)
    (hp : parseVirtualPath root p = some rp)
    (hq : parseVirtualPath root q = some rq) :
    TenantsApart root tenantId' rp rq
      ↔ unquote tenantId ≠ unquote tenantId' := by
  obtain ⟨names, rfl⟩ := real_eq_tenant h hp
  obtain ⟨names', rfl⟩ := real_eq_tenant h' hq
  have htake : (root ++ unquote tenantId' :: names').take
      (root.length + 1) = root ++ [unquote tenantId'] := by
    rw [List.take_length_add_append]
    rfl
  have hbelow : ∀ name : Bytes,
      root ++ [name] <+: root ++ unquote tenantId :: names
        ↔ name = unquote tenantId := by
    intro name
    rw [List.prefix_append_right_inj, List.cons_prefix_cons]
    simp
  constructor
  · intro hapart heq
    apply hapart.notBelowFiles
    rw [htake, hbelow]
    exact heq.symm
  · intro hne
    refine ⟨?_, ?_, ?_⟩
    · intro heq
      exact hne (List.cons.inj (List.append_cancel_left heq)).1
    · show ¬root ++ [tenantId'] <+: _
      rw [hbelow]
      intro heq
      apply hne
      -- An identifier without quotes is its own unquoting.
      rw [heq]
      unfold unquote
      rw [List.filter_filter]
      simp
    · rw [htake, hbelow]
      exact fun heq => hne heq.symm

/-- When virtual paths isolate files and tenants: between any two
accepted paths, and between any two accepted paths of different
tenants. -/
theorem virtualPaths_isolate (root : RealPath) :
    (∀ existing p q rp rq, root ∈ existing
      → parseVirtualPath root p = some rp
      → parseVirtualPath root q = some rq
      → (KeptApart root existing p q rp rq
        ↔ (spelling p = spelling q → p = q)
          ∧ (root ++ (virtSegments p).dropLast.map unquote ∈ existing
            ∨ ∀ dir ∈ (virtSegments p).dropLast, quote ∉ dir)))
    ∧ ∀ tenantId clientPath tenantId' clientPath' p q rp rq,
      tenantId ≠ tenantId'
      → makeTenantVirtualPath tenantId clientPath = some p
      → makeTenantVirtualPath tenantId' clientPath' = some q
      → parseVirtualPath root p = some rp
      → parseVirtualPath root q = some rq
      → (TenantsApart root tenantId' rp rq
        ↔ unquote tenantId ≠ unquote tenantId') :=
  ⟨fun _ _ _ _ _ hroot hp hq => keptApart_iff hroot hp hq,
    fun _ _ _ _ _ _ _ _ _ h h' hp hq => tenantsApart_iff h h' hp hq⟩

/-- The paths `/a/b` and `/a/c` next to each other, and the tenants `a`
and `b`. -/
theorem virtualPaths_isolate_plain :
    KeptApart [] [[]] (ascii ['/', 'a', '/', 'b'])
        (ascii ['/', 'a', '/', 'c'])
        [ascii ['a'], ascii ['b'] ++ barqSuffix]
        [ascii ['a'], ascii ['c'] ++ barqSuffix]
      ∧ TenantsApart [] (ascii ['b'])
        [ascii ['a'], ascii ['c'] ++ barqSuffix]
        [ascii ['b'], ascii ['c'] ++ barqSuffix] :=
  ⟨((virtualPaths_isolate []).1 _ _ _ _ _ (by decide) (by decide)
      (by decide)).2 ⟨by decide, .inr (by decide)⟩,
    ((virtualPaths_isolate []).2 (ascii ['a']) (ascii ['c']) _
      (ascii ['c']) (ascii ['/', 'a', '/', 'c'])
      (ascii ['/', 'b', '/', 'c']) _ _ (by decide) (by decide) (by decide)
      (by decide) (by decide)).2 (by decide)⟩

/-- What a quote does. The paths `/a` and `/"a"` are one real file with
two objects; the tenants `a` and `"a"` share their files; and after
`make_dirs` on `/"a"/b` the parent of the real path does not exist. -/
theorem quoted_paths_collide :
    (∃ rp s, parseVirtualPath [] (ascii ['/', 'a']) = some rp
      ∧ parseVirtualPath [] (ascii ['/', '"', 'a', '"']) = some rp
      ∧ (Files.start [] [[]]).serve
        [ascii ['/', 'a'], ascii ['/', '"', 'a', '"']] = .ok s
      ∧ s.getFile (ascii ['/', 'a']) = some 0
      ∧ s.getFile (ascii ['/', '"', 'a', '"']) = some 1)
    ∧ (∃ p q rp, makeTenantVirtualPath (ascii ['a']) (ascii ['c']) = some p
      ∧ makeTenantVirtualPath (ascii ['"', 'a', '"']) (ascii ['c']) = some q
      ∧ parseVirtualPath [] p = some rp ∧ parseVirtualPath [] q = some rp)
    ∧ ∃ rp after,
      parseVirtualPath [] (ascii ['/', '"', 'a', '"', '/', 'b']) = some rp
      ∧ makeDirs [] (ascii ['/', '"', 'a', '"', '/', 'b']) [[]] = .ok after
      ∧ rp.dropLast ∉ after := by
  refine ⟨⟨[ascii ['a'] ++ barqSuffix], _, by decide, by decide, rfl,
    by decide, by decide⟩, ⟨_, _, [ascii ['a'], ascii ['c'] ++ barqSuffix],
    rfl, rfl, by decide, by decide⟩, ?_⟩
  exact ⟨[ascii ['a'], ascii ['b'] ++ barqSuffix], _, by decide, rfl,
    by decide⟩

end BarqSync.Server
