/-
Reciprocal histories as maps from versions to transforms.

# The map

`RecipMap` says what reciprocal histories are for: each client file has
a base version and a map from the versions above it to transforms. A
transform is stored for a version by `set`, and `trim` takes the
versions up to the new base away. `last` is the last version that a
transform has been set for.

# The simulation

The map determines the storage (`RecipMap.store`): the column of a
client file lists the versions from its base to the last one. An
operation on the storage of a map gives the storage of the map after it
(`store_step`), unless it is a `trim` that leaves entries. Then the
column is shorter than the size the accessor keeps.

# The listing

`get_history_contents` takes the version from the index of the client
file and not from the position, so a list repeats one transform.
-/
import BarqSync.Server.Reciprocal
import BarqSync.Sys.Runs
import Mathlib.Logic.Function.Basic

namespace BarqSync.Server

open Function (update update_self update_of_ne update_eq_self_iff)

-- ===== the map

/-- Transforms by client file and version. -/
structure RecipMap where
  base : ℕ → ℕ
  last : ℕ → ℕ
  transform : ℕ → ℕ → Option Bytes := fun _ _ => none
  instantiated : ℕ → Bool := fun _ => false
  /-- The client file whose history is in use. -/
  current : Option ℕ := none

namespace RecipMap

variable (m : RecipMap)

/-- How many entries are stored for a client file. -/
def count (i : ℕ) : ℕ := m.last i - m.base i

def setTransform (i version : ℕ) (transform : Option Bytes) : RecipMap :=
  { m with
    last := update m.last i (max (m.last i) version)
    transform := update m.transform i (update (m.transform i) version
        (some (transform.getD []))) }

def dropUpTo (i version : ℕ) : RecipMap :=
  { m with
    base := update m.base i version
    last := update m.last i (max (m.last i) version)
    transform := update m.transform i fun v =>
      if v ≤ version then none else m.transform i v }

def apply : RecipEvent → RecipMap
  | .new i => { m with current := some i }
  | .close => { m with current := none }
  | .ensureInstantiated => m.current.elim m fun i =>
    { m with instantiated := update m.instantiated i true }
  | .set version transform => m.current.elim m fun i =>
    m.setTransform i version transform
  | .trim version => m.current.elim m fun i => m.dropUpTo i version

/-- What the callers promise, of `n` client files. -/
def Allowed (n : ℕ) : RecipEvent → Prop
  | .new i => i < n
  | .close => True
  | .ensureInstantiated => m.current.isSome = true
  | .set version _ => ∃ i, m.current = some i
    ∧ m.instantiated i = true ∧ m.base i < version
  | .trim version => ∃ i, m.current = some i ∧ m.base i < version

/-- A `trim` leaves no entry: nothing was set above the new base. -/
def Complete : RecipEvent → Prop
  | .trim version => ∀ i, m.current = some i → m.last i ≤ version
  | _ => True

/-- The transforms of the versions from the base to the last one. -/
def column (i : ℕ) : List (Option Bytes) :=
  (List.range (m.count i)).map fun j => m.transform i (m.base i + j + 1)

/-- Client files without reciprocal histories. -/
def start (files : List ClientFile) : RecipMap where
  base i := (files.getD i {}).rhBaseVersion
  last i := (files.getD i {}).rhBaseVersion

end RecipMap

/-- The state does what the map says: every version above the base reads
as in the map, and the size is the number of stored entries. -/
structure Faithful (s : RecipState) (m : RecipMap) : Prop where
  get : ∀ i, m.current = some i → m.instantiated i = true
    → ∀ v, m.base i < v → s.get v = some (m.transform i v)
  size : ∀ h, s.accessor = some h → h.size = (s.column h).length

namespace RecipMap

variable {m m' : RecipMap} {files : List ClientFile} {i : ℕ} {v : ℕ}
  {event : RecipEvent} {column : List (Option Bytes)}

/-- No transforms outside of the versions stored. -/
structure Ok (m : RecipMap) : Prop where
  base_le : ∀ i, m.base i ≤ m.last i
  below : ∀ i v, v ≤ m.base i → m.transform i v = none
  above : ∀ i v, m.last i < v → m.transform i v = none
  instantiated : ∀ i, m.instantiated i = false → m.last i = m.base i

-- ===== the storage of a map

/-- A client file as a map has it. -/
def file (m : RecipMap) (i : ℕ) (f : ClientFile) : ClientFile :=
  { f with
    rhBaseVersion := m.base i
    recipHist := if m.instantiated i then some (m.column i) else none }

def accessor (m : RecipMap) (i : ℕ) : ReciprocalHistory :=
  ⟨i, m.base i, m.count i, m.instantiated i⟩

def store (m : RecipMap) (files : List ClientFile) : RecipState where
  files := files.mapIdx m.file
  accessor := m.current.map m.accessor

theorem length_column : (m.column i).length = m.count i := by
  simp [column]

theorem getElem?_column {j : ℕ} (hj : j < m.count i) :
    (m.column i)[j]? = some (m.transform i (m.base i + j + 1)) := by
  simp [column, hj]

theorem Ok.column_getD (hm : m.Ok) (f : ClientFile) :
    ((m.file i f).recipHist).getD [] = m.column i := by
  cases hinst : m.instantiated i with
  | true => simp [file, hinst]
  | false =>
    have hlast := hm.instantiated i hinst
    simp [file, hinst, column, count, hlast]

theorem Ok.store_column (hm : m.Ok) (hi : i < files.length) :
    (m.store files).column (m.accessor i) = m.column i := by
  have hfile : (files.mapIdx m.file)[i]? = some (m.file i files[i]) := by
    simp [hi]
  show (((files.mapIdx m.file)[i]?).bind ClientFile.recipHist).getD [] = _
  rw [hfile]
  exact hm.column_getD _

theorem Ok.new_eq (hm : m.Ok) (f : ClientFile) :
    ReciprocalHistory.new (m.file i f) i = m.accessor i := by
  rw [ReciprocalHistory.new, hm.column_getD, length_column, accessor]
  cases hinst : m.instantiated i <;> simp [file, hinst]

/-- The accessor reads what the map has. -/
theorem Ok.accessor_get (hm : m.Ok) (hinst : m.instantiated i = true)
    (hv : m.base i < v) :
    (m.accessor i).get (m.column i) v = some (m.transform i v) := by
  have hplace : m.base i + (v - m.base i - 1) + 1 = v := by omega
  rw [ReciprocalHistory.get, if_pos ⟨hinst, hv⟩]
  show (if v - m.base i - 1 < m.count i
    then (m.column i)[v - m.base i - 1]? else some none) = _
  split
  · rename_i hlt
    rw [getElem?_column hlt, hplace]
  · rename_i hlt
    rw [hm.above i v]
    unfold count at hlt
    omega

theorem Ok.faithful (hm : m.Ok)
    (hcur : ∀ i, m.current = some i → i < files.length) :
    Faithful (m.store files) m where
  get i hi hinst v hv := by
    rw [RecipState.get, store, hi]
    show (m.accessor i).get ((m.store files).column (m.accessor i)) v = _
    rw [hm.store_column (hcur i hi), hm.accessor_get hinst hv]
  size h hh := by
    obtain ⟨i, hi, rfl⟩ := Option.map_eq_some_iff.1 hh
    rw [hm.store_column (hcur i hi), length_column]
    rfl

/-- A change of one client file. -/
theorem store_write {h : ReciprocalHistory} {base : ℕ}
    (hindex : h.remoteFileIndex = i) (hhere : ∀ f, { m.file i f with
        rhBaseVersion := base
        recipHist := if h.instantiated then some column
          else (m.file i f).recipHist } = m'.file i f)
    (hother : ∀ j ≠ i, m'.file j = m.file j) (hcur : m'.current = some i)
    (hacc : m'.accessor i = h) :
    (m.store files).write h column base = m'.store files := by
  rw [RecipState.write, store, store, hcur, hindex]
  refine congrArg₂ RecipState.mk (List.ext_getElem? fun j => ?_)
    (congrArg some hacc.symm)
  rw [List.getElem?_modify, List.getElem?_mapIdx, List.getElem?_mapIdx]
  by_cases hj : i = j
  · subst hj
    simp only [if_true, Option.map_eq_map, Option.map_map]
    exact congrArg (fun g => Option.map g files[i]?) (funext hhere)
  · simp only [if_neg hj, Option.map_eq_map, Option.map_id',
      hother j (Ne.symm hj)]

-- ===== the operations

/-- `set` stores a transform for one version. -/
theorem Ok.accessor_set (hm : m.Ok) (hinst : m.instantiated i = true)
    (hv : m.base i < v) (transform : Option Bytes) :
    (m.accessor i).set (m.column i) v transform
      = some ((m.setTransform i v transform).accessor i,
        (m.setTransform i v transform).column i) := by
  have hbase := hm.base_le i
  have hcount : (m.setTransform i v transform).count i
      = max (m.count i) (v - m.base i - 1 + 1) := by
    simp only [count, setTransform, update_self]
    omega
  have hlen : v - m.base i - 1 < (m.column i ++ List.replicate
      (v - m.base i - 1 + 1 - m.count i) none).length := by
    rw [List.length_append, length_column, List.length_replicate]
    omega
  rw [ReciprocalHistory.set, if_pos ⟨hinst, hv⟩]
  refine (if_pos hlen).trans (congrArg some (Prod.ext ?_ ?_))
  · exact congrArg (ReciprocalHistory.mk i (m.base i) · _) hcount.symm
  · refine List.ext_getElem? fun j => ?_
    have hcol : (m.setTransform i v transform).column i
        = (List.range (max (m.count i) (v - m.base i - 1 + 1))).map fun j =>
          (m.setTransform i v transform).transform i (m.base i + j + 1) := by
      rw [column, hcount]
      rfl
    show ((m.column i ++ List.replicate (v - m.base i - 1 + 1 - m.count i)
      none).set (v - m.base i - 1) _)[j]? = (column _ i)[j]?
    rw [List.getElem?_set, hcol, List.getElem?_map]
    by_cases hj : v - m.base i - 1 = j
    · have hplace : m.base i + j + 1 = v := by omega
      subst hj
      rw [if_pos rfl, if_pos hlen, List.getElem?_range (by omega)]
      simp [setTransform, hplace]
    · have hne : m.base i + j + 1 ≠ v := by omega
      rw [if_neg hj]
      by_cases hin : j < m.count i
      · rw [List.getElem?_append_left (by rwa [length_column]),
          getElem?_column hin, List.getElem?_range (by omega)]
        simp [setTransform, hne]
      · have hnone : m.transform i (m.base i + j + 1) = none := by
          apply hm.above
          unfold count at hin
          omega
        rw [List.getElem?_append_right (by rw [length_column]; omega),
          length_column, List.getElem?_replicate]
        by_cases hlt : j < v - m.base i - 1 + 1
        · rw [if_pos (by omega), List.getElem?_range (by omega)]
          simp [setTransform, hne, hnone]
        · rw [if_neg (by omega), List.getElem?_eq_none (by simp; omega)]
          rfl

/-- A complete `trim` takes every entry away. -/
theorem accessor_trim (hv : m.base i < v) (hlast : m.last i ≤ v) :
    (m.accessor i).trim (m.column i) v
      = some ((m.dropUpTo i v).accessor i, []) := by
  have hle : m.count i ≤ v - m.base i := by
    unfold count
    omega
  have hcount : (m.dropUpTo i v).count i = 0 := by
    simp only [count, dropUpTo, update_self]
    omega
  rw [ReciprocalHistory.trim]
  refine (if_pos hv).trans ((if_pos hle).trans ?_)
  rw [accessor, accessor, hcount]
  simp [dropUpTo]

theorem eraseFront_eq {n : ℕ} (hn : n ≤ column.length) :
    ReciprocalHistory.eraseFront n column = some (0, column.drop n) := by
  induction n generalizing column with
  | zero => rfl
  | succ n ih =>
    cases column with
    | nil => simp at hn
    | cons entry column => exact ih (by simpa using hn)

/-- Any other `trim` leaves a size that is too large. -/
theorem Ok.accessor_trim_left (hm : m.Ok) (hv : m.base i < v)
    (hlast : v < m.last i) :
    (m.accessor i).trim (m.column i) v
      = some ({ m.accessor i with baseVersion := v },
        (m.column i).drop (v - m.base i)) := by
  have hlt : ¬ m.count i ≤ v - m.base i := by
    unfold count
    omega
  have hinst : m.instantiated i = true := by
    by_contra h
    have := hm.instantiated i (Bool.eq_false_iff.2 h)
    omega
  rw [ReciprocalHistory.trim]
  refine (if_pos hv).trans ((if_neg hlt).trans ((if_pos hinst).trans ?_))
  have hn : v - m.base i ≤ (m.column i).length := by
    rw [length_column]
    omega
  exact congrArg (Option.map _) (eraseFront_eq hn)

-- ===== the steps

theorem Ok.apply (hm : m.Ok) {n : ℕ} (hallowed : m.Allowed n event) :
    (m.apply event).Ok := by
  obtain ⟨hbase, hbelow, habove, hinst⟩ := hm
  cases event with
  | new | close => exact ⟨hbase, hbelow, habove, hinst⟩
  | ensureInstantiated =>
    obtain ⟨i, hi⟩ := Option.isSome_iff_exists.1 hallowed
    rw [RecipMap.apply, hi]
    refine ⟨hbase, hbelow, habove, fun j hj => hinst j ?_⟩
    by_cases hji : j = i
    · simp [hji] at hj
    · simpa [hji] using hj
  | set v transform =>
    obtain ⟨i, hi, hlive, hv⟩ := hallowed
    rw [RecipMap.apply, hi]
    refine ⟨fun j => ?_, fun j w hw => ?_, fun j w hw => ?_,
      fun j hj => ?_⟩ <;> by_cases hji : j = i <;>
      simp only [setTransform, Option.elim, hji, update_self, ne_eq,
        not_false_eq_true, update_of_ne] at *
    · have := hbase i
      omega
    · exact hbase j
    · rw [update_of_ne (by omega)]
      exact hbelow i w hw
    · exact hbelow j w hw
    · rw [update_of_ne (by omega)]
      exact habove i w (by omega)
    · exact habove j w hw
    · rw [hlive] at hj
      cases hj
    · exact hinst j hj
  | trim v =>
    obtain ⟨i, hi, hv⟩ := hallowed
    rw [RecipMap.apply, hi]
    refine ⟨fun j => ?_, fun j w hw => ?_, fun j w hw => ?_,
      fun j hj => ?_⟩ <;> by_cases hji : j = i <;>
      simp only [dropUpTo, Option.elim, hji, update_self, ne_eq,
        not_false_eq_true, update_of_ne] at *
    · omega
    · exact hbase j
    · exact if_pos hw
    · exact hbelow j w hw
    · rw [if_neg (by omega)]
      exact habove i w (by omega)
    · exact habove j w hw
    · have := hinst i hj
      omega
    · exact hinst j hj

theorem store_accessor (hi : m.current = some i) :
    (m.store files).accessor = some (m.accessor i) :=
  congrArg (Option.map m.accessor) hi

theorem apply_current (hi : m.current = some i) (change : ℕ → RecipMap) :
    m.current.elim m change = change i :=
  congrArg (Option.elim · m change) hi

theorem file_congr {j : ℕ} (hbase : m'.base j = m.base j)
    (hlast : m'.last j = m.last j)
    (htransform : m'.transform j = m.transform j)
    (hinst : m'.instantiated j = m.instantiated j) :
    m'.file j = m.file j := by
  funext f
  simp only [file, column, count, hbase, hlast, htransform, hinst]

section

variable (hm : m.Ok) (hcur : ∀ i, m.current = some i → i < files.length)
  (hallowed : m.Allowed files.length event)

include hm hcur hallowed

/-- The storage of a map, after an operation. -/
theorem Ok.store_step (hcomplete : m.Complete event) :
    (m.store files).step event = some ((m.apply event).store files) := by
  cases event with
  | new i =>
    have hi : i < files.length := hallowed
    show ((files.mapIdx m.file)[i]?).map _ = _
    rw [List.getElem?_mapIdx, List.getElem?_eq_getElem hi]
    refine congrArg some (congrArg (RecipState.mk _) (congrArg some ?_))
    exact hm.new_eq _
  | close => rfl
  | ensureInstantiated =>
    obtain ⟨i, hi⟩ := Option.isSome_iff_exists.1 hallowed
    rw [RecipState.step, store_accessor hi, RecipMap.apply,
      apply_current hi]
    refine congrArg some ?_
    show (if m.instantiated i = true then _ else _) = _
    cases hlive : m.instantiated i with
    | true => rw [if_pos rfl, update_eq_self_iff.2 hlive.symm]
    | false =>
      have hlast := hm.instantiated i hlive
      rw [if_neg (by simp)]
      refine store_write rfl (fun f => ?_) (fun j hj => ?_) hi ?_
      · simp [file, column, count, hlast, accessor]
      · exact file_congr rfl rfl rfl (update_of_ne hj _ _)
      · simp [accessor, count]
  | set v transform =>
    obtain ⟨i, hi, hlive, hv⟩ := hallowed
    rw [RecipState.step, store_accessor hi, RecipMap.apply,
      apply_current hi, Option.bind_some, hm.store_column (hcur i hi),
      hm.accessor_set hlive hv]
    refine congrArg some (store_write rfl (fun f => ?_) (fun j hj => ?_) hi
      rfl)
    · simp [file, accessor, setTransform, hlive]
    · exact file_congr rfl (update_of_ne hj _ _) (update_of_ne hj _ _) rfl
  | trim v =>
    obtain ⟨i, hi, hv⟩ := hallowed
    have hlast := hcomplete i hi
    rw [RecipState.step, store_accessor hi, RecipMap.apply,
      apply_current hi, Option.bind_some, hm.store_column (hcur i hi),
      accessor_trim hv hlast]
    refine congrArg some (store_write rfl (fun f => ?_) (fun j hj => ?_) hi
      rfl)
    · cases hlive : m.instantiated i <;>
        simp [file, accessor, column, count, dropUpTo, hlive, hlast]
    · exact file_congr (update_of_ne hj _ _)
        (update_of_ne hj _ _) (update_of_ne hj _ _) rfl

/-- A `trim` that leaves entries makes the size wrong. -/
theorem Ok.incomplete_step
    (hcomplete : ¬ m.Complete event) {s : RecipState}
    (hstep : (m.store files).step event = some s) (m' : RecipMap) :
    ¬ Faithful s m' := by
  cases event with
  | new | close | ensureInstantiated | set =>
    exact absurd trivial hcomplete
  | trim v =>
    obtain ⟨i, hi, hv⟩ := hallowed
    have hlast : v < m.last i := by
      by_contra hle
      refine hcomplete fun j hj => ?_
      obtain rfl : j = i := Option.some.inj (hj.symm.trans hi)
      omega
    have hlive : m.instantiated i = true := by
      by_contra h
      have := hm.instantiated i (Bool.eq_false_iff.2 h)
      omega
    rw [RecipState.step, store_accessor hi, Option.bind_some,
      hm.store_column (hcur i hi), hm.accessor_trim_left hv hlast] at hstep
    cases hstep
    intro hfaithful
    have hsize := hfaithful.size _ rfl
    simp [RecipState.column, RecipState.write, accessor, store, hlive,
      hcur i hi, length_column, count] at hsize
    omega

end

-- ===== the listing

/-- The listing as the map has it: position `j` of a client file is the
version `base + j + 1`. -/
def contents (m : RecipMap) (files : List ClientFile) :
    List (ClientFile × List (Option Bytes)) :=
  files.mapIdx fun i f => (f, m.column i)

/-- Every position has the transform of the version that the listing
takes from the index of the client file. -/
def Repeats (m : RecipMap) (n : ℕ) : Prop :=
  ∀ i < n, ∀ j < m.count i,
    m.transform i (m.base i + j + 1) = m.transform i (m.base i + i + 1)

theorem mapM_eq_map {α β : Type} {f : α → Option β} {g : α → β}
    {l : List α} (h : ∀ a ∈ l, f a = some (g a)) :
    l.mapM f = some (l.map g) := by
  induction l with
  | nil => rfl
  | cons a l ih =>
    rw [List.mapM_cons, h a List.mem_cons_self,
      ih fun b hb => h b (List.mem_cons_of_mem a hb)]
    rfl

theorem Ok.reciprocalHistory_eq (hm : m.Ok) (f : ClientFile) :
    RecipState.reciprocalHistory i (m.file i f)
      = some ((List.range (m.count i)).map fun _ =>
        m.transform i (m.base i + i + 1)) := by
  rw [RecipState.reciprocalHistory, hm.new_eq, hm.column_getD]
  refine mapM_eq_map fun j hj => hm.accessor_get ?_ ?_
  · by_contra h
    have hlast := hm.instantiated i (Bool.eq_false_iff.2 h)
    have hlt : j < m.count i := List.mem_range.1 hj
    unfold count at hlt
    omega
  · show m.base i < m.base i + i + 1
    omega

theorem Ok.getHistoryContents_eq (hm : m.Ok) :
    (m.store files).getHistoryContents
      = some ((m.store files).files.mapIdx fun i f =>
        (f, (List.range (m.count i)).map fun _ =>
          m.transform i (m.base i + i + 1))) := by
  have hlen : (m.store files).files.length = files.length := by
    simp [store]
  refine (mapM_eq_map (g := fun i => (m.file i (files.getD i {}),
    (List.range (m.count i)).map fun _ =>
      m.transform i (m.base i + i + 1))) fun i hi => ?_).trans ?_
  · have hi : i < files.length := by
      rw [← hlen]
      exact List.mem_range.1 hi
    show ((files.mapIdx m.file)[i]?).bind _ = _
    rw [List.getElem?_mapIdx, List.getElem?_eq_getElem hi,
      Option.map_some, Option.bind_some, hm.reciprocalHistory_eq]
    simp [hi]
  · refine congrArg some (List.ext_getElem? fun i => ?_)
    rw [List.getElem?_map, List.getElem?_mapIdx, hlen]
    by_cases hi : i < files.length
    · simp [store, hi]
    · simp [store, hi]

theorem Ok.getHistoryContents_iff (hm : m.Ok) :
    (m.store files).getHistoryContents
        = some (m.contents (m.store files).files)
      ↔ m.Repeats files.length := by
  have hlen : (m.store files).files.length = files.length := by
    simp [store]
  rw [hm.getHistoryContents_eq, Option.some_inj, contents,
    List.mapIdx_eq_mapIdx_iff, ← hlen]
  refine forall₂_congr fun i hi => ?_
  rw [Prod.mk.injEq, column, List.map_inj_left]
  simp only [true_and, List.mem_range]
  exact forall₂_congr fun j hj => eq_comm

-- ===== runs

theorem start_ok : (start files).Ok where
  base_le _ := Nat.le_refl _
  below _ _ _ := rfl
  above _ _ _ := rfl
  instantiated _ _ := rfl

theorem start_store (hnew : ∀ f ∈ files, f.recipHist = none) :
    (start files).store files = { files } := by
  refine congrArg₂ RecipState.mk (List.ext_getElem? fun i => ?_) rfl
  rw [List.getElem?_mapIdx]
  by_cases hi : i < files.length
  · have hnone := hnew files[i] (List.getElem_mem hi)
    rw [List.getElem?_eq_getElem hi, Option.map_some]
    refine congrArg some ?_
    rw [file, ← hnone]
    simp [start, hi]
  · rw [List.getElem?_eq_none (by omega)]
    rfl

end RecipMap

/-- The state and the map, each after the event. -/
def recipStep (p : RecipState × RecipMap) (event : RecipEvent) :
    Option (RecipState × RecipMap) :=
  (p.1.step event).map fun s => (s, p.2.apply event)

/-- What the callers promise, and every `trim` complete. -/
def recipOk (n : ℕ) (p : RecipState × RecipMap) (event : RecipEvent) :
    Prop :=
  p.2.Allowed n event ∧ p.2.Complete event

theorem current_lt {m : RecipMap} {n : ℕ} {event : RecipEvent}
    (hcur : ∀ i, m.current = some i → i < n)
    (hallowed : m.Allowed n event) :
    ∀ i, (m.apply event).current = some i → i < n := by
  cases event with
  | new j =>
    intro i hi
    cases hi
    exact hallowed
  | close =>
    intro i hi
    cases hi
  | ensureInstantiated =>
    obtain ⟨j, hj⟩ := Option.isSome_iff_exists.1 hallowed
    rw [RecipMap.apply, RecipMap.apply_current hj]
    exact hcur
  | set | trim =>
    obtain ⟨j, hj, -⟩ := hallowed
    rw [RecipMap.apply, RecipMap.apply_current hj]
    exact hcur

/-- After operations whose `trim`s are complete the state is the storage
of the map. -/
theorem run_store {files : List ClientFile}
    (hnew : ∀ f ∈ files, f.recipHist = none)
    {p : RecipState × RecipMap}
    (h : Sys.Run recipStep (recipOk files.length)
      ({ files }, .start files) p) :
    p.1 = p.2.store files ∧ p.2.Ok
      ∧ ∀ i, p.2.current = some i → i < files.length := by
  refine h.invariant (I := fun p => p.1 = p.2.store files ∧ p.2.Ok
    ∧ ∀ i, p.2.current = some i → i < files.length) ⟨(RecipMap.start_store hnew).symm,
    RecipMap.start_ok, fun i hi => nomatch hi⟩ ?_
  intro p event q hp hok hstep
  obtain ⟨hs, hm, hcur⟩ := hp
  obtain ⟨s, hs', rfl⟩ := Option.map_eq_some_iff.1 hstep
  rw [hs, hm.store_step hcur hok.1 hok.2] at hs'
  exact ⟨(Option.some.inj hs').symm, hm.apply hok.1, current_lt hcur hok.1⟩

/-- Reciprocal histories are the map as long as every `trim` is complete,
and no longer; the listing is right when it happens to repeat. -/
theorem reciprocal_history_refines_iff {files : List ClientFile}
    (hnew : ∀ f ∈ files, f.recipHist = none)
    {s : RecipState} {m : RecipMap}
    (h : Sys.Run recipStep (recipOk files.length)
      ({ files }, .start files) (s, m)) :
    Faithful s m
      ∧ (∀ event, m.Allowed files.length event
        → ((∃ s', s.step event = some s' ∧ Faithful s' (m.apply event))
          ↔ m.Complete event))
      ∧ (s.getHistoryContents = some (m.contents s.files)
        ↔ m.Repeats files.length) := by
  obtain ⟨hs, hm, hcur⟩ := run_store hnew h
  obtain rfl : s = m.store files := hs
  refine ⟨hm.faithful hcur, ?_, hm.getHistoryContents_iff⟩
  intro event hallowed
  constructor
  · intro hright
    obtain ⟨s', hstep, hfaithful⟩ := hright
    by_contra hcomplete
    exact hm.incomplete_step hcur hallowed hcomplete hstep _ hfaithful
  · intro hcomplete
    exact ⟨_, hm.store_step hcur hallowed hcomplete,
      (hm.apply hallowed).faithful (current_lt hcur hallowed)⟩

/-- One of two client files: a transform is set for version 2. -/
theorem reciprocal_history_two_files : ∃ s m, Sys.Run recipStep (recipOk 2)
        ({ files := [{}, {}] }, .start [{}, {}]) (s, m)
      ∧ s.get 1 = some none ∧ s.get 2 = some (some [7])
      ∧ ¬ ∃ s', s.step (.trim 1) = some s'
        ∧ Faithful s' (m.apply (.trim 1)) := by
  have hrun : Sys.Run recipStep (recipOk 2)
      ({ files := [{}, {}] }, .start [{}, {}]) _ :=
    .tail (.set 2 (some [7])) (.tail .ensureInstantiated
      (.tail (.new 0) .refl ⟨Nat.two_pos, trivial⟩ rfl)
      ⟨rfl, trivial⟩ rfl) ⟨⟨0, rfl, rfl, by decide⟩, trivial⟩ rfl
  obtain ⟨hfaithful, hstep, -⟩ := @reciprocal_history_refines_iff
    [{}, {}] (by decide) _ _ hrun
  refine ⟨_, _, hrun, hfaithful.get 0 rfl rfl 1 (by decide),
    hfaithful.get 0 rfl rfl 2 (by decide), fun hright => ?_⟩
  have hcomplete := (hstep (.trim 1) ⟨0, rfl, by decide⟩).1 hright 0 rfl
  exact absurd hcomplete (by decide)

/-- A `trim` to version 1 of two versions: the accessor still counts two
entries, version 3 reads an entry that is not there, and a later `set`
of version 3 puts nothing. Without it, the listing has the transform of
version 1 twice. -/
theorem reciprocal_history_trim_leaves_one :
    (∃ s h, Sys.exec RecipState.step { files := [{}] }
        [.new 0, .ensureInstantiated, .set 1 (some [1]),
          .set 2 (some [2]), .trim 1] = some s
      ∧ s.accessor = some h ∧ h.size = 2 ∧ (s.column h).length = 1
      ∧ s.get 2 = some (some [2]) ∧ s.get 3 = none
      ∧ s.step (.set 3 (some [3])) = none)
    ∧ ∃ s file, Sys.exec RecipState.step { files := [{}] }
        [.new 0, .ensureInstantiated, .set 1 (some [1]),
          .set 2 (some [2])] = some s
      ∧ s.get 1 = some (some [1]) ∧ s.get 2 = some (some [2])
      ∧ s.getHistoryContents = some [(file, [some [1], some [1]])] :=
  ⟨⟨_, _, rfl, rfl, rfl, rfl, rfl, rfl, rfl⟩, ⟨_, _, rfl, rfl, rfl, rfl⟩⟩

end BarqSync.Server
