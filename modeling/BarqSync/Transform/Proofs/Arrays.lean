/-
Two array operations on the SAME list: `ArrayInsert`, `ArrayMove` and
`ArrayErase` against each other.

# From 32 bits to positions

The rules compute with `UInt32` indexes. Each index function of the
source agrees with its counterpart on natural numbers (`Ot/ListEdit`) as
long as nothing overflows, and the only thing that can overflow is the
size of a list that an insertion makes one longer. After that the squares
are the list identities of `Ot/ListEdit`.

# Results

`Closes` is a closed square with valid far sides. There is one `_closes`
lemma for each pair of operations.
-/
import BarqSync.Transform.Proofs.Routes
import BarqSync.Transform.Proofs.Slots

namespace BarqSync

open Ot

-- ===== 32-bit arithmetic

theorem toNat_add_one {a : UInt32} (h : a.toNat + 1 < 2 ^ 32) :
    (a + 1).toNat = a.toNat + 1 := by
  rw [UInt32.toNat_add, UInt32.toNat_one, Nat.mod_eq_of_lt h]

theorem toNat_ne {a b : UInt32} (h : a ≠ b) : a.toNat ≠ b.toNat :=
  fun hab => h (UInt32.toNat_inj.1 hab)

theorem toNat_sub_one {a : UInt32} (h : 0 < a.toNat) :
    (a - 1).toNat = a.toNat - 1 := by
  have := a.toNat_lt
  rw [UInt32.toNat_sub, UInt32.toNat_one]
  omega

theorem removalVsRemoval_toNat {i j : UInt32} (hij : i ≠ j) :
    (removalVsRemoval i j).1.toNat
        = (Ot.removalVsRemoval i.toNat j.toNat).1
      ∧ (removalVsRemoval i j).2.toNat
        = (Ot.removalVsRemoval i.toNat j.toNat).2 := by
  have hne := toNat_ne hij
  unfold removalVsRemoval Ot.removalVsRemoval Ot.afterErase
  by_cases h : i < j
  · have hlt := UInt32.lt_iff_toNat_lt.1 h
    rw [if_pos h, if_neg (by omega), if_pos hlt, toNat_sub_one (by omega)]
    exact ⟨rfl, rfl⟩
  · have hlt : ¬i.toNat < j.toNat := fun h' => h (UInt32.lt_iff_toNat_lt.2 h')
    rw [if_neg h, if_pos (by omega), if_neg hlt, toNat_sub_one (by omega)]
    exact ⟨rfl, rfl⟩

/-- Without one element, the other is in the shorter list. -/
theorem removalVsRemoval_lt {i j : UInt32} {n : ℕ} (hij : i ≠ j)
    (hi : i.toNat < n) (hj : j.toNat < n) :
    (removalVsRemoval i j).1.toNat < n - 1
      ∧ (removalVsRemoval i j).2.toNat < n - 1 := by
  have hne := toNat_ne hij
  obtain ⟨h1, h2⟩ := removalVsRemoval_toNat hij
  rw [h1, h2]
  unfold Ot.removalVsRemoval Ot.afterErase
  constructor <;> simp only <;> split <;> omega

theorem insertionVsRemoval_toNat {k j : UInt32}
    (hj : j.toNat + 1 < 2 ^ 32) :
    (insertionVsRemoval k j).1.toNat
        = (Ot.insertionVsRemoval k.toNat j.toNat).1
      ∧ (insertionVsRemoval k j).2.toNat
        = (Ot.insertionVsRemoval k.toNat j.toNat).2 := by
  unfold insertionVsRemoval Ot.insertionVsRemoval Ot.afterInsert
  by_cases h : k > j
  · have hlt := UInt32.lt_iff_toNat_lt.1 h
    rw [if_pos h, if_pos hlt, if_pos hlt, toNat_sub_one (by omega)]
    exact ⟨rfl, rfl⟩
  · have hlt : ¬j.toNat < k.toNat := fun h' => h (UInt32.lt_iff_toNat_lt.2 h')
    rw [if_neg h, if_neg hlt, if_neg hlt, toNat_add_one hj]
    exact ⟨rfl, rfl⟩

/-- With one element more, a position and the other element are in the
longer list. -/
theorem insertionVsRemoval_lt {k j : UInt32} {n : ℕ} (hk : k.toNat < n)
    (hj : j.toNat < n - 1) (hn : n ≤ 2 ^ 32) :
    (insertionVsRemoval k j).1.toNat < n - 1
      ∧ (insertionVsRemoval k j).2.toNat < n := by
  obtain ⟨h1, h2⟩ := @insertionVsRemoval_toNat k j (by omega)
  rw [h1, h2]
  unfold Ot.insertionVsRemoval Ot.afterInsert
  constructor <;> simp only <;> split <;> omega

theorem insertionVsInsertion_toNat (leftFirst : Bool) {k h : UInt32}
    (hk : k.toNat + 1 < 2 ^ 32) (hh : h.toNat + 1 < 2 ^ 32) :
    (insertionVsInsertion leftFirst k h).1.toNat
        = (Ot.insertionVsInsertion leftFirst k.toNat h.toNat).1
      ∧ (insertionVsInsertion leftFirst k h).2.toNat
        = (Ot.insertionVsInsertion leftFirst k.toNat h.toNat).2 := by
  unfold insertionVsInsertion Ot.insertionVsInsertion
  by_cases h1 : k < h
  · rw [if_pos h1, if_pos (UInt32.lt_iff_toNat_lt.1 h1), toNat_add_one hh]
    exact ⟨rfl, rfl⟩
  · have h1' : ¬k.toNat < h.toNat := fun h' => h1 (UInt32.lt_iff_toNat_lt.2 h')
    rw [if_neg h1, if_neg h1']
    by_cases h2 : k > h
    · rw [if_pos h2, if_pos (UInt32.lt_iff_toNat_lt.1 h2), toNat_add_one hk]
      exact ⟨rfl, rfl⟩
    · have h2' : ¬h.toNat < k.toNat :=
        fun h' => h2 (UInt32.lt_iff_toNat_lt.2 h')
      rw [if_neg h2, if_neg h2']
      cases leftFirst with
      | true => exact ⟨rfl, toNat_add_one hh⟩
      | false => exact ⟨toNat_add_one hk, rfl⟩

theorem mergeGetVsMove_toNat {g i k : UInt32} (hg : g.toNat + 1 < 2 ^ 32) :
    (mergeGetVsMove g i k).toNat
      = Ot.afterMove i.toNat k.toNat g.toNat := by
  unfold mergeGetVsMove afterMove afterInsert afterErase
  by_cases h : g = i
  · rw [if_pos h, if_pos (congrArg UInt32.toNat h)]
  · have hne : g.toNat ≠ i.toNat := fun h' => h (UInt32.toNat_inj.1 h')
    rw [if_neg h, if_neg hne]
    by_cases h1 : g > i
    · have h1' := UInt32.lt_iff_toNat_lt.1 h1
      simp only [h1, if_true, h1', ge_iff_le, UInt32.le_iff_toNat_le]
      rw [toNat_sub_one (by omega)]
      split
      · rw [toNat_add_one (by rw [toNat_sub_one (by omega)]; omega),
          toNat_sub_one (by omega), if_neg (by omega)]
      · rw [toNat_sub_one (by omega), if_pos (by omega)]
    · have h1' : ¬i.toNat < g.toNat :=
        fun h' => h1 (UInt32.lt_iff_toNat_lt.2 h')
      simp only [h1, if_false, h1', ge_iff_le, UInt32.le_iff_toNat_le]
      split
      · rw [toNat_add_one hg, if_neg (by omega)]
      · rw [if_pos (by omega)]

/-- Where a rule puts the index of an element behind an insertion. -/
theorem afterInsert_toNat {i j : UInt32} (hj : j.toNat + 1 < 2 ^ 32) :
    (if j ≥ i then j + 1 else j).toNat = Ot.afterInsert i.toNat j.toNat := by
  unfold afterInsert
  by_cases h : j ≥ i
  · have := UInt32.le_iff_toNat_le.1 h
    rw [if_pos h, if_neg (by omega), toNat_add_one hj]
  · have : ¬i.toNat ≤ j.toNat := fun h' => h (UInt32.le_iff_toNat_le.2 h')
    rw [if_neg h, if_pos (by omega)]

/-- And behind an erasure. -/
theorem afterErase_toNat {i j : UInt32} :
    (if j > i then j - 1 else j).toNat = Ot.afterErase i.toNat j.toNat := by
  unfold afterErase
  by_cases h : j > i
  · have := UInt32.lt_iff_toNat_lt.1 h
    rw [if_pos h, if_pos this, toNat_sub_one (by omega)]
  · have : ¬i.toNat < j.toNat := fun h' => h (UInt32.lt_iff_toNat_lt.2 h')
    rw [if_neg h, if_neg this]

-- ===== what list edits do

variable {sch : Schema} {col : Column} {l l' : List Value}
  {x' y' : Option Leaf} {y : Leaf}

/-- The value an `ArrayInsert` payload becomes in a list of the
column. -/
def insertedValue (sch : Schema) (col : Column)
    (value : Payload Interned Buffered) : Except ApplyError Value := do
  insertElement sch col (← visitPayload sch value)

theorem arrayInsert_eq_ok {i : ℕ} {value : Payload Interned Buffered}
    {n : UInt32} :
    onListIndex sch col l i (.arrayInsert value n) = .ok l'
      ↔ i ≤ l.length ∧ n.toNat = l.length
        ∧ ∃ v, insertedValue sch col value = .ok v
          ∧ l' = l.insertIdx i v := by
  simp only [onListIndex, insertedValue]
  split
  · next h => simp only [reduceCtorEq, false_iff]; omega
  split
  · next h => simp only [reduceCtorEq, false_iff]; omega
  split
  · next h => simp only [reduceCtorEq, false_iff]; omega
  · next h1 h2 h3 =>
      constructor
      · intro h
        obtain ⟨visit, hvisit, h⟩ := bind_eq_ok.1 h
        obtain ⟨v, hv, h⟩ := bind_eq_ok.1 h
        exact ⟨by omega, by omega, v, bind_eq_ok.2 ⟨_, hvisit, hv⟩,
          (Except.ok.inj h).symm⟩
      · rintro ⟨-, -, v, hv, rfl⟩
        obtain ⟨visit, hvisit, hv⟩ := bind_eq_ok.1 hv
        exact bind_eq_ok.2 ⟨_, hvisit, bind_eq_ok.2 ⟨v, hv, rfl⟩⟩

theorem arrayMove_eq_ok {i : ℕ} {k n : UInt32} :
    onListIndex sch col l i (.arrayMove k n) = .ok l'
      ↔ i < l.length ∧ k.toNat < l.length ∧ i ≠ k.toNat
        ∧ n.toNat = l.length ∧ nestedAt l i = false
        ∧ l' = Ot.moveIdx l i k.toNat := by
  simp only [onListIndex]
  split
  · simp only [reduceCtorEq, false_iff]; omega
  split
  · simp only [reduceCtorEq, false_iff]; omega
  split
  · simp only [reduceCtorEq, false_iff]; tauto
  split
  · simp only [reduceCtorEq, false_iff]; tauto
  split
  · simp only [reduceCtorEq, false_iff]; simp_all
  · simp only [Except.ok.injEq, eq_comm (a := l')]
    constructor
    · intro h
      exact ⟨by omega, by omega, by assumption, by omega, by simp_all, h⟩
    · exact fun h => h.2.2.2.2.2

theorem arrayErase_eq_ok {i : ℕ} {n : UInt32} :
    onListIndex sch col l i (.arrayErase n) = .ok l'
      ↔ i < l.length ∧ n.toNat = l.length ∧ l' = l.eraseIdx i := by
  simp only [onListIndex]
  split
  · simp only [reduceCtorEq, false_iff]; omega
  split
  · simp only [reduceCtorEq, false_iff]; omega
  split
  · simp only [reduceCtorEq, false_iff]; tauto
  · simp only [Except.ok.injEq, eq_comm (a := l')]
    constructor
    · intro h
      exact ⟨by omega, by omega, h⟩
    · exact fun h => h.2.2

/-- One operation of a list, or none if it was discarded. -/
def runLeaf (sch : Schema) (col : Column) (x : Option Leaf)
    (l : List Value) : Except ApplyError (List Value) :=
  match x with
  | none => .ok l
  | some x =>
    match x.elem with
    | .index i => onListIndex sch col l i.toNat x.op
    | .key _ => .error .invalidPath

/-- An operation that fits a list of length `n`: its prior size is the
list's, its indexes are in range, and a move goes somewhere. -/
def LeafFits (n : ℕ) (x : Leaf) : Prop :=
  ∃ i, x.elem = .index i ∧
    match x.op with
    | .update _ _ p => i.toNat < n ∧ p.toNat = n
    | .arrayInsert _ p => i.toNat ≤ n ∧ p.toNat = n
    | .arrayMove k p => i.toNat < n ∧ k.toNat < n ∧ i ≠ k ∧ p.toNat = n
    | .arrayErase p => i.toNat < n ∧ p.toNat = n
    | _ => False

/-- `ArrayMove`. -/
def Op.isMove : Op → Bool
  | .arrayMove .. => true
  | _ => false

/-- An operation that fits the list and whose payload the column takes. A
move has no payload, and what it moves is not looked at. -/
def LeafValid (sch : Schema) (col : Column) (l : List Value) (x : Leaf) :
    Prop :=
  LeafFits l.length x
    ∧ (Op.isMove x.op = false → ∃ l', runLeaf sch col (some x) l = .ok l')

/-- The square of two list operations closes, and each transformed
operation that survives is valid on the list it is run on. -/
structure Closes (sch : Schema) (col : Column) (l : List Value)
    (x y : Leaf) (x' y' : Option Leaf) : Prop where
  converges : Ot.Converges (runLeaf sch col (some x)) (runLeaf sch col y')
    (runLeaf sch col (some y)) (runLeaf sch col x') l
  leftValid : ∀ z m, x' = some z → runLeaf sch col (some y) l = .ok m →
    LeafValid sch col m z
  rightValid : ∀ z m, y' = some z → runLeaf sch col (some x) l = .ok m →
    LeafValid sch col m z

theorem Closes.swap {x : Leaf} (h : Closes sch col l x y x' y') :
    Closes sch col l y x y' x' :=
  ⟨h.converges.symm, h.rightValid, h.leftValid⟩

/-- An operation that fits a list, if there is one, and what it makes of
the list. -/
structure Runs (sch : Schema) (col : Column) (x : Option Leaf)
    (l l' : List Value) : Prop where
  run : runLeaf sch col x l = .ok l'
  fits : ∀ z, x = some z → LeafFits l.length z

theorem Runs.of_some {x : Leaf} (hrun : runLeaf sch col (some x) l = .ok l')
    (hfits : LeafFits l.length x) : Runs sch col (some x) l l' :=
  ⟨hrun, fun _ hz => Option.some.inj hz ▸ hfits⟩

theorem Runs.none : Runs sch col none l l := ⟨rfl, fun _ hz => nomatch hz⟩

/-- A square from its four sides. -/
theorem Closes.of_runs {x : Leaf} {a b c : List Value}
    (hx : runLeaf sch col (some x) l = .ok a)
    (hy : runLeaf sch col (some y) l = .ok b) (hy' : Runs sch col y' a c)
    (hx' : Runs sch col x' b c) : Closes sch col l x y x' y' where
  converges := (Ot.converges_iff hx hy).2 ⟨c, hy'.run, hx'.run⟩
  leftValid := by
    rintro z m rfl hm
    cases hy.symm.trans hm
    exact ⟨hx'.fits z rfl, fun _ => ⟨c, hx'.run⟩⟩
  rightValid := by
    rintro z m rfl hm
    cases hx.symm.trans hm
    exact ⟨hy'.fits z rfl, fun _ => ⟨c, hy'.run⟩⟩

-- ===== array vs array

variable {i j k h n m : UInt32} {lv rv : Payload Interned Buffered}
  {v w : Value}

theorem runs_arrayInsert (hi : i.toNat ≤ l.length)
    (hn : n.toNat = l.length) (hv : insertedValue sch col lv = .ok v) :
    Runs sch col (some ⟨.index i, .arrayInsert lv n⟩) l
      (l.insertIdx i.toNat v) :=
  .of_some (arrayInsert_eq_ok.2 ⟨hi, hn, v, hv, rfl⟩) ⟨_, rfl, hi, hn⟩

theorem runs_arrayErase (hi : i.toNat < l.length)
    (hn : n.toNat = l.length) :
    Runs sch col (some ⟨.index i, .arrayErase n⟩) l (l.eraseIdx i.toNat) := by
  refine .of_some ?_ ⟨_, rfl, hi, hn⟩
  unfold runLeaf
  exact arrayErase_eq_ok.2 ⟨hi, hn, rfl⟩

/-- The same element, in another list. -/
theorem nestedAt_congr {m : List Value} {a b : ℕ} (h : m[a]? = l[b]?) :
    nestedAt m a = nestedAt l b := by
  unfold nestedAt
  rw [h]

theorem runs_arrayMove (hi : i.toNat < l.length)
    (hk : k.toNat < l.length) (hik : i ≠ k) (hn : n.toNat = l.length)
    (hc : nestedAt l i.toNat = false) :
    Runs sch col (some ⟨.index i, .arrayMove k n⟩) l
      (Ot.moveIdx l i.toNat k.toNat) := by
  refine .of_some ?_ ⟨_, rfl, hi, hk, hik, hn⟩
  unfold runLeaf
  exact arrayMove_eq_ok.2
    ⟨hi, hk, toNat_ne hik, hn, hc, rfl⟩

theorem nestedAt_of_runLeaf
    (h : runLeaf sch col (some ⟨.index i, .arrayMove k n⟩) l = .ok l') :
    nestedAt l i.toNat = false := by
  have h' : onListIndex sch col l i.toNat (.arrayMove k n) = .ok l' := h
  exact (arrayMove_eq_ok.1 h').2.2.2.2.1

/-- A move that may have become a no-op and been discarded. -/
theorem runs_arrayMove_or_none (hi : i.toNat < l.length)
    (hk : k.toNat < l.length) (hn : n.toNat = l.length)
    (hc : nestedAt l i.toNat = false) :
    Runs sch col
      (if i = k then none else some ⟨.index i, .arrayMove k n⟩) l
      (Ot.moveIdx l i.toNat k.toNat) := by
  split
  · next h =>
      rw [h, moveIdx_self]
      exact .none
  · next h => exact runs_arrayMove hi hk h hn hc

theorem arrayInsert_arrayInsert_closes (leftFirst : Bool)
    (hi : i.toNat ≤ l.length) (hj : j.toNat ≤ l.length)
    (hn : n.toNat = l.length) (hlen : l.length + 1 < 2 ^ 32)
    (hv : insertedValue sch col lv = .ok v)
    (hw : insertedValue sch col rv = .ok w) :
    let s := insertionVsInsertion leftFirst i j
    Closes sch col l ⟨.index i, .arrayInsert lv n⟩
      ⟨.index j, .arrayInsert rv n⟩
      (some ⟨.index s.1, .arrayInsert lv (n + 1)⟩)
      (some ⟨.index s.2, .arrayInsert rv (n + 1)⟩) := by
  intro s
  obtain ⟨h1, h2⟩ := insertionVsInsertion_toNat leftFirst
    (k := i) (h := j) (by omega) (by omega)
  have hn' : (n + 1).toNat = l.length + 1 := by
    rw [toNat_add_one (by omega), hn]
  have hi' := List.length_insertIdx_of_le_length hi v
  have hj' := List.length_insertIdx_of_le_length hj w
  have hs : s.1.toNat ≤ l.length + 1 ∧ s.2.toNat ≤ l.length + 1 := by
    rw [h1, h2]
    unfold Ot.insertionVsInsertion
    split_ifs <;> constructor <;> simp only <;> omega
  have hy' := runs_arrayInsert (i := s.2) (n := n + 1)
    (hi' ▸ hs.2) (hn'.trans hi'.symm) hw
  have hx' := runs_arrayInsert (i := s.1) (n := n + 1)
    (hj' ▸ hs.1) (hn'.trans hj'.symm) hv
  rw [h2, insertIdx_insertIdx _ hi hj, ← h1] at hy'
  exact .of_runs (runs_arrayInsert hi hn hv).run
    (runs_arrayInsert hj hn hw).run hy' hx'

theorem arrayMove_arrayInsert_closes (leftFirst : Bool)
    (hi : i.toNat < l.length) (hk : k.toNat < l.length) (hik : i ≠ k)
    (hc : nestedAt l i.toNat = false) (hj : j.toNat ≤ l.length)
    (hn : n.toNat = l.length) (hlen : l.length + 1 < 2 ^ 32)
    (hw : insertedValue sch col rv = .ok w) :
    let e := insertionVsRemoval j i
    let s := insertionVsInsertion leftFirst k e.1
    Closes sch col l ⟨.index i, .arrayMove k n⟩
      ⟨.index j, .arrayInsert rv n⟩
      (some ⟨.index e.2, .arrayMove s.1 (n + 1)⟩)
      (some ⟨.index s.2, .arrayInsert rv n⟩) := by
  intro e s
  obtain ⟨he1, he2⟩ := insertionVsRemoval_toNat (k := j) (j := i) (by omega)
  have he1' : e.1.toNat < l.length :=
    (insertionVsRemoval_lt (Nat.lt_succ_of_le hj) hi hlen.le).1
  obtain ⟨hs1, hs2⟩ := insertionVsInsertion_toNat leftFirst (k := k)
    (h := e.1) (by omega) (by omega)
  rw [he1] at hs1 hs2
  have hn' : (n + 1).toNat = l.length + 1 := by
    rw [toNat_add_one (by omega), hn]
  have hk' := length_moveIdx (i := i.toNat) hk
  have hj' := List.length_insertIdx_of_le_length hj w
  -- The moved element never lands where it already is.
  have hne : e.2.toNat ≠ s.1.toNat ∧ e.2.toNat < l.length + 1
      ∧ s.1.toNat < l.length + 1 ∧ s.2.toNat ≤ l.length := by
    have := toNat_ne hik
    rw [he2, hs1, hs2]
    unfold Ot.insertionVsInsertion Ot.insertionVsRemoval Ot.afterInsert
    split_ifs <;> refine ⟨?_, ?_, ?_, ?_⟩ <;> simp only <;> omega
  have hy' := runs_arrayInsert (i := s.2) (n := n)
    (hk' ▸ hne.2.2.2) (hn.trans hk'.symm) hw
  have hc' : nestedAt (l.insertIdx j.toNat w) e.2.toNat = false := by
    rw [he2]
    exact (nestedAt_congr getElem?_insertIdx_after).trans hc
  have hx' : Runs sch col _ _ _ := runs_arrayMove (n := n + 1)
    (hj' ▸ hne.2.1) (hj' ▸ hne.2.2.1) (fun h => hne.1 (congrArg _ h))
    (hn'.trans hj'.symm) hc'
  rw [hs2, insertIdx_moveIdx leftFirst hi hk hj, ← he2, ← hs1] at hy'
  exact .of_runs (runs_arrayMove hi hk hik hn hc).run
    (runs_arrayInsert hj hn hw).run hy' hx'

theorem arrayErase_arrayInsert_closes (hi : i.toNat < l.length)
    (hj : j.toNat ≤ l.length) (hn : n.toNat = l.length)
    (hlen : l.length + 1 < 2 ^ 32)
    (hw : insertedValue sch col rv = .ok w) :
    let e := insertionVsRemoval j i
    Closes sch col l ⟨.index i, .arrayErase n⟩
      ⟨.index j, .arrayInsert rv n⟩
      (some ⟨.index e.2, .arrayErase (n + 1)⟩)
      (some ⟨.index e.1, .arrayInsert rv (n - 1)⟩) := by
  intro e
  obtain ⟨he1, he2⟩ := insertionVsRemoval_toNat (k := j) (j := i) (by omega)
  have hn1 : (n + 1).toNat = l.length + 1 := by
    rw [toNat_add_one (by omega), hn]
  have hn2 : (n - 1).toNat = l.length - 1 := by
    rw [toNat_sub_one (by omega), hn]
  have hi' := List.length_eraseIdx_of_lt hi
  have hj' := List.length_insertIdx_of_le_length hj w
  have he : e.1.toNat < l.length ∧ _ :=
    insertionVsRemoval_lt (Nat.lt_succ_of_le hj) hi hlen.le
  have hy' := runs_arrayInsert (i := e.1) (n := n - 1)
    (hi' ▸ Nat.le_pred_of_lt he.1) (hn2.trans hi'.symm) hw
  rw [he1, ← insertIdx_eraseIdx hi, ← he2] at hy'
  exact .of_runs (runs_arrayErase hi hn).run (runs_arrayInsert hj hn hw).run
    hy' (runs_arrayErase (hj' ▸ he.2) (hn1.trans hj'.symm))

theorem arrayErase_arrayErase_closes (hij : i ≠ j)
    (hi : i.toNat < l.length) (hj : j.toNat < l.length)
    (hn : n.toNat = l.length) :
    let e := removalVsRemoval i j
    Closes sch col l ⟨.index i, .arrayErase n⟩ ⟨.index j, .arrayErase n⟩
      (some ⟨.index e.1, .arrayErase (n - 1)⟩)
      (some ⟨.index e.2, .arrayErase (n - 1)⟩) := by
  intro e
  have hne := toNat_ne hij
  obtain ⟨he1, he2⟩ := removalVsRemoval_toNat hij
  have hn' : (n - 1).toNat = l.length - 1 := by
    rw [toNat_sub_one (by omega), hn]
  have hi' := List.length_eraseIdx_of_lt hi
  have hj' := List.length_eraseIdx_of_lt hj
  have he : e.1.toNat < _ ∧ e.2.toNat < _ := removalVsRemoval_lt hij hi hj
  have hy' : Runs sch col _ _ _ := runs_arrayErase (i := e.2)
    (n := n - 1) (hi' ▸ he.2) (hn'.trans hi'.symm)
  rw [he2, eraseIdx_eraseIdx hne, ← he1] at hy'
  exact .of_runs (runs_arrayErase hi hn).run (runs_arrayErase hj hn).run
    hy' (runs_arrayErase (hj' ▸ he.1) (hn'.trans hj'.symm))

/-- The moved element is erased: the move is dropped, and the erasure
follows the element. -/
theorem arrayErase_arrayMove_same_closes (hi : i.toNat < l.length)
    (hh : h.toNat < l.length) (hih : i ≠ h)
    (hc : nestedAt l i.toNat = false) (hn : n.toNat = l.length) :
    Closes sch col l ⟨.index i, .arrayErase n⟩ ⟨.index i, .arrayMove h n⟩
      (some ⟨.index h, .arrayErase n⟩) none := by
  have hm := length_moveIdx (i := i.toNat) hh
  have hx' : Runs sch col _ _ _ := runs_arrayErase (i := h) (n := n)
    (hm ▸ hh) (hn.trans hm.symm)
  rw [eraseIdx_moveIdx_self hi] at hx'
  exact .of_runs (runs_arrayErase hi hn).run
    (runs_arrayMove hi hh hih hn hc).run .none hx'

theorem arrayErase_arrayMove_closes (hij : i ≠ j)
    (hi : i.toNat < l.length) (hj : j.toNat < l.length)
    (hh : h.toNat < l.length) (hjh : j ≠ h)
    (hc : nestedAt l j.toNat = false) (hn : n.toNat = l.length) :
    let e := removalVsRemoval i j
    let s := insertionVsRemoval h e.1
    Closes sch col l ⟨.index i, .arrayErase n⟩ ⟨.index j, .arrayMove h n⟩
      (some ⟨.index s.2, .arrayErase n⟩)
      (if e.2 = s.1 then none
        else some ⟨.index e.2, .arrayMove s.1 (n - 1)⟩) := by
  intro e s
  have hne := toNat_ne hij
  have := n.toNat_lt
  obtain ⟨he1, he2⟩ := removalVsRemoval_toNat hij
  have he : e.1.toNat < _ ∧ e.2.toNat < _ := removalVsRemoval_lt hij hi hj
  obtain ⟨hs1, hs2⟩ := insertionVsRemoval_toNat (k := h) (j := e.1)
    (by omega)
  have hs : s.1.toNat < _ ∧ s.2.toNat < _ :=
    insertionVsRemoval_lt hh he.1 (by omega)
  rw [he1] at hs1 hs2
  have hn' : (n - 1).toNat = l.length - 1 := by
    rw [toNat_sub_one (by omega), hn]
  have hi' := List.length_eraseIdx_of_lt hi
  have hm := length_moveIdx (i := j.toNat) hh
  have hx' : Runs sch col _ _ _ := runs_arrayErase (i := s.2) (n := n)
    (hm ▸ hs.2) (hn.trans hm.symm)
  rw [hs2, eraseIdx_moveIdx hne hi hj, ← he2, ← hs1] at hx'
  have hc' : nestedAt (l.eraseIdx i.toNat) e.2.toNat = false := by
    rw [he2]
    exact (nestedAt_congr (getElem?_eraseIdx_after hne)).trans hc
  exact .of_runs (runs_arrayErase hi hn).run
    (runs_arrayMove hj hh hjh hn hc).run (runs_arrayMove_or_none
      (hi' ▸ he.2) (hi' ▸ hs.1) (hn'.trans hi'.symm) hc') hx'

/-- One element moved on both sides: the later move counts, from where
the earlier one took the element. -/
theorem arrayMove_arrayMove_same_closes (hi : i.toNat < l.length)
    (hk : k.toNat < l.length) (hik : i ≠ k) (hh : h.toNat < l.length)
    (hih : i ≠ h) (hc : nestedAt l i.toNat = false)
    (hn : n.toNat = l.length) :
    Closes sch col l ⟨.index i, .arrayMove k n⟩ ⟨.index i, .arrayMove h n⟩
      none (if k = h then none else some ⟨.index k, .arrayMove h n⟩) := by
  have hm := length_moveIdx (i := i.toNat) hk
  have hmoved : (moveIdx l i.toNat k.toNat)[k.toNat]? = l[i.toNat]? := by
    simpa [afterMove] using getElem?_moveIdx_after (j := i.toNat) hi hk
  have hy' : Runs sch col _ _ _ := runs_arrayMove_or_none (i := k)
    (k := h) (n := n) (hm ▸ hk) (hm ▸ hh) (hn.trans hm.symm)
    ((nestedAt_congr hmoved).trans hc)
  rw [moveIdx_moveIdx_same hi hk] at hy'
  exact .of_runs (runs_arrayMove hi hk hik hn hc).run
    (runs_arrayMove hi hh hih hn hc).run hy' .none

/-- Where a move takes another element, in the steps of the rules. -/
theorem nestedAt_moveIdx {i k j : ℕ} (hi : i < l.length)
    (hk : k < l.length) (hij : i ≠ j) (hc : nestedAt l j = false) :
    nestedAt (moveIdx l i k) (afterInsert k (afterErase i j)) = false := by
  have := getElem?_moveIdx_after (l := l) (j := j) hi hk
  rw [afterMove, if_neg hij.symm] at this
  exact (nestedAt_congr this).trans hc

theorem arrayMove_arrayMove_closes (leftFirst : Bool) (hij : i ≠ j)
    (hi : i.toNat < l.length) (hk : k.toNat < l.length) (hik : i ≠ k)
    (hj : j.toNat < l.length) (hh : h.toNat < l.length) (hjh : j ≠ h)
    (hci : nestedAt l i.toNat = false) (hcj : nestedAt l j.toNat = false)
    (hn : n.toNat = l.length) :
    let e := removalVsRemoval i j
    let a := insertionVsRemoval k e.2
    let b := insertionVsRemoval h e.1
    let s := insertionVsInsertion leftFirst a.1 b.1
    Closes sch col l ⟨.index i, .arrayMove k n⟩ ⟨.index j, .arrayMove h n⟩
      (if b.2 = s.1 then none else some ⟨.index b.2, .arrayMove s.1 n⟩)
      (if a.2 = s.2 then none else some ⟨.index a.2, .arrayMove s.2 n⟩) := by
  intro e a b s
  have hne := toNat_ne hij
  have := n.toNat_lt
  obtain ⟨he1, he2⟩ := removalVsRemoval_toNat hij
  have he : e.1.toNat < _ ∧ e.2.toNat < _ := removalVsRemoval_lt hij hi hj
  obtain ⟨ha1, ha2⟩ := insertionVsRemoval_toNat (k := k) (j := e.2)
    (by omega)
  have ha : a.1.toNat < _ ∧ a.2.toNat < _ :=
    insertionVsRemoval_lt hk he.2 (by omega)
  obtain ⟨hb1, hb2⟩ := insertionVsRemoval_toNat (k := h) (j := e.1)
    (by omega)
  have hb : b.1.toNat < _ ∧ b.2.toNat < _ :=
    insertionVsRemoval_lt hh he.1 (by omega)
  obtain ⟨hs1, hs2⟩ := insertionVsInsertion_toNat leftFirst (k := a.1)
    (h := b.1) (by omega) (by omega)
  have hs : s.1.toNat < l.length ∧ s.2.toNat < l.length := by
    rw [hs1, hs2]
    unfold Ot.insertionVsInsertion
    split_ifs <;> constructor <;> simp only <;> omega
  rw [ha1, hb1, he1, he2] at hs1 hs2
  rw [he2] at ha2
  rw [he1] at hb2
  have hl := length_moveIdx (i := i.toNat) hk
  have hr := length_moveIdx (i := j.toNat) hh
  have hcy : nestedAt (moveIdx l i.toNat k.toNat) a.2.toNat = false := by
    rw [ha2]
    exact nestedAt_moveIdx hi hk hne hcj
  have hcx : nestedAt (moveIdx l j.toNat h.toNat) b.2.toNat = false := by
    rw [hb2]
    exact nestedAt_moveIdx hj hh hne.symm hci
  have hy' : Runs sch col _ _ _ := runs_arrayMove_or_none (i := a.2)
    (k := s.2) (n := n) (hl ▸ ha.2) (hl ▸ hs.2) (hn.trans hl.symm) hcy
  rw [congrArg (moveIdx _ · _) ha2, congrArg (moveIdx _ _) hs2,
    moveIdx_moveIdx leftFirst hne hi hk hj hh, ← hb2, ← hs1] at hy'
  exact .of_runs (runs_arrayMove hi hk hik hn hci).run
    (runs_arrayMove hj hh hjh hn hcj).run hy' (runs_arrayMove_or_none
      (hr ▸ hb.2) (hr ▸ hs.1) (hn.trans hr.symm) hcx)

end BarqSync
