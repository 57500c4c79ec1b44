/-
Two operations on the SAME set: `SetInsert`, `SetErase` and `Clear`.

# Two notions of the same value

A rule may discard one of two instructions that name the same value. For
the rules "the same" is `samePayload` or, between two erasures, the
equality of the payloads' REPRESENTATIONS (`Payload.rawEq`), which for a
string is its place in the string buffer of its own changeset. For the
set it is where the search for the value ends and what it finds there.
Where a rule finds two values the same that the set tells apart, it drops
an instruction that would have had an effect; where it finds them
different and the set does not, it keeps an insertion and an erasure that
undo each other.

# Results

What the rules drop is `setVerdict`. The two orders lead to the same set
exactly when what is dropped makes no difference and what is kept commutes
(`SetsAgree`, with the conditions of the library); two sets are the same
when their elements are, one by one, equal for the column or identical.
The searches are those of `std::lower_bound`, which must be made in
partitioned ranges (`SearchesDefined`).
-/
import BarqSync.Transform.Proofs.Fields

namespace BarqSync

open Ot SortedSet

-- ===== operations

/-- An operation on a set, its payload resolved. -/
inductive SetOp
  | insert (m : Mixed)
  | erase (m : Mixed)
  | clear
deriving DecidableEq, Repr

/-- The operation of an instruction, if it is accepted. -/
def setOp (sch : Schema) (col : Column) : Op → Except ApplyError SetOp
  | .clear type =>
    if type = .single ∨ type = .set then .ok .clear
    else .error .collectionTypeMismatch
  | .setInsert value => SetOp.insert <$> setElement sch col true value
  | .setErase value => SetOp.erase <$> setElement sch col false value
  | _ => .error .invalidPath

/-- What it does to a set. -/
def SetOp.run (sch : Schema) (col : Column) (s : List Mixed) :
    SetOp → List Mixed
  | .insert m => setInsert sch col s m
  | .erase m => setErase sch col s m
  | .clear => []

/-- It searches in a partitioned range. -/
def SetOp.Searches (sch : Schema) (col : Column) (s : List Mixed) :
    SetOp → Prop
  | .insert m | .erase m =>
    Searchable (elementLess sch.objLink col.type) s m
  | .clear => True

/-- Every search of the two orders does. -/
def SearchesDefined (sch : Schema) (col : Column) (s : List Mixed)
    (x y : SetOp) : Prop :=
  x.Searches sch col s ∧ y.Searches sch col s
    ∧ y.Searches sch col (x.run sch col s)
    ∧ x.Searches sch col (y.run sch col s)

instance (sch : Schema) (col : Column) (s : List Mixed) (x : SetOp) :
    Decidable (x.Searches sch col s) :=
  match x with
  | .insert m => inferInstanceAs (Decidable (Searchable _ s m))
  | .erase m => inferInstanceAs (Decidable (Searchable _ s m))
  | .clear => isTrue trivial

/-- Elements that are equal for the column, or identical: a NaN of a
column of floats is not even equal to itself. -/
def SameMember (sch : Schema) (col : Column) (a b : Mixed) : Prop :=
  elementEqual sch.objLink col.type a b = true ∨ a = b

-- ===== the rules

/-- Which of two instructions a rule discards. -/
inductive Dropped
  | neither
  | left
  | right
deriving DecidableEq, Repr

/-- What is left of the left and of the right instruction. -/
def Dropped.keepLeft {α : Type} (l : α) : Dropped → Option α
  | .left => none
  | _ => some l

@[inherit_doc Dropped.keepLeft]
def Dropped.keepRight {α : Type} (r : α) : Dropped → Option α
  | .right => none
  | _ => some r

@[simp] theorem Dropped.map_keepLeft {α β : Type} (f : α → β) (l : α)
    (d : Dropped) : (d.keepLeft l).map f = d.keepLeft (f l) := by
  cases d <;> rfl

@[simp] theorem Dropped.map_keepRight {α β : Type} (f : α → β) (r : α)
    (d : Dropped) : (d.keepRight r).map f = d.keepRight (f r) := by
  cases d <;> rfl

/-- The payloads are the same for the rule that merges the two. -/
def rulePayloads : Op → Op → Bool
  | .setInsert v, .setInsert w => samePayload v w
  | .setErase v, .setInsert w => samePayload v w
  | .setInsert v, .setErase w => samePayload w v
  | .setErase v, .setErase w => v.rawEq w
  | _, _ => false

/-- What the rules make of two operations on one set. -/
def setVerdict (ls rs : Discriminant) (same : Bool) :
    SetOp → SetOp → Dropped
  | .clear, .clear => if ls.lt rs then .left else .right
  | .clear, _ => .right
  | _, .clear => .left
  | .insert _, .erase _ =>
    if ¬same then .neither else if rs.lt ls then .right else .left
  | _, _ => if ¬same then .neither else if ls.lt rs then .left else .right

section Rules

variable {sch : Schema} {col : Column} {ls rs : Discriminant}
  {e e' : Elem} {op op' : Op} {x y : SetOp} {s : List Mixed}

theorem setOp_cases (h : setOp sch col op = .ok x) :
    (∃ v m, op = .setInsert v ∧ x = .insert m)
      ∨ (∃ v m, op = .setErase v ∧ x = .erase m)
      ∨ ∃ type, op = .clear type ∧ x = .clear := by
  cases op with
  | setInsert v =>
    obtain ⟨m, -, rfl⟩ := map_eq_ok.1 h
    exact .inl ⟨v, m, rfl, rfl⟩
  | setErase v =>
    obtain ⟨m, -, rfl⟩ := map_eq_ok.1 h
    exact .inr (.inl ⟨v, m, rfl, rfl⟩)
  | clear type =>
    simp only [setOp] at h
    split at h
    · cases h
      exact .inr (.inr ⟨type, rfl, rfl⟩)
    · cases h
  | _ => cases h

/-- The rules of the source are the verdict. -/
theorem mergeSlots_sets (he : sameElement e e' = true)
    (hx : setOp sch col op = .ok x) (hy : setOp sch col op' = .ok y) :
    mergeSlots ls rs ⟨e, op⟩ ⟨e', op'⟩
      = .ok ((setVerdict ls rs (rulePayloads op op') x y).keepLeft ⟨e, op⟩,
        (setVerdict ls rs (rulePayloads op op') x y).keepRight
          ⟨e', op'⟩) := by
  have he' := sameElement_comm.trans he
  rcases setOp_cases hx with ⟨v, m, rfl, rfl⟩ | ⟨v, m, rfl, rfl⟩
      | ⟨t, rfl, rfl⟩ <;>
    rcases setOp_cases hy with ⟨v', m', rfl, rfl⟩ | ⟨v', m', rfl, rfl⟩
      | ⟨t', rfl, rfl⟩ <;>
    simp only [mergeSlots, opType, mergeOrdered, he, he', setVerdict,
      rulePayloads, discardOlder, keepBoth] <;>
    split_ifs <;> simp_all [Dropped.keepLeft, Dropped.keepRight]

theorem onField_set (hcol : col.collection = .set)
    (hx : setOp sch col op = .ok x) (s : List Mixed) :
    onField sch col (.set s) op = .ok (.set (x.run sch col s)) := by
  simp only [onField, hcol]
  cases op with
  | clear type =>
    simp only [setOp] at hx
    split at hx
    · next htype =>
        cases hx
        simp [onSet, clearColumn, htype, SetOp.run, Value.emptySet]
    · cases hx
  | setInsert value =>
    obtain ⟨m, hm, rfl⟩ := map_eq_ok.1 hx
    simp [onSet, hm, SetOp.run]
  | setErase value =>
    obtain ⟨m, hm, rfl⟩ := map_eq_ok.1 hx
    simp [onSet, hm, SetOp.run]
  | _ => cases hx

/-- What a set accepts is one of the operations. -/
theorem setOp_of_onField {w : Value} (hcol : col.collection = .set)
    (h : onField sch col (.set s) op = .ok w) :
    ∃ x, setOp sch col op = .ok x := by
  simp only [onField, hcol] at h
  cases op with
  | clear type =>
    simp only [onSet, clearColumn] at h
    split at h
    · next htype => exact ⟨.clear, if_pos htype⟩
    · cases h
  | setInsert value =>
    obtain ⟨m, hm, -⟩ := bind_eq_ok.1 h
    exact ⟨.insert m, map_eq_ok.2 ⟨m, hm, rfl⟩⟩
  | setErase value =>
    obtain ⟨m, hm, -⟩ := bind_eq_ok.1 h
    exact ⟨.erase m, map_eq_ok.2 ⟨m, hm, rfl⟩⟩
  | _ => cases h

end Rules

-- ===== agreement

/-- An operation before another one makes no difference. -/
def SetOp.Lost (sch : Schema) (col : Column) (sim : Mixed → Mixed → Prop)
    (s : List Mixed) (x y : SetOp) : Prop :=
  let less := elementLess sch.objLink col.type
  let equal := elementEqual sch.objLink col.type
  match x, y with
  | .insert a, .insert b => InsertLost less equal sim s a b
  | .erase a, .erase b => EraseLost less equal s a b
  | .erase a, .insert b => EraseOverwritten less equal sim s a b
  | .insert b, .erase a => InsertUndone less equal s a b
  | _, .clear => True
  | .clear, _ => False

/-- The order of two operations makes no difference. -/
def SetOp.Commute (sch : Schema) (col : Column)
    (sim : Mixed → Mixed → Prop) (s : List Mixed) (x y : SetOp) : Prop :=
  let less := elementLess sch.objLink col.type
  let equal := elementEqual sch.objLink col.type
  match x, y with
  | .insert a, .insert b => InsertsCommute less equal sim s a b
  | .erase a, .erase b => ErasesCommute less equal s a b
  | .erase a, .insert b => EraseInsertCommute less equal s a b
  | .insert b, .erase a => EraseInsertCommute less equal s a b
  | _, _ => False

/-- What a verdict drops makes no difference, and what it keeps
commutes. -/
def SetsAgree (sch : Schema) (col : Column) (sim : Mixed → Mixed → Prop)
    (s : List Mixed) (x y : SetOp) : Dropped → Prop
  | .neither => x.Commute sch col sim s y
  | .left => x.Lost sch col sim s y
  | .right => y.Lost sch col sim s x

/-- The set after the left instruction and what is left of the right
one. -/
def leftFirst (sch : Schema) (col : Column) (s : List Mixed)
    (x y : SetOp) : Dropped → List Mixed
  | .right => x.run sch col s
  | _ => y.run sch col (x.run sch col s)

/-- The set after the right instruction and what is left of the left
one. -/
def rightFirst (sch : Schema) (col : Column) (s : List Mixed)
    (x y : SetOp) : Dropped → List Mixed
  | .left => y.run sch col s
  | _ => x.run sch col (y.run sch col s)

section Agreement

variable {sch : Schema} {col : Column} {sim : Mixed → Mixed → Prop}
  {ls rs : Discriminant} {same : Bool} {x y : SetOp} {s : List Mixed}
  (hs : SortedSet.Alike (elementEqual sch.objLink col.type) sim)
  (h : SearchesDefined sch col s x y)

include hs h

theorem SetOp.lost_iff (hclear : x = .clear → y = .clear) :
    List.Forall₂ sim (y.run sch col (x.run sch col s)) (y.run sch col s)
      ↔ x.Lost sch col sim s y := by
  have hc := element_comparison sch.objLink col.type
  obtain ⟨hsx, hsy, hxy, hyx⟩ := h
  cases x <;> cases y
  · exact insert_lost_iff hsx.split hsy.split hc hs hxy
  · exact insert_undone_iff hsy.split hsx.split hs hc hxy
  · simp [SetOp.run, SetOp.Lost]
  · exact erase_overwritten_iff hsx.split hsy.split hs
  · exact erase_lost_iff hsx.split hsy.split hs
  all_goals simp [SetOp.run, SetOp.Lost] at hclear ⊢

theorem SetOp.commute_iff (hx : x ≠ .clear) (hy : y ≠ .clear) :
    List.Forall₂ sim (y.run sch col (x.run sch col s))
        (x.run sch col (y.run sch col s))
      ↔ x.Commute sch col sim s y := by
  have hc := element_comparison sch.objLink col.type
  obtain ⟨hsx, hsy, hxy, hyx⟩ := h
  cases x <;> cases y
  · exact insert_insert_iff hsx.split hsy.split hyx hc hxy hs
  · exact hs.forall₂_comm.trans (erase_insert_iff hsy.split hsx.split
      hs hc hxy)
  · simp at hy
  · exact erase_insert_iff hsx.split hsy.split hs hc hyx
  · exact erase_erase_iff hsx.split hsy.split hs
  all_goals simp at hx hy

/-- The two orders lead to the same set exactly when the verdict agrees
with it. -/
theorem setsAgree_iff :
    let d := setVerdict ls rs same x y
    List.Forall₂ sim (leftFirst sch col s x y d)
        (rightFirst sch col s x y d)
      ↔ SetsAgree sch col sim s x y d := by
  intro d
  have hclear : (d = .neither → x ≠ .clear ∧ y ≠ .clear)
      ∧ (d = .left → x = .clear → y = .clear)
      ∧ (d = .right → y = .clear → x = .clear) := by
    cases x <;> cases y <;> simp [d, setVerdict, ite_eq_iff]
  cases hd : d with
  | neither =>
    exact SetOp.commute_iff hs h (hclear.1 hd).1 (hclear.1 hd).2
  | left => exact SetOp.lost_iff hs h (hclear.2.1 hd)
  | right =>
    exact hs.forall₂_comm.trans
      (SetOp.lost_iff hs ⟨h.2.1, h.1, h.2.2.2, h.2.2.1⟩ (hclear.2.2 hd))

end Agreement

theorem alike_sameMember (sch : Schema) (col : Column) :
    SortedSet.Alike (elementEqual sch.objLink col.type) (SameMember sch col) where
  refl a := .inr rfl
  symm a b h := by
    rcases h with h | h
    · exact .inl ((element_comparison _ _).symm b a ▸ h)
    · exact .inr h.symm
  cases a b h := h

theorem alike_eq (sch : Schema) (col : Column) :
    SortedSet.Alike (elementEqual sch.objLink col.type) Eq :=
  ⟨fun _ => rfl, fun _ _ h => h.symm, fun _ _ h => .inr h⟩

-- ===== paths

/-- The set a path leads to, with its column. -/
def setAt (sch : Schema) :
    Place → Value → List Slot → Option (Column × List Mixed)
  | .object t, .object f, [.key k] =>
    match t.columns k, f k with
    | some col, .set s => if col.collection = .set then some (col, s) else none
    | _, _ => none
  | place, v, e :: e' :: rest =>
    match enter sch place e, child place v e with
    | .ok inner, .ok c => setAt sch inner c (e' :: rest)
    | _, _ => none
  | _, _, _ => none

/-- The container with another set at the path. -/
def putSet (sch : Schema) (s : List Mixed) :
    Place → Value → List Slot → Value
  | place, v, [e] => withChild place v e (.set s)
  | place, v, e :: e' :: rest =>
    match enter sch place e, child place v e with
    | .ok inner, .ok c =>
      withChild place v e (putSet sch s inner c (e' :: rest))
    | _, _ => v
  | _, v, [] => v

section Paths

variable {sch : Schema} {col : Column} {s : List Mixed} {x y : SetOp}
  {f : Bytes → Value} {ls rs : Discriminant} {place : Place} {v : Value}
  {op op' : Op}

theorem setAt_field {t : Table} {k : Bytes}
    (h : setAt sch (.object t) (.object f) [.key k] = some (col, s)) :
    t.columns k = some col ∧ f k = .set s ∧ col.collection = .set := by
  simp only [setAt] at h
  split at h
  · next c s' hc hs =>
      split at h
      · next hcoll =>
          cases h
          exact ⟨hc, hs, hcoll⟩
      · cases h
  · cases h

/-- What a path to a set finds below its first element. -/
theorem setAt_cons {e e' : Slot} {rest : List Slot}
    (h : setAt sch place v (e :: e' :: rest) = some (col, s)) :
    ∃ inner c, enter sch place e = .ok inner ∧ child place v e = .ok c
      ∧ setAt sch inner c (e' :: rest) = some (col, s) := by
  have hunfold : setAt sch place v (e :: e' :: rest)
      = match enter sch place e, child place v e with
        | .ok inner, .ok c => setAt sch inner c (e' :: rest)
        | _, _ => none := by
    cases place <;> cases v <;> cases e <;> rfl
  rw [hunfold] at h
  split at h
  · next inner c hi hc => exact ⟨inner, c, hi, hc, h⟩
  · cases h

theorem putSet_cons {inner : Place} {c : Value} {e e' : Slot}
    {rest : List Slot} (hi : enter sch place e = .ok inner)
    (hc : child place v e = .ok c) (a : List Mixed) :
    putSet sch a place v (e :: e' :: rest)
      = withChild place v e (putSet sch a inner c (e' :: rest)) := by
  simp [putSet, hi, hc]

/-- A path to a set ends in a field of an object. -/
theorem setAt_single {e : Slot} (h : setAt sch place v [e] = some (col, s)) :
    ∃ t f k, place = .object t ∧ v = .object f ∧ e = .key k := by
  cases place with
  | object t =>
    cases v with
    | object f =>
      cases e with
      | key k => exact ⟨t, f, k, rfl, rfl, rfl⟩
      | index i => cases h
    | _ => cases h
  | collection col => cases v <;> cases h

theorem putSet_self {path : List Slot}
    (h : setAt sch place v path = some (col, s)) :
    putSet sch s place v path = v := by
  induction path generalizing place v with
  | nil => rfl
  | cons e path ih =>
    cases path with
    | nil =>
      obtain ⟨t, f, k, rfl, rfl, rfl⟩ := setAt_single h
      have hf := (setAt_field h).2.1
      simp [putSet, withChild, ← hf]
    | cons e' rest =>
      obtain ⟨inner, c, hi, hc, hset⟩ := setAt_cons h
      rw [putSet_cons hi hc, ih hset]
      exact (childLens place e).put_get hc

theorem putSet_injective {path : List Slot} {a b : List Mixed}
    (h : setAt sch place v path = some (col, s))
    (hab : putSet sch a place v path = putSet sch b place v path) :
    a = b := by
  induction path generalizing place v with
  | nil => cases place <;> cases v <;> cases h
  | cons e path ih =>
    cases path with
    | nil =>
      obtain ⟨t, f, k, rfl, rfl, rfl⟩ := setAt_single h
      have := congrFun (Value.object.inj hab) k
      simpa using this
    | cons e' rest =>
      obtain ⟨inner, c, hi, hc, hset⟩ := setAt_cons h
      rw [putSet_cons hi hc, putSet_cons hi hc] at hab
      exact ih hset (PartialLens.put_injective (L := childLens place e) hc hab)

/-- An operation on the set at its path. -/
theorem runRoute_putSet {p : List Elem} (hx : setOp sch col op = .ok x)
    (h : setAt sch place v (p.map PathElement.slot) = some (col, s))
    (a : List Mixed) :
    runRoute sch place (some ⟨p, op⟩)
        (putSet sch a place v (p.map PathElement.slot))
      = .ok (putSet sch (x.run sch col a) place v
          (p.map PathElement.slot)) := by
  induction p generalizing place v with
  | nil => cases place <;> cases v <;> cases h
  | cons e p ih =>
    cases p with
    | nil =>
      obtain ⟨t, f, k, rfl, rfl, he⟩ := setAt_single h
      simp only [List.map_cons, List.map_nil, he] at h ⊢
      obtain ⟨hcol, -, hcoll⟩ := setAt_field h
      simp [runRoute, resolve, resolveLast, he, putSet, withChild,
        Table.column_eq_ok.2 hcol, onField_set hcoll hx]
    | cons e' rest =>
      obtain ⟨inner, c, hi, hc, hset⟩ := setAt_cons h
      have hrun := runRoute_cons (r := ⟨e' :: rest, op⟩) (e := e) hi
        (by simp)
      simp only [List.map_cons] at ih ⊢
      rw [putSet_cons hi hc, putSet_cons hi hc]
      refine (congrFun hrun _).trans
        ((PartialLens.modify_put (L := childLens place e.slot) hc).2
          ⟨_, ih hset, rfl⟩)

/-- What is left of two routes to one set. -/
theorem mergeRoutes_sets {p q : List Elem} (hp : p ≠ [])
    (hpq : p.map PathElement.slot = q.map PathElement.slot)
    (hx : setOp sch col op = .ok x) (hy : setOp sch col op' = .ok y) :
    let d := setVerdict ls rs (rulePayloads op op') x y
    mergeRoutes ls rs ⟨p, op⟩ ⟨q, op'⟩
      = .ok (d.keepLeft ⟨p, op⟩, d.keepRight ⟨q, op'⟩) := by
  intro d
  induction p generalizing q with
  | nil => exact absurd rfl hp
  | cons e p ih =>
    cases q with
    | nil => cases hpq
    | cons e' q =>
      obtain ⟨he, hpq⟩ := List.cons.inj hpq
      have he' := sameElement_iff.2 he
      cases p with
      | nil =>
        obtain rfl : q = [] := by simpa using hpq.symm
        have hroute : mergeRoutes ls rs (Leaf.route ⟨e, op⟩)
            (Leaf.route ⟨e', op'⟩) = _ := mergeRoutes_leaf_leaf
        rw [mergeSlots_sets he' hx hy] at hroute
        simpa [Leaf.route] using hroute
      | cons n p =>
        cases q with
        | nil => cases hpq
        | cons n' q =>
          have hcons : mergeRoutes ls rs (Route.cons e ⟨n :: p, op⟩)
              (Route.cons e' ⟨n' :: q, op'⟩) = _ :=
            mergeRoutes_cons (by simp) (by simp)
          rw [if_pos he', ih (by simp) hpq] at hcons
          simpa [Route.cons] using hcons

/-- A leaf that is accepted at a set is one of the operations. -/
theorem setOp_of_leafAt {t : Table} {k : Interned} {a : Value}
    (hset : setAt sch (.object t) (.object f) [.key k.data]
      = some (col, s))
    (h : leafAt sch (.object t) (some ⟨.key k, op⟩) (.object f) = .ok a) :
    ∃ x, setOp sch col op = .ok x := by
  obtain ⟨hcol, hf, hcoll⟩ := setAt_field hset
  rw [fieldRun hcol] at h
  obtain ⟨c, w, hc, hw, -⟩ := PartialLens.modify_eq_ok.1 h
  obtain rfl : c = .set s := by
    simpa [childLens, child, hf] using hc.symm
  exact setOp_of_onField hcoll hw

/-- Both orders, in states that a set is put into. -/
theorem orders_run {α : Type} {F : List Mixed → α}
    {f g : α → Except ApplyError α}
    (hf : ∀ a, f (F a) = .ok (F (x.run sch col a)))
    (hg : ∀ a, g (F a) = .ok (F (y.run sch col a))) (d : Dropped) :
    (f (F s) >>= runOpt (d.keepRight g))
        = .ok (F (leftFirst sch col s x y d))
      ∧ (g (F s) >>= runOpt (d.keepLeft f))
        = .ok (F (rightFirst sch col s x y d)) := by
  cases d <;>
    simp [hf, hg, leftFirst, rightFirst, Dropped.keepLeft,
      Dropped.keepRight]

/-- Two operations on one set field lead to identical sets exactly when
the verdict agrees with the set. -/
theorem setLeaf_tp1_iff {t : Table} {k k' : Interned}
    (hk : k.data = k'.data)
    (hset : setAt sch (.object t) (.object f) [.key k.data]
      = some (col, s))
    (hx : setOp sch col op = .ok x) (hy : setOp sch col op' = .ok y)
    (hdef : SearchesDefined sch col s x y) :
    LeafTp1 sch (.object t) ls rs ⟨.key k, op⟩ ⟨.key k', op'⟩ (.object f)
      ↔ SetsAgree sch col Eq s x y
          (setVerdict ls rs (rulePayloads op op') x y) := by
  have he : sameElement (.key k) (.key k') = true := by
    simpa [sameElement, sameString] using hk
  let F := fun a => putSet sch a (.object t) (.object f) [.key k.data]
  have hstart : F s = .object f := putSet_self hset
  have hl : ∀ a, leafAt sch (.object t) (some ⟨.key k, op⟩) (F a)
      = .ok (F (x.run sch col a)) := runRoute_putSet hx hset
  have hr : ∀ a, leafAt sch (.object t) (some ⟨.key k', op'⟩) (F a)
      = .ok (F (y.run sch col a)) := by
    have hset' : setAt sch (.object t) (.object f) [.key k'.data]
        = some (col, s) := hk ▸ hset
    simp only [F, hk]
    exact runRoute_putSet (p := [.key k']) hy hset'
  generalize hd : setVerdict ls rs (rulePayloads op op') x y = d
  have hm := hd ▸ mergeSlots_sets he hx hy
  have hkeep : leafAt sch (.object t) (d.keepLeft ⟨.key k, op⟩)
      = runOpt (d.keepLeft (leafAt sch (.object t) (some ⟨.key k, op⟩)))
    := by cases d <;> rfl
  have hkeep' : leafAt sch (.object t) (d.keepRight ⟨.key k', op'⟩)
      = runOpt (d.keepRight (leafAt sch (.object t) (some ⟨.key k', op'⟩)))
    := by cases d <;> rfl
  obtain ⟨hleft, hright⟩ := orders_run (s := s) hl hr d
  rw [hstart, ← hkeep'] at hleft
  rw [hstart, ← hkeep] at hright
  have hagree : _ ↔ SetsAgree sch col Eq s x y
      (setVerdict ls rs (rulePayloads op op') x y) :=
    setsAgree_iff (alike_eq sch col) hdef
  simp only [hd, List.forall₂_eq_eq_eq] at hagree
  rw [← hagree]
  constructor
  · rintro ⟨x', y', hm', w, h1, h2⟩
    cases hm.symm.trans hm'
    exact putSet_injective hset
      (Except.ok.inj ((hleft.symm.trans h1).trans (h2.symm.trans hright)))
  · intro h
    exact ⟨_, _, hm, _, hleft, h ▸ hright⟩

end Paths

-- ===== instructions

/-- Two instructions on a set are merged, one for one, and both orders end
in the state with another set at the path, the two being the same element
by element. -/
def SetTp1 (sch : Schema) (sim : Mixed → Mixed → Prop) (ls rs : Side)
    (p q : PathInstruction Interned Buffered) (t : Table) (v : Value)
    (db : State) : Prop :=
  let after := fun a => Function.update db (objectRef p.table p.object)
    (some (putSet sch a (.object t) v (p.fullPath.map PathElement.slot)))
  ∃ l' r' a b,
    mergeInstructions ls rs (.path p) (.path q) = .ok ⟨l', r', [], []⟩
      ∧ (applyOpt sch (some (.path p)) db >>= applyOpt sch r')
        = .ok (after a)
      ∧ (applyOpt sch (some (.path q)) db >>= applyOpt sch l')
        = .ok (after b)
      ∧ List.Forall₂ sim a b

section Instructions

variable {sch : Schema} {col : Column} {s : List Mixed} {x y : SetOp}
  {ls rs : Side} {db : State} {t : Table} {v : Value}
  {p q : PathInstruction Interned Buffered}

theorem applyOpt_putSet
    (ht : objectTable sch (objectRef p.table p.object) = .ok t)
    (hv : db (objectRef p.table p.object) = some v)
    (hset : setAt sch (.object t) v (p.fullPath.map PathElement.slot)
      = some (col, s))
    (hx : setOp sch col p.op = .ok x) (a : List Mixed) :
    applyOpt sch (some (.path p))
        (Function.update db (objectRef p.table p.object) (some
          (putSet sch a (.object t) v (p.fullPath.map PathElement.slot))))
      = .ok (Function.update db (objectRef p.table p.object) (some
          (putSet sch (x.run sch col a) (.object t) v
            (p.fullPath.map PathElement.slot)))) := by
  rw [applyOpt_path ht]
  exact (PartialLens.modify_put (objectLens_get.2 hv)).2
    ⟨_, runRoute_putSet hx hset a, rfl⟩

section Merging

variable
  (hobj : objectRef p.table p.object = objectRef q.table q.object)
  (hpath : p.fullPath.map PathElement.slot
    = q.fullPath.map PathElement.slot)
  (hx : setOp sch col p.op = .ok x) (hy : setOp sch col q.op = .ok y)

include hobj hpath hx hy

theorem mergeInstructions_sets :
    let d := setVerdict ls.timestamp rs.timestamp
      (rulePayloads p.op q.op) x y
    mergeInstructions ls rs (.path p) (.path q)
      = .ok ⟨d.keepLeft (.path p), d.keepRight (.path q), [], []⟩ := by
  intro d
  have hroutes : mergeRoutes ls.timestamp rs.timestamp p.route q.route
      = .ok (d.keepLeft p.route, d.keepRight q.route) :=
    mergeRoutes_sets (by simp [PathInstruction.fullPath]) hpath hx hy
  simp only [mergeInstructions, mergePaths, if_pos (sameObject_iff.2 hobj),
    hroutes, ok_bind, Dropped.map_keepLeft, Dropped.map_keepRight]
  rfl

end Merging

end Instructions

/-- A set column of strings. -/
def stringSetColumn : Column := ⟨.string, false, .set, []⟩

/-- The set of the strings `a` and `b`. -/
def setOfAB : List Mixed := [.string [97], .string [98]]

end BarqSync
