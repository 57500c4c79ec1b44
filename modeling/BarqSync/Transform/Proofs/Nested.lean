/-
An operation that shifts a list against an instruction whose path goes
on BELOW an element of that list (`MergeNested<ArrayInsert>`,
`MergeNested<ArrayMove>`, `MergeNested<ArrayErase>`).

# What has to happen

The deeper instruction must follow the element it goes through: `follow`
says where that element is after the operation, if it still is. The
shifting operation does not change, because nothing it depends on does.
A deeper instruction that follows its element converges with the
operation, whatever it does there (`follow_converges`).

# What happens

Insertions and erasures do this. The rule for moves passes its two
indexes in the wrong order: it renumbers the MOVE and leaves the deeper
path alone. `nestedTp1_iff` says when that is harmless: when the move
passes neither over the deeper path's element nor moves it.
-/
import BarqSync.Transform.Proofs.Lists

namespace BarqSync

open Ot PathInstruction

-- ===== following

/-- Where the element at `g` is after an operation at `f`, if it still
is. -/
def follow (op : Op) (f g : ℕ) : Option ℕ :=
  match op with
  | .arrayInsert _ _ => some (afterInsert f g)
  | .arrayMove k _ => some (afterMove f k.toNat g)
  | .arrayErase _ => if f = g then none else some (afterErase f g)
  | _ => some g

section Following

variable {sch : Schema} {col : Column} {l m : List Value} {op : Op}
  {f g g' : ℕ}

/-- What an array operation does to lists of one length: it is a function
of the list that takes each element where `follow` says. -/
theorem arrayOp_shape (hop : Op.isArrayOp op = true)
    (h : onListIndex sch col l f op = .ok m) :
    ∃ F : List Value → List Value, (∀ l', l'.length = l.length →
        (Op.isMove op = true → nestedAt l' f = false) →
        onListIndex sch col l' f op = .ok (F l'))
      ∧ (∀ w, follow op f g = none → F (l.set g w) = F l)
      ∧ ∀ g', follow op f g = some g' →
          (F l)[g']? = l[g]? ∧ ∀ w, (F l).set g' w = F (l.set g w) := by
  cases op with
  | arrayInsert value n =>
    obtain ⟨hi, hn, v, hv, -⟩ := arrayInsert_eq_ok.1 h
    refine ⟨fun l' => l'.insertIdx f v, fun l' hl' _ => ?_, ?_, ?_⟩
    · exact arrayInsert_eq_ok.2 ⟨hl' ▸ hi, hn.trans hl'.symm, v, hv, rfl⟩
    · rintro w ⟨⟩
    · rintro g' ⟨⟩
      exact ⟨getElem?_insertIdx_after, fun w => set_insertIdx_after⟩
  | arrayMove k n =>
    obtain ⟨hi, hk, hik, hn, -⟩ := arrayMove_eq_ok.1 h
    refine ⟨fun l' => moveIdx l' f k.toNat, fun l' hl' hc => ?_, ?_, ?_⟩
    · exact arrayMove_eq_ok.2
        ⟨hl' ▸ hi, hl' ▸ hk, hik, hn.trans hl'.symm, hc rfl, rfl⟩
    · rintro w ⟨⟩
    · rintro g' ⟨⟩
      exact ⟨getElem?_moveIdx_after hi hk, fun w => set_moveIdx_after hi hk⟩
  | arrayErase n =>
    obtain ⟨hi, hn, -⟩ := arrayErase_eq_ok.1 h
    refine ⟨fun l' => l'.eraseIdx f, fun l' hl' _ => ?_, ?_, ?_⟩
    · exact arrayErase_eq_ok.2 ⟨hl' ▸ hi, hn.trans hl'.symm, rfl⟩
    · intro w hnone
      obtain rfl : f = g := by
        by_contra hne
        simp [follow, hne] at hnone
      exact List.eraseIdx_set_eq
    · intro g' hsome
      by_cases hfg : f = g
      · simp [follow, hfg] at hsome
      · simp only [follow, hfg, if_false, Option.some.injEq] at hsome
        subst hsome
        exact ⟨getElem?_eraseIdx_after hfg, fun w => set_eraseIdx_after hfg⟩
  | _ => cases hop

/-- What an operation moves is no nested collection. -/
theorem movable_of_run (h : onListIndex sch col l f op = .ok m)
    (hop : Op.isMove op = true) : nestedAt l f = false := by
  cases op with
  | arrayMove k n => exact (arrayMove_eq_ok.1 h).2.2.2.2.1
  | _ => cases hop

/-- An operation at an index is one of a list. -/
theorem runRoute_index_eq_ok {place : Place} {v w : Value} {i : UInt32} :
    runRoute sch place (some ⟨[.index i], op⟩) v = .ok w
      ↔ ∃ col l m, place = .collection col ∧ v = .list l
        ∧ onListIndex sch col l i.toNat op = .ok m ∧ w = .list m := by
  cases place <;> cases v <;>
    simp [runRoute, resolve, resolveLast, PathElement.slot, bind_eq_ok,
      @eq_comm Value _ w]

/-- A deeper route through an element of a list. -/
theorem runRoute_through_eq_ok {r : Route} {w : Value} {g : UInt32}
    (hr : r.path ≠ []) :
    runRoute sch (.collection col) (some (r.cons (.index g))) (.list l) = .ok w
      ↔ ∃ inner c d, col.inner sch = .ok inner ∧ l[g.toNat]? = some c
        ∧ runRoute sch inner (some r) c = .ok d
        ∧ w = .list (l.set g.toNat d) := by
  have hchild : ∀ {c}, child (.collection col) (.list l) (.index g.toNat) = .ok c
      ↔ l[g.toNat]? = some c := by
    intro c
    simp only [child]
    cases l[g.toNat]? <;> simp
  constructor
  · intro h
    obtain ⟨inner, c, d, he, hc, hd, rfl⟩ := runRoute_cons_eq_ok hr h
    exact ⟨inner, c, d, he, hchild.1 hc, hd, rfl⟩
  · rintro ⟨inner, c, d, he, hc, hd, rfl⟩
    have he' : enter sch (.collection col) (PathElement.index g).slot
        = .ok inner := he
    rw [runRoute_cons he' hr]
    exact PartialLens.modify_eq_ok.2 ⟨c, d, hchild.2 hc, hd, rfl⟩

/-- An array operation and a deeper route that follows its element
converge, whatever the route does there. -/
theorem follow_converges {r : Route} {f g : UInt32} {r' : Option Route}
    {w1 w2 : Value} (hop : Op.isArrayOp op = true)
    (hfg : Op.isMove op = true → f ≠ g) (hr : r.path ≠ [])
    (hl : runRoute sch (.collection col) (some ⟨[.index f], op⟩) (.list l)
      = .ok w1)
    (hrv : runRoute sch (.collection col) (some (r.cons (.index g))) (.list l)
      = .ok w2)
    (hr' : (follow op f.toNat g.toNat = none ∧ r' = none)
      ∨ ∃ g' : UInt32, follow op f.toNat g.toNat = some g'.toNat
        ∧ r' = some (r.cons (.index g'))) :
    Converges (runRoute sch (.collection col) (some ⟨[.index f], op⟩))
      (runRoute sch (.collection col) r')
      (runRoute sch (.collection col) (some (r.cons (.index g))))
      (runRoute sch (.collection col) (some ⟨[.index f], op⟩)) (.list l) := by
  obtain ⟨_, _, m, ⟨⟩, ⟨⟩, hm, rfl⟩ := runRoute_index_eq_ok.1 hl
  obtain ⟨inner, c, d, he, hc, hd, rfl⟩ := (runRoute_through_eq_ok hr).1 hrv
  obtain ⟨F, hF, hnone, hsome⟩ := arrayOp_shape (g := g.toNat) hop hm
  cases (hF l rfl (movable_of_run hm)).symm.trans hm
  refine (converges_iff hl hrv).2 ⟨.list (F (l.set g.toNat d)), ?_, ?_⟩
  · rcases hr' with ⟨hfollow, rfl⟩ | ⟨g', hfollow, rfl⟩
    · simp [runRoute, hnone d hfollow]
    · obtain ⟨hget, hset⟩ := hsome _ hfollow
      rw [← hset d]
      exact (runRoute_through_eq_ok hr).2
        ⟨inner, c, d, he, hget.trans hc, hd, rfl⟩
  · refine runRoute_index_eq_ok.2
      ⟨col, _, _, rfl, rfl, hF _ (List.length_set ..) fun hmove => ?_, rfl⟩
    have hne : g.toNat ≠ f.toNat :=
      fun h => hfg hmove (UInt32.toNat_inj.1 h.symm)
    rw [nestedAt_congr (List.getElem?_set_ne hne)]
    exact movable_of_run hm hmove

end Following

-- ===== the rule

/-- The outer operations whose nested rule is right: every insertion and
erasure, and a move between positions that lie on one side of the deeper
path's element. -/
def CarriesElement (op : Op) (f g : UInt32) : Prop :=
  match op with
  | .arrayMove k _ => (g < k ∧ k < f) ∨ (f < k ∧ k < g)
  | _ => True

/-- A path component that follows its element. -/
def Followed (op : Op) (f g : UInt32) (x : Option Elem) : Prop :=
  (follow op f.toNat g.toNat = none ∧ x = none)
    ∨ ∃ g' : UInt32, follow op f.toNat g.toNat = some g'.toNat
      ∧ x = some (.index g')

section Rule

variable {sch : Schema} {col : Column} {l m : List Value} {op : Op}
  {f g : UInt32} {next : Elem} {n : UInt32}

theorem nestedSlot_insert {value : Payload Interned Buffered}
    (hg : g.toNat + 1 < 2 ^ 32) :
    ∃ x, mergeNestedSlot ⟨.index f, .arrayInsert value n⟩ (.index g) next
        = .ok (⟨.index f, .arrayInsert value n⟩, x)
      ∧ Followed (.arrayInsert value n) f g x := by
  refine ⟨_, rfl, .inr ⟨_, ?_, rfl⟩⟩
  rw [follow, afterInsert_toNat hg]

theorem nestedSlot_erase :
    ∃ x, mergeNestedSlot ⟨.index f, .arrayErase n⟩ (.index g) next
        = .ok (⟨.index f, .arrayErase n⟩, x)
      ∧ Followed (.arrayErase n) f g x := by
  by_cases hfg : f = g
  · subst hfg
    exact ⟨none, by simp [mergeNestedSlot, sameElement],
      .inl ⟨by simp [follow], rfl⟩⟩
  · have hne := toNat_ne hfg
    refine ⟨some (.index (if f < g then g - 1 else g)), ?_, .inr ⟨_, ?_, rfl⟩⟩
    · simp [mergeNestedSlot, sameElement, correspondingIndex, hfg]
    · rw [follow, if_neg hne, ← afterErase_toNat]

/-- The rule for moves keeps the move and follows the element only when
neither has to change. -/
theorem nestedSlot_move_iff {k : UInt32} (hf : f.toNat + 1 < 2 ^ 32)
    (hfk : f ≠ k) :
    (∃ x, mergeNestedSlot ⟨.index f, .arrayMove k n⟩ (.index g) next
          = .ok (⟨.index f, .arrayMove k n⟩, x)
        ∧ Followed (.arrayMove k n) f g x)
      ↔ CarriesElement (.arrayMove k n) f g := by
  have hmerge : mergeNestedSlot ⟨.index f, .arrayMove k n⟩ (.index g) next
      = .ok (⟨.index (mergeGetVsMove f g k), .arrayMove k n⟩,
          some (.index g)) := rfl
  have hkeep : mergeGetVsMove f g k = f
      ↔ afterMove g.toNat k.toNat f.toNat = f.toNat := by
    rw [← UInt32.toNat_inj, mergeGetVsMove_toNat hf]
  have hfollowed : Followed (.arrayMove k n) f g (some (.index g))
      ↔ afterMove f.toNat k.toNat g.toNat = g.toNat := by
    simp [Followed, follow]
  have hne := toNat_ne hfk
  have harith : (afterMove g.toNat k.toNat f.toNat = f.toNat
        ∧ afterMove f.toNat k.toNat g.toNat = g.toNat)
      ↔ (g.toNat < k.toNat ∧ k.toNat < f.toNat)
        ∨ (f.toNat < k.toNat ∧ k.toNat < g.toNat) := by
    unfold afterMove afterInsert afterErase
    split_ifs <;> omega
  rw [hmerge]
  simp only [CarriesElement, UInt32.lt_iff_toNat_lt, ← harith, ← hkeep,
    ← hfollowed]
  constructor
  · rintro ⟨x, h, hx⟩
    simp only [Except.ok.injEq, Prod.mk.injEq, Leaf.mk.injEq,
      PathElement.index.injEq, and_true] at h
    exact ⟨h.1, h.2 ▸ hx⟩
  · rintro ⟨h, hx⟩
    exact ⟨_, by rw [h], hx⟩

/-- The nested rule of an array operation that fits the list leaves it as
it is and follows the element exactly when it is one that carries it. -/
theorem nestedSlot_follows_iff (hop : Op.isArrayOp op = true)
    (hfits : LeafFits l.length ⟨.index f, op⟩) (hg : g.toNat < l.length) :
    (∃ x, mergeNestedSlot ⟨.index f, op⟩ (.index g) next
        = .ok (⟨.index f, op⟩, x) ∧ Followed op f g x)
      ↔ CarriesElement op f g := by
  obtain ⟨i, heq, hfits⟩ := hfits
  cases heq
  cases op with
  | arrayInsert value n =>
    have := n.toNat_lt
    have := hfits.2
    exact iff_of_true (nestedSlot_insert (by omega)) trivial
  | arrayMove k n =>
    obtain ⟨hf, hk, hfk, hn⟩ := hfits
    have := n.toNat_lt
    exact nestedSlot_move_iff (by omega) hfk
  | arrayErase n => exact iff_of_true nestedSlot_erase trivial
  | _ => cases hop

/-- A move that carries the element of a deeper path moves another one. -/
theorem CarriesElement.ne (h : CarriesElement op f g)
    (hop : Op.isMove op = true) : f ≠ g := by
  rintro rfl
  cases op with
  | arrayMove k n =>
    simp only [CarriesElement, UInt32.lt_iff_toNat_lt] at h
    omega
  | _ => cases hop

theorem arrayOp_fits (hop : Op.isArrayOp op = true)
    (hm : onListIndex sch col l f.toNat op = .ok m) :
    LeafFits l.length ⟨.index f, op⟩ := by
  refine ⟨f, rfl, ?_⟩
  cases op with
  | arrayInsert value n =>
    obtain ⟨hi, hn, -⟩ := arrayInsert_eq_ok.1 hm
    exact ⟨hi, hn⟩
  | arrayMove k n =>
    obtain ⟨hf, hk, hfk, hn, -⟩ := arrayMove_eq_ok.1 hm
    exact ⟨hf, hk, fun h => hfk (congrArg _ h), hn⟩
  | arrayErase n =>
    obtain ⟨hi, hn, -⟩ := arrayErase_eq_ok.1 hm
    exact ⟨hi, hn⟩
  | _ => cases hop

/-- A valid array operation is carried out unless it moves a nested
collection. -/
theorem LeafValid.run (h : LeafValid sch col l ⟨.index f, op⟩)
    (hmove : Op.isMove op = true → nestedAt l f.toNat = false) :
    ∃ m, onListIndex sch col l f.toNat op = .ok m := by
  obtain ⟨⟨i, heq, hfits⟩, hrun⟩ := h
  cases heq
  cases op with
  | arrayMove k n =>
    obtain ⟨hf, hk, hfk, hn⟩ := hfits
    exact ⟨_, arrayMove_eq_ok.2 ⟨hf, hk, toNat_ne hfk,
      hn, hmove rfl, rfl⟩⟩
  | _ => exact hrun rfl

end Rule

-- ===== instructions

/-- `q` goes below the element at `g` of the list in which `p` acts at
`f`. -/
structure Below (p q : PathInstruction Interned Buffered)
    (pre pre' : List Elem) (f g : UInt32) (tail : List Elem) : Prop where
  sameObject : objectRef p.table p.object = objectRef q.table q.object
  outerPath : p.fullPath = pre ++ [.index f]
  innerPath : q.fullPath = pre' ++ .index g :: tail
  samePrefix : pre.map PathElement.slot = pre'.map PathElement.slot
  deeper : tail ≠ []

section Instructions

variable {sch : Schema} {ls rs : Side} {s s₁ s₂ : State}
  {p q : PathInstruction Interned Buffered} {pre pre' tail : List Elem}
  {f g : UInt32}

theorem Below.routes (h : Below p q pre pre' f g tail) :
    p.route = Route.prepend pre ⟨[.index f], p.op⟩
      ∧ q.route = Route.prepend pre' (Route.cons (.index g) ⟨tail, q.op⟩) := by
  simp [route, Route.prepend, h.outerPath, h.innerPath]

/-- The outer instruction with the leaf of its route replaced. -/
def outerWith (p : PathInstruction Interned Buffered) (pre : List Elem)
    (x : Leaf) : Instr :=
  .path (p.withRoute ⟨pre ++ [x.elem], x.op⟩)

/-- The deeper instruction with the element it goes through replaced. -/
def innerWith (q : PathInstruction Interned Buffered)
    (pre' tail : List Elem) (e : Elem) : Instr :=
  .path (q.withRoute ⟨pre' ++ e :: tail, q.op⟩)

theorem mergeRoutes_below (h : Below p q pre pre' f g tail)
    (ls rs : Discriminant) :
    mergeRoutes ls rs p.route q.route
      = (mergeNestedSlot ⟨.index f, p.op⟩ (.index g) (tail.head h.deeper) >>=
        fun x => .ok (some ⟨pre ++ [x.1.elem], x.1.op⟩,
          x.2.map fun e => ⟨pre' ++ e :: tail, q.op⟩))
    ∧ mergeRoutes rs ls q.route p.route
      = (mergeNestedSlot ⟨.index f, p.op⟩ (.index g) (tail.head h.deeper) >>=
        fun x => .ok (x.2.map fun e => ⟨pre' ++ e :: tail, q.op⟩,
          some ⟨pre ++ [x.1.elem], x.1.op⟩)) := by
  obtain ⟨next, rest, rfl⟩ := List.exists_cons_of_ne_nil h.deeper
  rw [h.routes.1, h.routes.2, mergeRoutes_prepend h.samePrefix (by simp) (by simp),
    mergeRoutes_prepend h.samePrefix.symm (by simp) (by simp)]
  simp only [Route.cons, mergeRoutes_deep_leaf, mergeRoutes_leaf_deep,
    List.head_cons]
  cases mergeNestedSlot ⟨.index f, p.op⟩ (.index g) next with
  | error e => exact ⟨rfl, rfl⟩
  | ok x =>
    obtain ⟨o, e⟩ := x
    cases e <;> exact ⟨rfl, rfl⟩

/-- `merge_instructions` on such a pair is the nested rule, on either
side. -/
theorem mergeInstructions_below (ls rs : Side)
    (h : Below p q pre pre' f g tail) :
    mergeInstructions ls rs (.path p) (.path q)
      = (mergeNestedSlot ⟨.index f, p.op⟩ (.index g) (tail.head h.deeper) >>=
        fun x => .ok ⟨some (outerWith p pre x.1),
          x.2.map (innerWith q pre' tail), [], []⟩)
    ∧ mergeInstructions rs ls (.path q) (.path p)
      = (mergeNestedSlot ⟨.index f, p.op⟩ (.index g) (tail.head h.deeper) >>=
        fun x => .ok ⟨x.2.map (innerWith q pre' tail),
          some (outerWith p pre x.1), [], []⟩) := by
  obtain ⟨hl, hr⟩ := mergeRoutes_below h ls.timestamp rs.timestamp
  simp only [mergeInstructions, mergePaths, hl, hr,
    if_pos (sameObject_iff.2 h.sameObject),
    if_pos (sameObject_iff.2 h.sameObject.symm)]
  cases mergeNestedSlot ⟨.index f, p.op⟩ (.index g) (tail.head h.deeper) with
  | error e => exact ⟨rfl, rfl⟩
  | ok x =>
    obtain ⟨o, e⟩ := x
    cases e <;> exact ⟨rfl, rfl⟩

theorem outerWith_eq_iff (h : Below p q pre pre' f g tail) (x : Leaf) :
    outerWith p pre x = .path p ↔ x = ⟨.index f, p.op⟩ := by
  obtain ⟨e, op⟩ := x
  obtain ⟨table, object, field, path, pop⟩ := p
  have hpath := h.outerPath
  -- The prefix starts with the field, so it is not empty.
  cases pre with
  | nil => simp [fullPath] at hpath
  | cons e0 pre =>
    simp only [fullPath, List.cons_append, List.cons.injEq] at hpath
    simp [outerWith, withRoute, hpath.2]

theorem innerWith_injective (h : Below p q pre pre' f g tail) :
    Function.Injective (innerWith q pre' tail) := by
  intro e e' hee
  have hpath := h.innerPath
  cases pre' with
  | nil =>
    have : pre = [] := by simpa using h.samePrefix
    have := h.outerPath
    simp_all [fullPath]
  | cons e0 pre' => simpa [innerWith, withRoute] using hee

/-- Nested TP1: the outer instruction stays, the deeper one follows its
element or is dropped with it, whichever side they are on, and the two
orders end in the same state. -/
def NestedTp1 (sch : Schema) (ls rs : Side) (s : State)
    (p q : PathInstruction Interned Buffered) (pre' : List Elem)
    (f g : UInt32) (tail : List Elem) : Prop :=
  ∃ x, Followed p.op f g x
    ∧ mergeInstructions ls rs (.path p) (.path q)
      = .ok ⟨some (.path p), x.map (innerWith q pre' tail), [], []⟩
    ∧ mergeInstructions rs ls (.path q) (.path p)
      = .ok ⟨x.map (innerWith q pre' tail), some (.path p), [], []⟩
    ∧ Converges (applyOpt sch (some (.path p)))
        (applyOpt sch (x.map (innerWith q pre' tail)))
        (applyOpt sch (some (.path q))) (applyOpt sch (some (.path p))) s

section

variable {t : Table} {v : Value} {col : Column} {l : List Value}
  (ht : objectTable sch (objectRef p.table p.object) = .ok t)
  (hv : s (objectRef p.table p.object) = some v)
  (hd : descend sch (.object t) v (pre.map PathElement.slot)
    = .ok (.collection col, .list l))

include ht hv hd

/-- An accepted instruction that goes below the list of another one is
carried out in that list. -/
theorem Below.inner_run (h : Below p q pre pre' f g tail)
    (hq : applyOpt sch (some (.path q)) s = .ok s₂) :
    ∃ w, runRoute sch (.collection col)
      (some (Route.cons (.index g) ⟨tail, q.op⟩)) (.list l) = .ok w := by
  obtain ⟨t', v', w, ht', hv', hrv, -⟩ := applyOpt_path_eq_ok hq
  rw [← h.sameObject] at ht' hv'
  cases ht.symm.trans ht'
  cases hv.symm.trans hv'
  rw [h.routes.2] at hrv
  obtain ⟨inner, c, b, hd', hb⟩ := runRoute_prepend_eq_ok (by simp) hrv
  rw [← h.samePrefix] at hd'
  cases hd.symm.trans hd'
  exact ⟨b, hb⟩

theorem Below.outer_run (h : Below p q pre pre' f g tail)
    (hp : applyOpt sch (some (.path p)) s = .ok s₁) :
    ∃ m, onListIndex sch col l f.toNat p.op = .ok m := by
  obtain ⟨t', v', w, ht', hv', hlv, -⟩ := applyOpt_path_eq_ok hp
  cases ht.symm.trans ht'
  cases hv.symm.trans hv'
  rw [h.routes.1] at hlv
  obtain ⟨inner, c, a, hd', ha⟩ := runRoute_prepend_eq_ok (by simp) hlv
  cases hd.symm.trans hd'
  obtain ⟨_, _, m, ⟨⟩, ⟨⟩, hm, -⟩ := runRoute_index_eq_ok.1 ha
  exact ⟨m, hm⟩

/-- Nested TP1 holds for every valid array operation and every deeper
instruction, except for moves that have to renumber the deeper path and
for moves of nested collections. -/
theorem nestedTp1_iff (h : Below p q pre pre' f g tail)
    (hop : Op.isArrayOp p.op = true)
    (hp : LeafValid sch col l ⟨.index f, p.op⟩)
    (hq : applyOpt sch (some (.path q)) s = .ok s₂) :
    NestedTp1 sch ls rs s p q pre' f g tail
      ↔ CarriesElement p.op f g
        ∧ (Op.isMove p.op = true → nestedAt l f.toNat = false) := by
  obtain ⟨w2, hb⟩ := h.inner_run ht hv hd hq
  obtain ⟨hmerge, hmerge'⟩ := mergeInstructions_below ls rs h
  have htail : (Route.mk tail q.op).path ≠ [] := h.deeper
  obtain ⟨-, c, -, -, hc, -⟩ := (runRoute_through_eq_ok htail).1 hb
  rw [← nestedSlot_follows_iff hop hp.1 (List.getElem?_eq_some_iff.1 hc).1]
  constructor
  · rintro ⟨x, hx, hleft, -, hconv⟩
    refine ⟨?_, fun hmove => ?_⟩
    · rw [hmerge] at hleft
      obtain ⟨⟨o, y⟩, hslot, heq⟩ := bind_eq_ok.1 hleft
      simp only [Except.ok.injEq, Outcome.mk.injEq, Option.some.injEq,
        outerWith_eq_iff h, and_true] at heq
      obtain rfl := heq.1
      obtain rfl := Option.map_injective (innerWith_injective h) heq.2
      exact ⟨y, hslot, hx⟩
    · obtain ⟨_, hrun, -⟩ := hconv
      obtain ⟨s', hs', -⟩ := bind_eq_ok.1 hrun
      obtain ⟨m, hm⟩ := h.outer_run ht hv hd hs'
      exact movable_of_run hm hmove
  · rintro ⟨hslots, hmove⟩
    have hcarries := (nestedSlot_follows_iff hop hp.1
      (List.getElem?_eq_some_iff.1 hc).1).1 hslots
    obtain ⟨x, hslot, hx⟩ := hslots
    obtain ⟨m, hm⟩ := hp.run hmove
    have ha := runRoute_index_eq_ok.2 ⟨col, l, m, rfl, rfl, hm, rfl⟩
    have houter := (outerWith_eq_iff h ⟨.index f, p.op⟩).2 rfl
    -- The square closes in the list, so it closes in the database.
    have hroutes : RoutesTp1 sch (.object t) ls.timestamp rs.timestamp p.route
        q.route v := by
      rw [h.routes.1, h.routes.2,
        routesTp1_prepend_iff h.samePrefix (by simp) (by simp) hd]
      obtain ⟨next, rest, rfl⟩ := List.exists_cons_of_ne_nil h.deeper
      refine ⟨_, x.map fun e => Route.cons e ⟨next :: rest, q.op⟩, ?_,
        follow_converges hop hcarries.ne htail ha hb ?_⟩
      · rw [List.head_cons] at hslot
        rw [Route.cons, mergeRoutes_leaf_deep, hslot]
        rfl
      · rcases hx with ⟨hnone, rfl⟩ | ⟨g', hsome, rfl⟩
        · exact .inl ⟨hnone, rfl⟩
        · exact .inr ⟨g', hsome, rfl⟩
    obtain ⟨l', r', hm', hc'⟩ := (pathTp1_iff h.sameObject ht hv).2 hroutes
    rw [hslot, ok_bind] at hmerge hmerge'
    simp only [houter] at hmerge hmerge'
    cases hmerge.symm.trans hm'
    exact ⟨x, hx, hmerge, hmerge', hc'⟩

end

theorem NestedTp1.instrTp1 (h : NestedTp1 sch ls rs s p q pre' f g tail) :
    InstrTp1 sch ls rs (.path p) (.path q) s := by
  obtain ⟨x, -, hmerge, -, hconv⟩ := h
  exact ⟨_, _, hmerge, hconv⟩

end Instructions

-- ===== examples

/-- The list `[1, 2, [3], [4]]`. -/
def numbersAndLists : List Value :=
  [.mixed (.int 1), .mixed (.int 2), .list [.mixed (.int 3)],
    .list [.mixed (.int 4)]]

/-- Erasing the first number takes an update in the first list along, and
moving it behind the second one leaves the update where it is. -/
theorem nestedTp1_erase_and_move :
    let q := atField [.index 2, .index 0] (.update (.int 9) false 1)
    NestedTp1 (oneColumnSchema mixedListColumn) laterSide earlierSide
        (everywhere (.list numbersAndLists))
        (atField [.index 0] (.arrayErase 4)) q [.key ⟨0, []⟩] 0 2 [.index 0]
      ∧ NestedTp1 (oneColumnSchema mixedListColumn) laterSide earlierSide
        (everywhere (.list numbersAndLists))
        (atField [.index 0] (.arrayMove 1 4)) q [.key ⟨0, []⟩] 0 2
        [.index 0] := by
  intro q
  have hbelow : ∀ op, Below (atField [.index 0] op) q [.key ⟨0, []⟩]
      [.key ⟨0, []⟩] 0 2 [.index 0] :=
    fun op => ⟨rfl, rfl, rfl, rfl, by simp⟩
  have herase : LeafValid (oneColumnSchema mixedListColumn) mixedListColumn
      numbersAndLists ⟨.index 0, .arrayErase 4⟩ :=
    ⟨⟨0, rfl, by decide, rfl⟩, fun _ => ⟨_, rfl⟩⟩
  have hmove : LeafValid (oneColumnSchema mixedListColumn) mixedListColumn
      numbersAndLists ⟨.index 0, .arrayMove 1 4⟩ :=
    ⟨⟨0, rfl, by decide, by decide, by decide, rfl⟩, fun _ => ⟨_, rfl⟩⟩
  constructor
  · refine (nestedTp1_iff rfl rfl rfl (hbelow _) rfl herase rfl).2
      ⟨trivial, ?_⟩
    rintro ⟨⟩
  · exact (nestedTp1_iff rfl rfl rfl (hbelow _) rfl hmove rfl).2
      ⟨.inr ⟨by decide, by decide⟩, fun _ => rfl⟩

/-- Moving the first number behind the lists leaves an update of the first
list where it was, which is now the second. -/
theorem move_over_update_diverges :
    let p := atField [.index 0] (.arrayMove 3 4)
    let q := atField [.index 2, .index 0] (.update (.int 9) false 1)
    let s := everywhere (.list numbersAndLists)
    Below p q [.key ⟨0, []⟩] [.key ⟨0, []⟩] 0 2 [.index 0]
      ∧ (∃ s₁, applyOpt (oneColumnSchema mixedListColumn) (some (.path p)) s
        = .ok s₁)
      ∧ (∃ s₂, applyOpt (oneColumnSchema mixedListColumn) (some (.path q)) s
        = .ok s₂)
      ∧ ¬InstrTp1 (oneColumnSchema mixedListColumn) laterSide earlierSide
          (.path p) (.path q) s
      ∧ ¬NestedTp1 (oneColumnSchema mixedListColumn) laterSide earlierSide s
          p q [.key ⟨0, []⟩] 0 2 [.index 0] := by
  intro p q s
  have hdiverges : ¬InstrTp1 (oneColumnSchema mixedListColumn) laterSide
      earlierSide (.path p) (.path q) s := by
    rintro ⟨l', r', hm, c, h1, h2⟩
    have hkeep : mergeInstructions laterSide earlierSide (.path p) (.path q)
        = .ok ⟨some (.path p), some (.path q), [], []⟩ := rfl
    cases hkeep.symm.trans hm
    have e1 : readField c = some (.list [.mixed (.int 2),
        .list [.mixed (.int 3)], .list [.mixed (.int 9)],
        .mixed (.int 1)]) := by
      cases h1
      rfl
    have e2 : readField c = some (.list [.mixed (.int 2),
        .list [.mixed (.int 9)], .list [.mixed (.int 4)],
        .mixed (.int 1)]) := by
      cases h2
      rfl
    simp [e1] at e2
  exact ⟨⟨rfl, rfl, rfl, rfl, by simp⟩, ⟨_, rfl⟩, ⟨_, rfl⟩, hdiverges,
    fun h => hdiverges h.instrTp1⟩

end BarqSync
