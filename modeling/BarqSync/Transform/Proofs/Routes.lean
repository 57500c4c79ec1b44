/-
A square of two path instructions, reduced to a square inside the
container they share.

# Peeling a path

`resolve` below the first path element IS an operation over the child
(`resolve_cons`), and `mergeRoutes` below a first element that the two
routes share is `mergeRoutes` of what follows (`mergeRoutes_cons`). So
routes that enter by the same element are merged rightly exactly when
they are inside (`routesTp1_cons_iff`), and routes that enter by
different elements need no transformation (`routesTp1_cons_ne`). What is
left for the rules are pairs of routes one of which ends here.

# Objects

The same step once more takes a pair of path instructions on the
database to a pair of routes in one object (`pathTp1_iff`).
-/
import BarqSync.Transform.Merge
import BarqSync.Transform.Proofs.Lens

namespace BarqSync

open Ot Route

-- ===== routes

/-- One route of an object or container, or none if it was discarded. -/
def runRoute (sch : Schema) (place : Place) (r : Option Route)
    (v : Value) : Except ApplyError Value :=
  match r with
  | none => .ok v
  | some r => resolve sch r.op place v (r.path.map PathElement.slot)

/-- The route entered by another path element first. -/
def Route.cons (e : Elem) (r : Route) : Route := ⟨e :: r.path, r.op⟩

@[simp] theorem Route.cons_path (e : Elem) (r : Route) :
    (r.cons e).path = e :: r.path := rfl

@[simp] theorem Route.cons_op (e : Elem) (r : Route) :
    (r.cons e).op = r.op := rfl

/-- Below the first path element, an operation is one over the child. -/
theorem resolve_cons {sch : Schema} {op : Op} {place inner : Place}
    {e : Slot} {rest : List Slot} (he : enter sch place e = .ok inner)
    (hrest : rest ≠ []) (v : Value) :
    resolve sch op place v (e :: rest)
      = (childLens place e).modify (fun c => resolve sch op inner c rest) v := by
  cases rest with
  | nil => exact absurd rfl hrest
  | cons e' rest =>
    simp only [resolve, he, ok_bind]
    rfl

section Routes

variable {sch : Schema} {place inner : Place} {v c : Value} {e e' : Elem}
  {l r : Route} {l' r' : Option Route}

theorem runRoute_cons (he : enter sch place e.slot = .ok inner)
    (hr : r.path ≠ []) :
    runRoute sch place (some (r.cons e))
      = (childLens place e.slot).modify (runRoute sch inner (some r)) := by
  funext v
  exact resolve_cons he (by simpa using hr) v

theorem runRoute_map_cons (he : enter sch place e.slot = .ok inner)
    (hr : ∀ z ∈ r', z.path ≠ []) :
    runRoute sch place (r'.map (Route.cons e))
      = runOpt ((r'.map fun z => runRoute sch inner (some z)).map
          (childLens place e.slot).modify) := by
  cases r' with
  | none => rfl
  | some z => exact runRoute_cons he (hr z rfl)

theorem runRoute_eq_runOpt : runRoute sch place l'
      = runOpt (l'.map fun z => runRoute sch place (some z)) := by
  cases l' <;> rfl

/-- Two routes that enter by the same element converge exactly when they
converge inside. -/
theorem converges_cons_iff (he : enter sch place e.slot = .ok inner)
    (hee : e.slot = e'.slot) (hc : child place v e.slot = .ok c)
    (hl : l.path ≠ []) (hr : r.path ≠ [])
    (hl' : ∀ z ∈ l', z.path ≠ []) (hr' : ∀ z ∈ r', z.path ≠ []) :
    Converges (runRoute sch place (some (l.cons e)))
        (runRoute sch place (r'.map (Route.cons e')))
        (runRoute sch place (some (r.cons e')))
        (runRoute sch place (l'.map (Route.cons e))) v
      ↔ Converges (runRoute sch inner (some l)) (runRoute sch inner r')
          (runRoute sch inner (some r)) (runRoute sch inner l') c := by
  have he' : enter sch place e'.slot = .ok inner := hee ▸ he
  rw [runRoute_cons he hl, runRoute_cons he' hr, runRoute_map_cons he hl',
    runRoute_map_cons he' hr', ← hee]
  rw [PartialLens.converges_modify_opt_iff hc, ← runRoute_eq_runOpt,
    ← runRoute_eq_runOpt]

/-- What an accepted route finds below its first element. -/
theorem runRoute_cons_eq_ok {w : Value} (hr : r.path ≠ [])
    (h : runRoute sch place (some (r.cons e)) v = .ok w) :
    ∃ inner c d, enter sch place e.slot = .ok inner
      ∧ child place v e.slot = .ok c ∧ runRoute sch inner (some r) c = .ok d
      ∧ w = withChild place v e.slot d := by
  obtain ⟨path, op⟩ := r
  cases path with
  | nil => exact absurd rfl hr
  | cons e2 path =>
    obtain ⟨inner, hinner, h⟩ := bind_eq_ok.1 h
    obtain ⟨c, hc, h⟩ := bind_eq_ok.1 h
    obtain ⟨d, hd, h⟩ := bind_eq_ok.1 h
    exact ⟨inner, c, d, hinner, hc, hd, (Except.ok.inj h).symm⟩

-- ===== merging

variable {ls rs : Discriminant} {x y : Leaf} {op op' : Op}
  {p q rest : List Elem} {x' y' : Option Leaf} {next : Elem}

theorem sameContainer_cons (hp : p ≠ []) : sameContainer (e :: p) (e' :: q)
      = (sameElement e e' && sameContainer p q) := by
  simp [sameContainer, List.dropLast_cons_of_ne_nil hp]

theorem withLeaf_cons (hp : p ≠ []) (x : Leaf) :
    Route.withLeaf (e :: p) x = (Route.withLeaf p x).cons e := by
  simp [withLeaf, cons, List.dropLast_cons_of_ne_nil hp]

theorem mergeNested_cons (hl : l.path ≠ []) :
    mergeNested (l.cons e) (r.cons e')
      = if sameElement e e' then
          (fun p => (p.1.cons e, p.2.map (Route.cons e'))) <$> mergeNested l r
        else .ok (l.cons e, some (r.cons e')) := by
  obtain ⟨n, hn⟩ : ∃ n, l.path.length = n + 1 :=
    Nat.exists_eq_succ_of_ne_zero (by simpa using hl)
  have hlast : (e :: l.path).getLast? = l.path.getLast? := by
    rw [List.getLast?_cons, List.getLast?_eq_some_getLast hl]
    rfl
  simp only [mergeNested, cons_path, cons_op, List.length_cons, hn,
    Nat.add_sub_cancel, hlast, List.getElem?_cons_succ, sameContainer_cons hl]
  cases hs : sameElement e e' with
  | false =>
    simp only [Bool.false_and, Bool.false_eq_true, if_false]
    split <;> rfl
  | true =>
    simp only [Bool.true_and, if_true]
    split
    · split
      · next last elem next _ _ _ _ =>
          cases mergeNestedSlot ⟨last, l.op⟩ elem next with
          | error err => rfl
          | ok p =>
            obtain ⟨o, x⟩ := p
            simp only [ok_bind, map_ok, withLeaf_cons hl]
            cases x <;> rfl
      · rfl
    · rfl

/-- Behind a shared first element, routes are merged as what follows
it. -/
theorem mergeRoutes_cons (hl : l.path ≠ []) (hr : r.path ≠ []) :
    mergeRoutes ls rs (l.cons e) (r.cons e')
      = if sameElement e e' then
          (fun p => (p.1.map (Route.cons e), p.2.map (Route.cons e')))
            <$> mergeRoutes ls rs l r
        else .ok (some (l.cons e), some (r.cons e')) := by
  simp only [mergeRoutes, cons_path, cons_op, List.length_cons,
    Nat.add_lt_add_iff_right, mergeNested_cons hl, mergeNested_cons hr,
    @sameElement_comm e' e, sameContainer_cons hl]
  split
  · cases sameElement e e' <;> cases mergeNested l r <;> rfl
  split
  · cases sameElement e e' <;> cases mergeNested r l <;> rfl
  rw [List.getLast?_cons, List.getLast?_cons,
    List.getLast?_eq_some_getLast hl, List.getLast?_eq_some_getLast hr]
  cases sameElement e e' with
  | false => rfl
  | true =>
    simp only [Bool.true_and, if_true, Option.getD_some]
    split
    · cases mergeSlots ls rs ⟨l.path.getLast hl, l.op⟩
        ⟨r.path.getLast hr, r.op⟩ with
      | error err => rfl
      | ok p =>
        obtain ⟨x, y⟩ := p
        cases x <;> cases y <;>
          simp [withLeaf_cons hl, withLeaf_cons hr]
    · rfl

/-- A route that ends here against one that goes on: the nested rule. -/
theorem mergeRoutes_leaf_deep :
    mergeRoutes ls rs ⟨[e], op⟩ ⟨e' :: next :: rest, op'⟩
      = (mergeNestedSlot ⟨e, op⟩ e' next >>= fun p =>
          .ok (some ⟨[p.1.elem], p.1.op⟩,
            p.2.map fun x => ⟨x :: next :: rest, op'⟩)) := by
  have hnested : mergeNested ⟨[e], op⟩ ⟨e' :: next :: rest, op'⟩
      = (mergeNestedSlot ⟨e, op⟩ e' next >>= fun p =>
          .ok (⟨[p.1.elem], p.1.op⟩,
            p.2.map fun x => ⟨x :: next :: rest, op'⟩)) := rfl
  rw [mergeRoutes, if_pos (by simp), hnested]
  cases mergeNestedSlot ⟨e, op⟩ e' next <;> rfl

theorem mergeRoutes_deep_leaf :
    mergeRoutes ls rs ⟨e' :: next :: rest, op'⟩ ⟨[e], op⟩
      = Prod.swap <$> mergeRoutes rs ls ⟨[e], op⟩ ⟨e' :: next :: rest, op'⟩ := by
  rw [mergeRoutes, if_neg (by simp), if_pos (by simp), mergeRoutes,
    if_pos (by simp)]
  cases mergeNested ⟨[e], op⟩ ⟨e' :: next :: rest, op'⟩ <;> rfl

/-- What survives a merge is still a route to somewhere. -/
theorem mergeRoutes_path_ne_nil (hl : l.path ≠ []) (hr : r.path ≠ [])
    (h : mergeRoutes ls rs l r = .ok (l', r')) :
    (∀ z ∈ l', z.path ≠ []) ∧ ∀ z ∈ r', z.path ≠ [] := by
  have hleaf : ∀ (p : List Elem) (x : Leaf), (withLeaf p x).path ≠ [] := by
    simp [withLeaf]
  have hnested : ∀ {a b o : Route} {i : Option Route}, a.path ≠ [] →
      b.path ≠ [] → mergeNested a b = .ok (o, i) →
      o.path ≠ [] ∧ ∀ z ∈ i, z.path ≠ [] := by
    intro a b o i ha hb h
    unfold mergeNested at h
    dsimp only at h
    split at h
    · split at h
      · obtain ⟨⟨x, y⟩, -, h⟩ := bind_eq_ok.1 h
        cases h
        refine ⟨hleaf _ _, fun z hz => ?_⟩
        obtain ⟨w, -, rfl⟩ := Option.map_eq_some_iff.1 hz
        simpa using hb
      · cases h
        simp [ha, hb]
    · cases h
      simp [ha, hb]
  unfold mergeRoutes at h
  split at h
  · obtain ⟨⟨o, i⟩, ho, h⟩ := bind_eq_ok.1 h
    cases h
    have := hnested hl hr ho
    exact ⟨by simpa using this.1, this.2⟩
  split at h
  · obtain ⟨⟨o, i⟩, ho, h⟩ := bind_eq_ok.1 h
    cases h
    have := hnested hr hl ho
    exact ⟨this.2, by simpa using this.1⟩
  split at h
  · split at h
    · obtain ⟨⟨x, y⟩, -, h⟩ := bind_eq_ok.1 h
      cases h
      simp [hleaf]
    · cases h
      simp [hl, hr]
  · cases h
    simp [hl, hr]

/-- Two routes in one container are merged, and the two orders end in the
same value. -/
def RoutesTp1 (sch : Schema) (place : Place) (ls rs : Discriminant)
    (l r : Route) (v : Value) : Prop :=
  ∃ l' r', mergeRoutes ls rs l r = .ok (l', r')
    ∧ Converges (runRoute sch place (some l)) (runRoute sch place r')
        (runRoute sch place (some r)) (runRoute sch place l') v

theorem routesTp1_cons_iff (he : enter sch place e.slot = .ok inner)
    (hee : e.slot = e'.slot) (hc : child place v e.slot = .ok c)
    (hl : l.path ≠ []) (hr : r.path ≠ []) :
    RoutesTp1 sch place ls rs (l.cons e) (r.cons e') v
      ↔ RoutesTp1 sch inner ls rs l r c := by
  unfold RoutesTp1
  rw [mergeRoutes_cons hl hr, if_pos (sameElement_iff.2 hee)]
  constructor
  · rintro ⟨l', r', hm, hconv⟩
    obtain ⟨⟨x, y⟩, hxy, h⟩ := map_eq_ok.1 hm
    cases h
    obtain ⟨hx, hy⟩ := mergeRoutes_path_ne_nil hl hr hxy
    exact ⟨x, y, hxy, (converges_cons_iff he hee hc hl hr hx hy).1 hconv⟩
  · rintro ⟨x, y, hm, hconv⟩
    obtain ⟨hx, hy⟩ := mergeRoutes_path_ne_nil hl hr hm
    exact ⟨_, _, map_eq_ok.2 ⟨_, hm, rfl⟩,
      (converges_cons_iff he hee hc hl hr hx hy).2 hconv⟩

/-- What two accepted routes into one part find there. -/
theorem routesTp1_cons {w1 w2 : Value} (hee : e.slot = e'.slot)
    (hl : l.path ≠ []) (hr : r.path ≠ [])
    (hlv : runRoute sch place (some (l.cons e)) v = .ok w1)
    (hrv : runRoute sch place (some (r.cons e')) v = .ok w2) :
    ∃ inner c d d', enter sch place e.slot = .ok inner
      ∧ child place v e.slot = .ok c ∧ runRoute sch inner (some l) c = .ok d
      ∧ runRoute sch inner (some r) c = .ok d'
      ∧ ∀ ls rs, RoutesTp1 sch place ls rs (l.cons e) (r.cons e') v
        ↔ RoutesTp1 sch inner ls rs l r c := by
  obtain ⟨i1, c, d, he1, hc, hd, -⟩ := runRoute_cons_eq_ok hl hlv
  obtain ⟨i2, c', d', he2, hc', hd', -⟩ := runRoute_cons_eq_ok hr hrv
  rw [← hee] at he2 hc'
  cases he1.symm.trans he2
  cases hc.symm.trans hc'
  exact ⟨i1, c, d, d', he1, hc, hd, hd',
    fun ls rs => routesTp1_cons_iff he1 hee hc hl hr⟩

/-- Routes that enter by different elements and go on pass each
other. -/
theorem routesTp1_cons_ne {w1 w2 : Value} (hee : e.slot ≠ e'.slot)
    (hl : l.path ≠ []) (hr : r.path ≠ [])
    (hlv : runRoute sch place (some (l.cons e)) v = .ok w1)
    (hrv : runRoute sch place (some (r.cons e')) v = .ok w2) :
    RoutesTp1 sch place ls rs (l.cons e) (r.cons e') v := by
  obtain ⟨i1, -, -, he1, -⟩ := runRoute_cons_eq_ok hl hlv
  obtain ⟨i2, -, -, he2, -⟩ := runRoute_cons_eq_ok hr hrv
  refine ⟨some (l.cons e), some (r.cons e'), ?_, ?_⟩
  · rw [mergeRoutes_cons hl hr, if_neg (mt sameElement_iff.1 hee)]
  · rw [runRoute_cons he1 hl] at hlv ⊢
    rw [runRoute_cons he2 hr] at hrv ⊢
    exact PartialLens.converges_of_independent (childLens_independent hee)
      hlv hrv

-- ===== fields

/-- A leaf at a key, if `x` is one, stays at it. -/
def KeepsKey (x z : Leaf) : Prop := ∀ k, x.elem = .key k → z.elem = .key k

theorem withIndexes_keepsKey {rule : UInt32 → UInt32 → Merged}
    (h : withIndexes x y rule = .ok (x', y')) :
    (∀ z ∈ x', KeepsKey x z) ∧ ∀ z ∈ y', KeepsKey y z := by
  unfold withIndexes at h
  split at h
  · next hx hy => simp [KeepsKey, hx, hy]
  · cases h

theorem mergeOrdered_keepsKey (h : mergeOrdered ls rs x y = .ok (x', y')) :
    (∀ z ∈ x', KeepsKey x z) ∧ ∀ z ∈ y', KeepsKey y z := by
  have hkeep : (∀ z ∈ x', z = x) ∧ (∀ z ∈ y', z.elem = y.elem) →
      (∀ z ∈ x', KeepsKey x z) ∧ ∀ z ∈ y', KeepsKey y z := by
    rintro ⟨hx, hy⟩
    exact ⟨fun z hz k hk => hx z hz ▸ hk, fun z hz k hk => (hy z hz).trans hk⟩
  unfold mergeOrdered at h
  split at h <;> try exact withIndexes_keepsKey h
  all_goals
    apply hkeep
    simp only [mergeUpdateUpdate, mergeAddIntegerUpdate, mergeClearUpdate,
      keepBoth, discardOlder] at h
  · split at h
    · obtain ⟨-, -, h⟩ := bind_eq_ok.1 h
      obtain ⟨-, -, h⟩ := bind_eq_ok.1 h
      split_ifs at h <;> cases h <;> simp
    · cases h
      simp
  · split at h
    · split at h
      · split at h <;> cases h <;> simp
      · cases h
        simp
    · cases h
      simp
  all_goals
    try split_ifs at h
    all_goals
      cases h
      simp

theorem mergeSlots_keepsKey (h : mergeSlots ls rs x y = .ok (x', y')) :
    (∀ z ∈ x', KeepsKey x z) ∧ ∀ z ∈ y', KeepsKey y z := by
  unfold mergeSlots at h
  split at h
  · obtain ⟨⟨a, b⟩, hab, h⟩ := map_eq_ok.1 h
    cases h
    exact (mergeOrdered_keepsKey hab).symm
  · exact mergeOrdered_keepsKey h

theorem mergeNestedSlot_keepsKey {o : Leaf} {i : Option Elem}
    (h : mergeNestedSlot x e e' = .ok (o, i)) :
    KeepsKey x o ∧ ∀ z ∈ i, ∀ k, e = .key k → z = .key k := by
  -- The array rules fail at a key, and no other rule moves anything.
  have harray : ∀ {f : UInt32 × UInt32 → Leaf × Option Elem},
      (correspondingIndex x e >>= fun p => .ok (f p)) = .ok (o, i) →
      KeepsKey x o ∧ ∀ z ∈ i, ∀ k, e = .key k → z = .key k := by
    intro f h
    obtain ⟨_, hi, -⟩ := bind_eq_ok.1 h
    unfold correspondingIndex at hi
    split at hi
    · next hx _ => simp [KeepsKey, hx]
    · cases hi
    · cases hi
  unfold mergeNestedSlot at h
  split at h
  · split_ifs at h
    · cases h
      simp [KeepsKey]
    · split at h <;> cases h <;> simp [KeepsKey]
    · cases h
      simp [KeepsKey]
  · cases h
    split <;> simp [KeepsKey]
  · exact harray h
  · exact harray h
  · split_ifs at h
    · cases h
      simp [KeepsKey]
    · exact harray h
  · cases h
    split <;> simp [KeepsKey]
  · cases h
    simp [KeepsKey]
  · cases h
    simp [KeepsKey]

/-- Merging leaves the fields of the routes as they are. -/
theorem mergeRoutes_field {f g : Interned}
    (h : mergeRoutes ls rs ⟨.key f :: p, op⟩ ⟨.key g :: q, op'⟩
      = .ok (l', r')) :
    (∀ z ∈ l', ∃ t, z.path = .key f :: t)
      ∧ ∀ z ∈ r', ∃ t, z.path = .key g :: t := by
  have hnested : ∀ {f g : Interned} {e : Elem} {q : List Elem} {op op' : Op}
      {o : Route} {i : Option Route},
      mergeNested ⟨[.key f], op⟩ ⟨.key g :: e :: q, op'⟩ = .ok (o, i) →
      (∃ t, o.path = .key f :: t) ∧ ∀ z ∈ i, ∃ t, z.path = .key g :: t := by
    intro f g e q op op' o i h
    obtain ⟨⟨x, y⟩, hxy, h⟩ := bind_eq_ok.1 h
    cases h
    obtain ⟨hx, hy⟩ := mergeNestedSlot_keepsKey hxy
    refine ⟨⟨[], by simp [withLeaf, hx f rfl]⟩, fun z hz => ?_⟩
    obtain ⟨w, hw, rfl⟩ := Option.map_eq_some_iff.1 hz
    exact ⟨e :: q, by simp [hy w hw g rfl]⟩
  cases p with
  | nil =>
    cases q with
    | nil =>
      obtain ⟨⟨x, y⟩, hxy, h⟩ := bind_eq_ok.1 h
      cases h
      obtain ⟨hx, hy⟩ := mergeSlots_keepsKey hxy
      constructor
      · intro z hz
        obtain ⟨w, hw, rfl⟩ := Option.map_eq_some_iff.1 hz
        exact ⟨[], by simp [withLeaf, hx w hw f rfl]⟩
      · intro z hz
        obtain ⟨w, hw, rfl⟩ := Option.map_eq_some_iff.1 hz
        exact ⟨[], by simp [withLeaf, hy w hw g rfl]⟩
    | cons e q =>
      rw [mergeRoutes, if_pos (by simp)] at h
      obtain ⟨⟨o, i⟩, ho, h⟩ := bind_eq_ok.1 h
      cases h
      have := hnested ho
      exact ⟨by simpa using this.1, this.2⟩
  | cons e p =>
    cases q with
    | nil =>
      rw [mergeRoutes, if_neg (by simp), if_pos (by simp)] at h
      obtain ⟨⟨o, i⟩, ho, h⟩ := bind_eq_ok.1 h
      cases h
      have := hnested ho
      exact ⟨this.2, by simpa using this.1⟩
    | cons e' q =>
      have h' : mergeRoutes ls rs (cons (.key f) ⟨e :: p, op⟩)
          (cons (.key g) ⟨e' :: q, op'⟩) = .ok (l', r') := h
      rw [mergeRoutes_cons (by simp) (by simp)] at h'
      split at h'
      · obtain ⟨⟨x, y⟩, -, h'⟩ := map_eq_ok.1 h'
        cases h'
        constructor <;> intro z hz <;>
          obtain ⟨w, -, rfl⟩ := Option.map_eq_some_iff.1 hz <;>
          exact ⟨w.path, rfl⟩
      · cases h'
        simp

end Routes

-- ===== prefixes

/-- The container a path leads to, from a container on. -/
def descend (sch : Schema) (place : Place) (v : Value) :
    List Slot → Except ApplyError (Place × Value)
  | [] => .ok (place, v)
  | e :: rest => do
      let inner ← enter sch place e
      let c ← child place v e
      descend sch inner c rest

/-- The route entered by a list of path elements first. -/
def Route.prepend (pre : List Elem) (r : Route) : Route :=
  ⟨pre ++ r.path, r.op⟩

theorem Route.prepend_nil (r : Route) : r.prepend [] = r := rfl

theorem Route.prepend_cons (e : Elem) (pre : List Elem) (r : Route) :
    r.prepend (e :: pre) = (r.prepend pre).cons e := rfl

theorem Route.prepend_path_ne_nil {r : Route} (pre : List Elem)
    (h : r.path ≠ []) : (r.prepend pre).path ≠ [] := by
  simp [prepend, h]

section Prefixes

variable {sch : Schema} {place inner : Place} {v c w : Value}
  {ls rs : Discriminant} {l r : Route} {pre pre' : List Elem}

/-- An accepted route runs in the container its path leads to. -/
theorem runRoute_prepend_eq_ok (hr : r.path ≠ [])
    (h : runRoute sch place (some (r.prepend pre)) v = .ok w) :
    ∃ inner c a, descend sch place v (pre.map PathElement.slot)
        = .ok (inner, c)
      ∧ runRoute sch inner (some r) c = .ok a := by
  induction pre generalizing place v w with
  | nil => exact ⟨place, v, w, rfl, h⟩
  | cons e pre ih =>
    obtain ⟨i, c, d, he, hc, hd, -⟩ :=
      runRoute_cons_eq_ok (prepend_path_ne_nil pre hr) h
    obtain ⟨inner, c', a, hdesc, ha⟩ := ih hd
    refine ⟨inner, c', a, ?_, ha⟩
    simp [descend, he, hc, hdesc]

section

variable (hpre : pre.map PathElement.slot = pre'.map PathElement.slot) (hl
  : l.path ≠ []) (hr : r.path ≠ [])

include hpre hl hr

/-- Behind a shared path, routes are merged as what follows it. -/
theorem mergeRoutes_prepend :
    mergeRoutes ls rs (l.prepend pre) (r.prepend pre')
      = (fun p => (p.1.map (Route.prepend pre), p.2.map (Route.prepend pre')))
          <$> mergeRoutes ls rs l r := by
  induction pre generalizing pre' with
  | nil =>
    obtain rfl : pre' = [] := by simpa using hpre.symm
    rw [prepend_nil, prepend_nil]
    cases mergeRoutes ls rs l r with
    | error e => rfl
    | ok p =>
      obtain ⟨x, y⟩ := p
      cases x <;> cases y <;> rfl
  | cons e pre ih =>
    cases pre' with
    | nil => simp at hpre
    | cons e' pre' =>
      obtain ⟨hee, hpre⟩ := List.cons.inj hpre
      rw [prepend_cons, prepend_cons,
        mergeRoutes_cons (prepend_path_ne_nil _ hl)
          (prepend_path_ne_nil _ hr),
        if_pos (sameElement_iff.2 hee), ih hpre]
      cases mergeRoutes ls rs l r with
      | error e => rfl
      | ok p =>
        obtain ⟨x, y⟩ := p
        cases x <;> cases y <;> rfl

/-- Routes behind a shared path are merged rightly exactly when they are
in the container it leads to. -/
theorem routesTp1_prepend_iff
    (hd : descend sch place v (pre.map PathElement.slot) = .ok (inner, c)) :
    RoutesTp1 sch place ls rs (l.prepend pre) (r.prepend pre') v
      ↔ RoutesTp1 sch inner ls rs l r c := by
  induction pre generalizing pre' place v with
  | nil =>
    obtain rfl : pre' = [] := by simpa using hpre.symm
    cases hd
    rfl
  | cons e pre ih =>
    cases pre' with
    | nil => simp at hpre
    | cons e' pre' =>
      obtain ⟨hee, hpre⟩ := List.cons.inj hpre
      obtain ⟨i, he, hd⟩ := bind_eq_ok.1 hd
      obtain ⟨d, hc, hd⟩ := bind_eq_ok.1 hd
      rw [prepend_cons, prepend_cons,
        routesTp1_cons_iff he hee hc (prepend_path_ne_nil _ hl)
          (prepend_path_ne_nil _ hr),
        ih hpre hd]

end

end Prefixes

-- ===== instructions

/-- One instruction on the database, or none if it was discarded. -/
def applyOpt (sch : Schema) (i : Option Instr) (s : State) :
    Except ApplyError State :=
  match i with
  | none => .ok s
  | some i => applyInstr sch s i

/-- Two instructions are merged, one for one, and the two orders end in
the same state. -/
def InstrTp1 (sch : Schema) (ls rs : Side) (l r : Instr) (s : State) :
    Prop :=
  ∃ l' r', mergeInstructions ls rs l r = .ok ⟨l', r', [], []⟩
    ∧ Converges (applyOpt sch (some l)) (applyOpt sch r')
        (applyOpt sch (some r)) (applyOpt sch l') s

theorem sameObject_iff {t t' : Interned} {k k' : PrimaryKey Interned} :
    sameObject t k t' k' = true ↔ objectRef t k = objectRef t' k' := by
  simp [sameObject, sameString, sameKey, objectRef]

section Objects

variable {sch : Schema} {ls rs : Side} {s : State} {t : Table} {v : Value}
  {p q : PathInstruction Interned Buffered}

/-- A path instruction is its route over the object it names. -/
theorem applyOpt_path
    (ht : objectTable sch (objectRef p.table p.object) = .ok t) :
    applyOpt sch (some (.path p))
      = (objectLens (objectRef p.table p.object)).modify
          (runRoute sch (.object t) (some p.route)) := by
  funext s
  simp only [applyOpt, applyInstr, applyPath, ht, ok_bind, PartialLens.modify,
    objectLens]
  cases s (objectRef p.table p.object) <;> rfl

/-- What an accepted path instruction finds. -/
theorem applyOpt_path_eq_ok {s' : State}
    (h : applyOpt sch (some (.path p)) s = .ok s') :
    ∃ t v w, objectTable sch (objectRef p.table p.object) = .ok t
      ∧ s (objectRef p.table p.object) = some v
      ∧ runRoute sch (.object t) (some p.route) v = .ok w
      ∧ s' = Function.update s (objectRef p.table p.object) (some w) := by
  simp only [applyOpt, applyInstr, applyPath] at h
  obtain ⟨t, ht, h⟩ := bind_eq_ok.1 h
  split at h
  · cases h
  · next v hv =>
      obtain ⟨w, hw, h⟩ := bind_eq_ok.1 h
      exact ⟨t, v, w, ht, hv, hw, (Except.ok.inj h).symm⟩

theorem withRoute_route {r : Route} (h : ∃ t, r.path = .key p.field :: t) :
    (p.withRoute r).route = r := by
  obtain ⟨path, op⟩ := r
  obtain ⟨t, rfl⟩ := h
  rfl

/-- Path instructions on one object are merged rightly exactly when their
routes are. -/
theorem pathTp1_iff
    (hobj : objectRef p.table p.object = objectRef q.table q.object)
    (ht : objectTable sch (objectRef p.table p.object) = .ok t)
    (hv : s (objectRef p.table p.object) = some v) :
    InstrTp1 sch ls rs (.path p) (.path q) s
      ↔ RoutesTp1 sch (.object t) ls.timestamp rs.timestamp p.route q.route
          v := by
  have hmerge : mergeInstructions ls rs (.path p) (.path q)
      = (mergeRoutes ls.timestamp rs.timestamp p.route q.route >>= fun x =>
        .ok ⟨x.1.map fun z => .path (p.withRoute z),
          x.2.map fun z => .path (q.withRoute z), [], []⟩) := by
    simp only [mergeInstructions, mergePaths, if_pos (sameObject_iff.2 hobj)]
  have hopt : ∀ {p : PathInstruction Interned Buffered} {z' : Option Route},
      objectTable sch (objectRef p.table p.object) = .ok t →
      (∀ z ∈ z', ∃ t, z.path = .key p.field :: t) →
      applyOpt sch (z'.map fun z => .path (p.withRoute z))
        = runOpt ((z'.map fun z => runRoute sch (.object t) (some z)).map
            (objectLens (objectRef p.table p.object)).modify) := by
    intro p z' ht hz
    cases z' with
    | none => rfl
    | some z =>
      have := applyOpt_path (p := p.withRoute z) ht
      rwa [withRoute_route (hz z rfl)] at this
  have hiff : ∀ {l' r' : Option Route},
      mergeRoutes ls.timestamp rs.timestamp p.route q.route = .ok (l', r') →
      (Converges (applyOpt sch (some (.path p)))
          (applyOpt sch (r'.map fun z => .path (q.withRoute z)))
          (applyOpt sch (some (.path q)))
          (applyOpt sch (l'.map fun z => .path (p.withRoute z))) s
        ↔ Converges (runRoute sch (.object t) (some p.route))
          (runRoute sch (.object t) r') (runRoute sch (.object t) (some q.route))
          (runRoute sch (.object t) l') v) := by
    intro l' r' hm
    obtain ⟨hl', hr'⟩ := mergeRoutes_field hm
    have htq := hobj ▸ ht
    rw [applyOpt_path ht, applyOpt_path htq, hopt ht hl', hopt htq hr', ← hobj,
      PartialLens.converges_modify_opt_iff (objectLens_get.2 hv),
      ← runRoute_eq_runOpt, ← runRoute_eq_runOpt]
  constructor
  · rintro ⟨l', r', hm, hconv⟩
    rw [hmerge] at hm
    obtain ⟨⟨x, y⟩, hxy, h⟩ := bind_eq_ok.1 hm
    cases h
    exact ⟨x, y, hxy, (hiff hxy).1 hconv⟩
  · rintro ⟨x, y, hxy, hconv⟩
    exact ⟨_, _, hmerge.trans (bind_eq_ok.2 ⟨_, hxy, rfl⟩), (hiff hxy).2 hconv⟩

end Objects

-- ===== examples

/-- A table, and a database, in which every field is of one column. -/
def oneColumnTable (col : Column) : Table :=
  ⟨false, none, fun _ => some col, nofun⟩

@[inherit_doc oneColumnTable]
def oneColumnSchema (col : Column) : Schema :=
  ⟨fun _ => some (oneColumnTable col), fun _ => (0, 0)⟩

/-- Every object holds `v` in every field. -/
def everywhere (v : Value) : State := fun _ => some (.object fun _ => v)

/-- An instruction on the field with the empty name of one object. -/
def atField (path : List Elem) (op : Op) :
    PathInstruction Interned Buffered :=
  ⟨⟨0, []⟩, .globalKey ⟨0, 0⟩, ⟨0, []⟩, path, op⟩

/-- That field, read back. -/
def readField (s : State) : Option Value :=
  match s ([], .globalKey ⟨0, 0⟩) with
  | some (.object f) => some (f [])
  | _ => none

/-- A list column of `Mixed`, and a single `Mixed`. -/
def mixedListColumn : Column := ⟨.mixed, true, .list, []⟩
def mixedColumn : Column := ⟨.mixed, true, .single, []⟩

/-- Two sides of a merge, of which the first is the later one. -/
def laterSide : Side := ⟨⟨2, 1⟩, fun b => ⟨0, b⟩⟩
def earlierSide : Side := ⟨⟨1, 2⟩, fun b => ⟨0, b⟩⟩

end BarqSync
