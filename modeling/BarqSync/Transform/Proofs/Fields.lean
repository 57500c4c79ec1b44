/-
Two instructions on one object, at the SAME path or one below the other,
are merged rightly exactly when they do not clash (`fieldTp1_iff`).
-/
import BarqSync.Transform.Proofs.Below

namespace BarqSync

open PathElement Ot

variable {ls rs : Discriminant} {place : Place} {sch : Schema}

-- ===== routes

/-- A clash of two routes, where they meet: of two leaves in one
container, or of a leaf with a route that goes on below it. -/
def RouteClash (sch : Schema) (leaf : Place → Value → Leaf → Leaf → Prop)
    (nested : Place → Value → Leaf → Elem → Route → Prop) :
    Place → Value → List Elem → List Elem → Op → Op → Prop
  | place, v, [e], [e'], op, op' => leaf place v ⟨e, op⟩ ⟨e', op'⟩
  | place, v, [e], e' :: next :: rest, op, op' =>
    nested place v ⟨e, op⟩ e' ⟨next :: rest, op'⟩
  | place, v, e :: next :: rest, [e'], op, op' =>
    nested place v ⟨e', op'⟩ e ⟨next :: rest, op⟩
  | place, v, e :: next :: rest, e' :: next' :: rest', op, op' =>
    e.slot = e'.slot
      ∧ ∃ inner c, enter sch place e.slot = .ok inner
        ∧ child place v e.slot = .ok c
        ∧ RouteClash sch leaf nested inner c (next :: rest)
            (next' :: rest') op op'
  | _, _, _, _, _, _ => False

theorem routesTp1_deep_leaf {e e' next : Elem} {rest : List Elem}
    {op op' : Op} {v : Value} :
    RoutesTp1 sch place ls rs ⟨e' :: next :: rest, op'⟩ ⟨[e], op⟩ v
      ↔ RoutesTp1 sch place rs ls ⟨[e], op⟩ ⟨e' :: next :: rest, op'⟩ v := by
  unfold RoutesTp1
  rw [mergeRoutes_deep_leaf]
  constructor
  · rintro ⟨l', r', hm, hconv⟩
    obtain ⟨⟨x, y⟩, hxy, h⟩ := map_eq_ok.1 hm
    cases h
    exact ⟨x, y, hxy, hconv.symm⟩
  · rintro ⟨x, y, hxy, hconv⟩
    exact ⟨y, x, map_eq_ok.2 ⟨_, hxy, rfl⟩, hconv.symm⟩

/-- The clashes of slot operations. -/
def FieldClashes (sch : Schema) (ls rs : Discriminant) :
    Place → Value → List Elem → List Elem → Op → Op → Prop :=
  RouteClash sch (fun place v x y => ¬(SamePriorSize x y
      ∧ ¬SlotClash ls rs x y (slotContent place v x.elem.slot)))
    (fun place v x _ r => NestedClash sch place v x.op r)

/-- Slot operations at the same path or one below the other. -/
theorem fieldRoutes_tp1_iff {op op' : Op} (hop : Op.isSlotOp op = true)
    (hop' : Op.isSlotOp op' = true) {p q : List Elem} {v a b : Value}
    (hp : p ≠ []) (hq : q ≠ [])
    (hpq : p.map PathElement.slot <+: q.map PathElement.slot
      ∨ q.map PathElement.slot <+: p.map PathElement.slot)
    (hx : runRoute sch place (some ⟨p, op⟩) v = .ok a)
    (hy : runRoute sch place (some ⟨q, op'⟩) v = .ok b) :
    RoutesTp1 sch place ls rs ⟨p, op⟩ ⟨q, op'⟩ v
      ↔ ¬FieldClashes sch ls rs place v p q op op' := by
  induction p generalizing q place v a b with
  | nil => exact absurd rfl hp
  | cons e p ih =>
    cases q with
    | nil => exact absurd rfl hq
    | cons e' q =>
      have he : e.slot = e'.slot := by
        rcases hpq with h | h
        · exact (List.cons_prefix_cons.1 h).1
        · exact (List.cons_prefix_cons.1 h).1.symm
      cases p with
      | nil =>
        cases q with
        | nil =>
          have hleaf : LeafTp1 sch place ls rs ⟨e, op⟩ ⟨e', op'⟩ v
              ↔ _ := leafTp1_iff he hop hop' hx hy
          exact routesTp1_leaf_iff.trans (hleaf.trans not_not.symm)
        | cons next q => exact nestedRoutesTp1_iff hop he hx hy
      | cons n p =>
        cases q with
        | nil =>
          exact routesTp1_deep_leaf.trans
            (nestedRoutesTp1_iff hop' he.symm hy hx)
        | cons n' q =>
          obtain ⟨i, c, d, d', hi, hc, hd, hd', hiff⟩ := routesTp1_cons
            (l := ⟨n :: p, op⟩) (r := ⟨n' :: q, op'⟩) he (by simp) (by simp)
            hx hy
          have hclash : FieldClashes sch ls rs place v (e :: n :: p)
              (e' :: n' :: q) op op'
                ↔ FieldClashes sch ls rs i c (n :: p) (n' :: q) op op' := by
            simp only [FieldClashes, RouteClash, he, true_and]
            rw [← he]
            simp [hi, hc]
          rw [hclash, ← ih (by simp) (by simp) ?_ hd hd']
          · exact hiff ls rs
          · exact hpq.imp (fun h => (List.cons_prefix_cons.1 h).2)
              fun h => (List.cons_prefix_cons.1 h).2

-- ===== objects

/-- Instructions on an object and its slots. -/
def isFieldInstr : Instr → Bool
  | .createObject .. => true
  | .eraseObject .. => true
  | .path p => Op.isSlotOp p.op
  | _ => false

/-- The object an instruction is about. -/
def instrObject : Instr → Option ObjectRef
  | .createObject t k => some (objectRef t k)
  | .eraseObject t k => some (objectRef t k)
  | .path p => some (objectRef p.table p.object)
  | _ => none

/-- Of two path instructions, one is at the other's path or below it. -/
def PathsComparable : Instr → Instr → Prop
  | .path p, .path q =>
    p.fullPath.map PathElement.slot <+: q.fullPath.map PathElement.slot
      ∨ q.fullPath.map PathElement.slot <+: p.fullPath.map PathElement.slot
  | _, _ => True

/-- The clashes of two instructions on one object. -/
def FieldClash (sch : Schema) (ls rs : Discriminant) (l r : Instr)
    (s : State) : Prop :=
  match l, r with
  | .path p, .path q =>
    ∃ t v, objectTable sch (objectRef p.table p.object) = .ok t
      ∧ s (objectRef p.table p.object) = some v
      ∧ FieldClashes sch ls rs (.object t) v p.fullPath q.fullPath p.op q.op
  | _, _ => False

section Objects

variable {sch : Schema} {ls rs : Side} {s s' : State} {t : Interned}
  {k : PrimaryKey Interned} {i : Instr} {s1 s2 : State} {ref : ObjectRef}

/-- Only instructions on objects are executed. -/
theorem instrObject_of_applied (h : applyOpt sch (some i) s = .ok s') :
    ∃ ref, instrObject i = some ref := by
  cases i with
  | createObject t k | eraseObject t k | path p => exact ⟨_, rfl⟩
  | _ => cases h

section

variable (hi : instrObject i = some ref) (h : applyOpt sch (some i) s = .ok
  s')

include hi h

/-- An accepted instruction acts on the object it is about. -/
theorem exists_modify :
    ∃ f, applyOpt sch (some i) = (refLens ref).modify f := by
  cases i with
  | createObject t k =>
    cases hi
    obtain ⟨x, hx, h⟩ := bind_eq_ok.1 h
    have hemb : x.embedded = false := by
      cases hemb : x.embedded with
      | false => rfl
      | true => simp [hemb] at h
    refine ⟨fun o => .ok (some (o.getD (x.newObject (objectRef t k).2))), ?_⟩
    funext s1
    simp only [applyOpt, applyInstr, hx, ok_bind, hemb, PartialLens.modify,
      refLens, Bool.false_eq_true, if_false]
    cases hs : s1 (objectRef t k) with
    | none => rfl
    | some v =>
      have : Function.update s1 (objectRef t k) (some v) = s1 := by
        rw [← hs, Function.update_eq_self]
      simp [this]
  | eraseObject t k =>
    cases hi
    obtain ⟨x, hx, -⟩ := bind_eq_ok.1 h
    refine ⟨fun _ => .ok none, ?_⟩
    funext s1
    simp [applyOpt, applyInstr, hx, PartialLens.modify, refLens]
  | path p =>
    cases hi
    obtain ⟨x, v, w, hx, -⟩ := applyOpt_path_eq_ok h
    refine ⟨fun o => o.elim (.error .noSuchObject) fun v =>
      some <$> runRoute sch (.object x) (some p.route) v, ?_⟩
    rw [applyOpt_path hx]
    funext s1
    simp only [PartialLens.modify, objectLens, refLens, ok_bind]
    cases s1 (objectRef p.table p.object) with
    | none => rfl
    | some v =>
      simp only [ok_bind, Option.elim_some]
      cases runRoute sch (.object x) (some p.route) v <;> rfl
  | _ => cases hi

/-- Nothing but that object changes. -/
theorem applyOpt_frame : ∃ o, s' = Function.update s ref o := by
  obtain ⟨f, hf⟩ := exists_modify hi h
  rw [hf] at h
  obtain ⟨_, o, -, -, rfl⟩ := PartialLens.modify_eq_ok.1 h
  exact ⟨o, rfl⟩

end

theorem applyOpt_erase
    (h : applyOpt sch (some (.eraseObject t k)) s = .ok s') (s1 : State) :
    applyOpt sch (some (.eraseObject t k)) s1
      = .ok (Function.update s1 (objectRef t k) none) := by
  obtain ⟨x, hx, -⟩ := bind_eq_ok.1 h
  simp [applyOpt, applyInstr, hx]

section

variable (hi : instrObject i = some (objectRef t k)) (he : applyOpt sch
  (some (.eraseObject t k)) s = .ok s1) (h : applyOpt sch (some i) s = .ok
  s2)

include hi he h

/-- Whatever happened to an object, erasing it comes to the same. -/
theorem erase_after :
    applyOpt sch (some (.eraseObject t k)) s2 = .ok s1 := by
  obtain ⟨o, rfl⟩ := applyOpt_frame hi h
  cases he.symm.trans (applyOpt_erase he s)
  rw [applyOpt_erase he]
  simp

/-- Erasing an object against anything else that happens to it. -/
theorem eraseObject_tp1 : InstrTp1 sch ls rs (.eraseObject t k) i s := by
  have hright := (converges_discard_right he h).2 (erase_after hi he h)
  cases i with
  | createObject t' k' | path p =>
    have hsame := sameObject_iff.2 (Option.some.inj hi).symm
    exact ⟨_, none, by simp [mergeInstructions, mergeEraseObject, hsame],
      hright⟩
  | eraseObject t' k' =>
    have hsame := sameObject_iff.2 (Option.some.inj hi).symm
    by_cases hlt : rs.timestamp.lt ls.timestamp = true
    · exact ⟨_, none,
        by simp [mergeInstructions, mergeEraseObject, hsame, hlt], hright⟩
    · refine ⟨none, _, by simp [mergeInstructions, mergeEraseObject, hsame,
        hlt], (converges_discard_left he h).2 (erase_after ?_ h he)⟩
      simpa [instrObject, eq_comm] using hi
  | _ => cases hi

theorem eraseObject_tp1_right :
    InstrTp1 sch ls rs i (.eraseObject t k) s := by
  have hleft := (converges_discard_left h he).2 (erase_after hi he h)
  cases i with
  | createObject t' k' | path p =>
    have hsame := sameObject_iff.2 (Option.some.inj hi).symm
    exact ⟨none, _, by simp [mergeInstructions, mergeEraseObject, hsame,
      Outcome.swap], hleft⟩
  | eraseObject t' k' =>
    exact eraseObject_tp1 (by simpa [instrObject, eq_comm] using hi) h he
  | _ => cases hi

end

section

variable (h : applyOpt sch (some (.createObject t k)) s = .ok s')

include h

theorem create_existing {v : Value} (hv : s1 (objectRef t k) = some v) :
    applyOpt sch (some (.createObject t k)) s1 = .ok s1 := by
  obtain ⟨x, hx, h⟩ := bind_eq_ok.1 h
  have hemb : x.embedded = false := by
    cases hemb : x.embedded with
    | false => rfl
    | true => simp [hemb] at h
  simp [applyOpt, applyInstr, hx, hemb, hv]

theorem create_exists : ∃ v, s' (objectRef t k) = some v := by
  obtain ⟨x, hx, h⟩ := bind_eq_ok.1 h
  split at h
  · cases h
  · split at h
    · next v hv =>
        cases h
        exact ⟨v, hv⟩
    · cases h
      exact ⟨_, Function.update_self ..⟩

end

theorem create_create_tp1 {t' : Interned} {k' : PrimaryKey Interned}
    (hobj : objectRef t k = objectRef t' k')
    (hl : applyOpt sch (some (.createObject t k)) s = .ok s1)
    (hr : applyOpt sch (some (.createObject t' k')) s = .ok s2) :
    InstrTp1 sch ls rs (.createObject t k) (.createObject t' k') s := by
  have hsame : applyOpt sch (some (.createObject t' k'))
      = applyOpt sch (some (.createObject t k)) := by
    funext s
    simp only [applyOpt, applyInstr, hobj]
  refine ⟨_, _, rfl, (converges_iff hl hr).2 ?_⟩
  rw [hsame] at hr ⊢
  cases hl.symm.trans hr
  obtain ⟨v, hv⟩ := create_exists hl
  exact ⟨_, create_existing hl hv, create_existing hl hv⟩

/-- An accepted path instruction finds its object and leaves it there. -/
theorem create_path_converges {p : PathInstruction Interned Buffered}
    (hobj : objectRef t k = objectRef p.table p.object)
    (hl : applyOpt sch (some (.createObject t k)) s = .ok s1)
    (hr : applyOpt sch (some (.path p)) s = .ok s2) :
    Converges (applyOpt sch (some (.createObject t k)))
      (applyOpt sch (some (.path p))) (applyOpt sch (some (.path p)))
      (applyOpt sch (some (.createObject t k))) s := by
  obtain ⟨x, v, w, -, hv, -, rfl⟩ := applyOpt_path_eq_ok hr
  rw [← hobj] at hv
  cases hl.symm.trans (create_existing hl hv)
  refine (converges_iff hl hr).2 ⟨_, hr, create_existing hl (v := w) ?_⟩
  rw [hobj, Function.update_self]

/-- Instructions on one object of which one creates or erases it. -/
theorem objectTp1 {l r : Instr} (hl : instrObject l = some ref)
    (hr : instrObject r = some ref)
    (hpaths : ∀ p q, l = .path p → r ≠ .path q)
    (hls : applyOpt sch (some l) s = .ok s1)
    (hrs : applyOpt sch (some r) s = .ok s2) :
    InstrTp1 sch ls rs l r s := by
  have hobj : instrObject l = instrObject r := hl.trans hr.symm
  cases l with
  | eraseObject t k => exact eraseObject_tp1 hobj.symm hls hrs
  | createObject t k =>
    cases r with
    | eraseObject t' k' => exact eraseObject_tp1_right hobj hrs hls
    | createObject t' k' =>
      exact create_create_tp1 (Option.some.inj hobj) hls hrs
    | path q =>
      exact ⟨_, _, rfl,
        create_path_converges (Option.some.inj hobj) hls hrs⟩
    | _ => cases hr
  | path p =>
    cases r with
    | eraseObject t' k' => exact eraseObject_tp1_right hobj hrs hls
    | createObject t' k' =>
      exact ⟨_, _, rfl,
        (create_path_converges (Option.some.inj hobj).symm hrs hls).symm⟩
    | path q => exact absurd rfl (hpaths p q rfl)
    | _ => cases hr
  | _ => cases hl

end Objects

end BarqSync
