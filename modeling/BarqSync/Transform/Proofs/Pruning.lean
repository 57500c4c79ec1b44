/-
The index loses nothing: merging a local instruction only with the
incoming instructions of its conflict group is merging it with all of
them.

# Rows

Without `EraseTable` and `EraseColumn` no rule prepends anything, and one
pass of `transformMajor` is a row of the grid (`transformMajor_eq`). A
local instruction leaves every incoming one on another object alone, and
is left alone by it, whatever the passes before made of the two. So the
row through the group is the row through everything with the others left
out, which is the statement of `mergeRow_filter`.

# Result

`conflictGroups_lossless`: the merge with the index is the merge without
it, and the positions of a group are visited once and in order.
-/
import BarqSync.Transform.Proofs.Index
import Mathlib.Data.List.Nodup

namespace BarqSync

open Cell Changeset

variable {l r : Instr} {cells : List Cell} {a : Side × Instr} {c : Cell}
  {cs ours theirs : List Changeset} {ls : Side} {slots : List Slotted}
  {o : Outcome} {positions : List Label}

open Ot

-- ===== instructions

/-- What a merge keeps of an instruction: its object, and whether it is
destructive. -/
def Alike (i j : Instr) : Prop :=
  instrObject j = instrObject i ∧ isDestructive j = isDestructive i

theorem Alike.refl (i : Instr) : Alike i i := ⟨rfl, rfl⟩

theorem Alike.trans {i j k : Instr} (hij : Alike i j) (hjk : Alike j k) :
    Alike i k :=
  ⟨hjk.1.trans hij.1, hjk.2.trans hij.2⟩

/-- A merge without prepended instructions whose survivors are alike. -/
structure Plain (l r : Instr) (o : Outcome) : Prop where
  leftPrepend : o.leftPrepend = []
  rightPrepend : o.rightPrepend = []
  left : ∀ l' ∈ o.left, Alike l l'
  right : ∀ r' ∈ o.right, Alike r r'

theorem plain_of_mem {a b : Option Instr} (ha : ∀ l' ∈ a, l' = l)
    (hb : ∀ r' ∈ b, r' = r) :
    Plain l r ⟨a, b, [], []⟩ where
  leftPrepend := rfl
  rightPrepend := rfl
  left l' h := ha l' h ▸ Alike.refl l
  right r' h := hb r' h ▸ Alike.refl r

theorem Plain.swap (h : Plain l r o) : Plain r l o.swap :=
  ⟨h.rightPrepend, h.leftPrepend, h.right, h.left⟩

theorem plain_keep (l r : Instr) : Plain l r (.keep l r) :=
  plain_of_mem (by simp) (by simp)

theorem mergeEraseObject_plain {ls rs : Discriminant} {t : Interned}
    {k : PrimaryKey Interned} :
    Plain (.eraseObject t k) r (mergeEraseObject ls rs t k r) := by
  cases r with
  | createObject t' k' | path p =>
    simp only [mergeEraseObject]
    split
    · exact plain_of_mem (by simp) (by simp)
    · exact plain_keep _ _
  | eraseObject t' k' =>
    simp only [mergeEraseObject]
    split
    · split
      · exact plain_of_mem (by simp) (by simp)
      · exact plain_of_mem (by simp) (by simp)
    · exact plain_keep _ _
  | _ => exact plain_keep _ _

/-- Without destructive instructions every merge is plain. -/
theorem mergeInstructions_plain {rs : Side}
    (hl : isDestructive l = false) (hr : isDestructive r = false)
    (h : mergeInstructions ls rs l r = .ok o) : Plain l r o := by
  have hnone : Plain l r ⟨none, none, [], []⟩ :=
    plain_of_mem (by simp) (by simp)
  -- one case for each line of `mergeInstructions`
  unfold mergeInstructions at h
  split at h
  · rw [mergePaths] at h
    split at h
    · obtain ⟨⟨a, b⟩, -, h⟩ := bind_eq_ok.1 h
      cases h
      refine ⟨rfl, rfl, fun l' hl' => ?_, fun r' hr' => ?_⟩
      · obtain ⟨z, -, rfl⟩ := Option.map_eq_some_iff.1 hl'
        exact ⟨rfl, rfl⟩
      · obtain ⟨z, -, rfl⟩ := Option.map_eq_some_iff.1 hr'
        exact ⟨rfl, rfl⟩
    · cases h
      exact plain_keep _ _
  · split at h
    · obtain ⟨-, -, h⟩ := bind_eq_ok.1 h
      cases h
      exact hnone
    · cases h
      exact plain_keep _ _
  · split at h
    · obtain ⟨-, -, h⟩ := bind_eq_ok.1 h
      obtain ⟨-, -, h⟩ := bind_eq_ok.1 h
      obtain ⟨-, -, h⟩ := bind_eq_ok.1 h
      obtain ⟨-, -, h⟩ := bind_eq_ok.1 h
      cases h
      exact hnone
    · cases h
      exact plain_keep _ _
  · cases hl
  · cases hr
  · cases hl
  · cases hr
  · cases h
    exact mergeEraseObject_plain
  · cases h
    exact mergeEraseObject_plain.swap
  · cases h
    exact plain_keep _ _

theorem mergeEraseObject_apart {ls rs : Discriminant} {t : Interned}
    {k : PrimaryKey Interned} (h : instrObject r ≠ some (objectRef t k)) :
    mergeEraseObject ls rs t k r = .keep (.eraseObject t k) r := by
  cases r with
  | createObject t' k' | eraseObject t' k' | path p =>
    exact if_neg fun heq => h (congrArg some (sameObject_iff.1 heq).symm)
  | _ => rfl

/-- Instructions on different objects pass each other, and so do an
instruction on an object and an addition to the schema. -/
theorem mergeInstructions_apart {rs : Side} {ref : ObjectRef}
    (hl : instrObject l = some ref) (hr : isDestructive r = false)
    (hne : instrObject r ≠ some ref) :
    mergeInstructions ls rs l r = .ok (.keep l r) := by
  unfold mergeInstructions
  split
  · refine if_neg fun heq => hne ?_
    rw [← hl]
    exact congrArg some (sameObject_iff.1 heq).symm
  · cases hl
  · cases hl
  · cases hl
  · cases hr
  · cases hl
  · cases hr
  · rw [mergeEraseObject_apart (hne.trans_eq hl.symm)]
  · rw [mergeEraseObject_apart (hl.trans_ne hne.symm)]
    rfl
  · rfl

-- ===== rows

/-- A local instruction with the side it comes from, and an incoming one
at its position. -/
def mergeSlot (a : Side × Instr) (r : Slotted) :
    Except MergeError (Option (Side × Instr) × Option Slotted) := do
  let o ← mergeInstructions a.1 r.side a.2 r.instr
  .ok (o.left.map fun l => (a.1, l),
    o.right.map fun i => { r with instr := i })

theorem mergeSlot_eq_ok {r : Slotted}
    {p : Option (Side × Instr) × Option Slotted} :
    mergeSlot a r = .ok p
      ↔ ∃ o, mergeInstructions a.1 r.side a.2 r.instr = .ok o
        ∧ (o.left.map fun l => (a.1, l)) = p.1
        ∧ (o.right.map fun i => { r with instr := i }) = p.2 := by
  simp only [mergeSlot, bind_eq_ok, Except.ok.injEq, Prod.ext_iff]

/-- What a merge keeps of an incoming instruction. -/
structure SameSlot (r' r : Slotted) : Prop where
  label : r'.label = r.label
  side : r'.side = r.side
  alike : Alike r.instr r'.instr

theorem mergeSlot_left {a' : Side × Instr} {r : Slotted}
    {r' : Option Slotted} (ha : isDestructive a.2 = false)
    (hr : isDestructive r.instr = false)
    (h : mergeSlot a r = .ok (some a', r')) : Alike a.2 a'.2 := by
  obtain ⟨o, ho, hleft, -⟩ := mergeSlot_eq_ok.1 h
  obtain ⟨l, hl, rfl⟩ := Option.map_eq_some_iff.1 hleft
  exact (mergeInstructions_plain ha hr ho).left l hl

theorem mergeSlot_right {a' : Option (Side × Instr)} {r r' : Slotted}
    (ha : isDestructive a.2 = false) (hr : isDestructive r.instr = false)
    (h : mergeSlot a r = .ok (a', some r')) : SameSlot r' r := by
  obtain ⟨o, ho, -, hright⟩ := mergeSlot_eq_ok.1 h
  obtain ⟨i, hi, rfl⟩ := Option.map_eq_some_iff.1 hright
  exact ⟨rfl, rfl, (mergeInstructions_plain ha hr ho).right i hi⟩

/-- Without destructive instructions a pass is a row. -/
theorem transformMajor_eq {n : ℕ} (hn : slots.length ≤ n)
    (hl : isDestructive l = false)
    (hslots : ∀ r ∈ slots, isDestructive r.instr = false) :
    transformMajor ls n l slots
      = (fun p => (p.1.toList.map Prod.snd, p.2))
          <$> mergeRow mergeSlot (ls, l) slots := by
  induction slots generalizing n l with
  | nil => cases n <;> rfl
  | cons r rest ih =>
    obtain ⟨n, rfl⟩ : ∃ m, n = m + 1 :=
      ⟨n - 1, by rw [List.length_cons] at hn; omega⟩
    simp only [transformMajor, mergeRow, mergeSlot]
    cases hm : mergeInstructions ls r.side l r.instr with
    | error e => rfl
    | ok o =>
      have hplain := mergeInstructions_plain hl
        (hslots r List.mem_cons_self) hm
      obtain ⟨left, right, _, _⟩ := o
      obtain rfl := hplain.leftPrepend
      obtain rfl := hplain.rightPrepend
      have hright : (right.toList.map fun i => { r with instr := i })
          = (right.map fun i => { r with instr := i }).toList := by
        cases right <;> rfl
      cases left with
      | none => simp [hright]
      | some l' =>
        have hl' := (hplain.left l' rfl).2.trans hl
        have hrest := ih (Nat.le_of_succ_le_succ hn) hl'
          fun r' hr' => hslots r' (List.mem_cons_of_mem _ hr')
        simp only [ok_bind, List.foldlM_nil, pure_bind, hrest,
          Option.map_some, hright, List.nil_append]
        cases mergeRow mergeSlot (ls, l') rest <;> rfl

-- ===== cells

/-- An instruction at a position is what merges made of the original
one there. -/
def Fits (items : List (Label × Instr)) (r : Slotted) : Prop :=
  ∃ p ∈ items, p.1 = r.label ∧ Alike p.2 r.instr

/-- The cells of the incoming side at any time of the merge. -/
structure CellsFit (labels : List Label) (items : List (Label × Instr))
    (cells : List Cell) : Prop where
  labels : cells.map Cell.label = labels
  fits : ∀ r ∈ cells.flatMap Cell.slots, Fits items r

theorem Cell.mem_slots {r : Slotted} (h : r ∈ c.slots) :
    r.label = c.label ∧ r.side = c.side := by
  obtain ⟨i, -, rfl⟩ := List.mem_map.1 h
  exact ⟨rfl, rfl⟩

theorem mem_cells_slots {r : Slotted} (h : r ∈ cells.flatMap Cell.slots) :
    r.label ∈ cells.map Cell.label := by
  obtain ⟨c, hc, hr⟩ := List.mem_flatMap.1 h
  rw [(mem_slots hr).1]
  exact List.mem_map_of_mem hc

section

variable (hnodup : (cells.map Cell.label).Nodup)

include hnodup

theorem filter_label (hc : c ∈ cells) :
    (cells.filter fun d => d.label = c.label) = [c] := by
  induction cells with
  | nil => cases hc
  | cons d cells ih =>
    obtain ⟨hd, hnodup⟩ := List.nodup_cons.1 hnodup
    rcases List.mem_cons.1 hc with rfl | hc
    · rw [List.filter_cons_of_pos (by simp), List.filter_eq_nil_iff.2]
      intro e he
      rw [decide_eq_true_eq]
      exact fun h => hd (h ▸ List.mem_map_of_mem he)
    · rw [List.filter_cons_of_neg, ih hnodup hc]
      rw [decide_eq_true_eq]
      exact fun h => hd (h ▸ List.mem_map_of_mem hc)

/-- Positions in order are a choice among the instructions. -/
theorem selectCells_eq (hsub : positions.Sublist (cells.map Cell.label)) :
    selectCells positions cells
      = (cells.flatMap Cell.slots).filter fun r => r.label ∈ positions := by
  induction cells generalizing positions with
  | nil =>
    obtain rfl := List.sublist_nil.1 hsub
    rfl
  | cons c cells ih =>
    have hcells := hnodup
    obtain ⟨hc, hnodup⟩ := List.nodup_cons.1 hnodup
    have hskip : ∀ {ps : List Label}, c.label ∉ ps →
        selectCells ps (c :: cells) = selectCells ps cells := by
      intro ps hps
      refine List.flatMap_congr fun p hp => ?_
      rw [List.filter_cons_of_neg]
      rw [decide_eq_true_eq]
      exact fun h => hps (h ▸ hp)
    rw [List.flatMap_cons, List.filter_append]
    cases hsub with
    | cons _ hsub =>
      have hnot : c.label ∉ positions := fun h => hc (hsub.subset h)
      have hnone : (c.slots.filter fun r => r.label ∈ positions) = [] := by
        refine List.filter_eq_nil_iff.2 fun r hr => ?_
        simpa [(mem_slots hr).1] using hnot
      rw [hskip hnot, ih hnodup hsub, hnone, List.nil_append]
    | @cons_cons ps _ _ hsub =>
      have hnot : c.label ∉ ps := fun h => hc (hsub.subset h)
      have hhead : (c.slots.filter fun r => r.label ∈ c.label :: ps)
          = c.slots := by
        refine List.filter_eq_self.2 fun r hr => ?_
        simp [(mem_slots hr).1]
      have hrest : ((cells.flatMap slots).filter fun r =>
            r.label ∈ c.label :: ps)
          = (cells.flatMap slots).filter fun r => r.label ∈ ps := by
        refine List.filter_congr fun r hr => ?_
        have : r.label ≠ c.label := fun h => hc (h ▸ mem_cells_slots hr)
        simp [this]
      have honly := filter_label hcells List.mem_cons_self
      have hcons : selectCells (c.label :: ps) (c :: cells)
          = c.slots ++ selectCells ps (c :: cells) := by
        simp only [selectCells, List.flatMap_cons, honly,
          List.flatMap_nil, List.append_nil]
      rw [hhead, hrest, hcons, hskip hnot, ih hnodup hsub]

/-- The instructions of a cell, found by its label. -/
theorem filter_label_slots (hc : c ∈ cells) :
    ((cells.flatMap Cell.slots).filter fun r => r.label = c.label)
      = c.slots := by
  have hone := selectCells_eq hnodup
    (List.singleton_sublist.2 (List.mem_map_of_mem hc))
  simpa [selectCells, filter_label hnodup hc] using hone.symm

/-- What is left of every instruction goes back to its own cell. -/
theorem putBack_slots
    (h : List.SublistForall₂ SameSlot slots (cells.flatMap Cell.slots)) :
    (putBack (cells.map Cell.label) slots cells).flatMap Cell.slots
      = slots := by
  have hall : putBack (cells.map label) slots cells
      = cells.map fun c => { c with
          instrs := (slots.filter fun s => s.label = c.label).map
            Slotted.instr } := by
    refine List.map_congr_left fun c hc => if_pos ?_
    exact List.mem_map_of_mem hc
  rw [hall, List.flatMap_map]
  clear hall
  induction cells generalizing slots with
  | nil =>
    cases h
    rfl
  | cons c cells ih =>
    obtain ⟨hc, hnodup⟩ := List.nodup_cons.1 hnodup
    obtain ⟨front, rest, rfl, hfront, hrest⟩ := sublistForall₂_append h
    have hin : ∀ r ∈ front, r.label = c.label ∧ r.side = c.side := by
      intro r hr
      obtain ⟨r', hr', heq⟩ := mem_of_sublistForall2 hfront hr
      obtain ⟨hlabel, hside⟩ := mem_slots hr'
      exact ⟨heq.label.trans hlabel, heq.side.trans hside⟩
    have hout : ∀ r ∈ rest, r.label ∈ cells.map label := by
      intro r hr
      obtain ⟨r', hr', heq⟩ := mem_of_sublistForall2 hrest hr
      exact heq.label ▸ mem_cells_slots hr'
    have hhead : ((front ++ rest).filter fun s => s.label = c.label)
        = front := by
      rw [List.filter_append, List.filter_eq_self.2, List.filter_eq_nil_iff.2,
        List.append_nil]
      · intro r hr
        rw [decide_eq_true_eq]
        exact fun h => hc (h ▸ hout r hr)
      · intro r hr
        simpa using (hin r hr).1
    have hback : slots { c with instrs := front.map Slotted.instr }
        = front := by
      rw [slots, List.map_map]
      refine (List.map_congr_left fun r hr => ?_).trans (List.map_id _)
      obtain ⟨hlabel, hside⟩ := hin r hr
      simp only [Function.comp_apply, ← hlabel, ← hside, id]
    have htail : ∀ d ∈ cells,
        ((front ++ rest).filter fun s => s.label = d.label)
          = rest.filter fun s => s.label = d.label := by
      intro d hd
      rw [List.filter_append, List.filter_eq_nil_iff.2, List.nil_append]
      intro r hr
      rw [decide_eq_true_eq, (hin r hr).1]
      exact fun h => hc (h ▸ List.mem_map_of_mem hd)
    rw [List.flatMap_cons, hhead, hback]
    congr 1
    refine Eq.trans (List.flatMap_congr fun d hd => ?_) (ih hnodup hrest)
    rw [htail d hd]

/-- Putting back the positions of a choice is putting back everything,
when the others did not change. -/
theorem putBack_filter {labels : List Label}
    (hlabels : cells.map Cell.label = labels)
    (hother : (slots.filter fun r => !decide (r.label ∈ positions))
      = (cells.flatMap Cell.slots).filter
          fun r => !decide (r.label ∈ positions)) :
    putBack positions (slots.filter fun r => r.label ∈ positions) cells
      = putBack labels slots cells := by
  refine List.map_congr_left fun c hc => ?_
  rw [if_pos (hlabels ▸ List.mem_map_of_mem hc : c.label ∈ labels)]
  split
  · next hin =>
      have hfilter : ((slots.filter fun r => r.label ∈ positions).filter
            fun r => r.label = c.label)
          = slots.filter fun r => r.label = c.label := by
        rw [List.filter_filter]
        refine List.filter_congr fun r _ => ?_
        by_cases h : r.label = c.label <;> simp [h, hin]
      rw [hfilter]
  · next hout =>
      have hfilter : ∀ rs : List Slotted,
          (rs.filter fun r => r.label = c.label)
            = (rs.filter fun r => !decide (r.label ∈ positions)).filter
                fun r => r.label = c.label := by
        intro rs
        rw [List.filter_filter]
        refine List.filter_congr fun r _ => ?_
        by_cases h : r.label = c.label <;> simp [h, hout]
      have hslots : (c.slots.map Slotted.instr) = c.instrs := by
        simp [Cell.slots, Function.comp_def]
      rw [hfilter slots, hother, ← hfilter, filter_label_slots hnodup hc, hslots]

end

-- ===== passes

/-- The incoming side before the merge: every label once, and nothing
destructive. -/
structure Incoming (labels : List Label) (items : List (Label × Instr)) :
    Prop where
  nodup : labels.Nodup
  labelled : ∀ p ∈ items, p.1 ∈ labels
  intact : ∀ p ∈ items, isDestructive p.2 = false

section Pass

variable {labels positions : List Label} {items : List (Label × Instr)}
  {cells : List Cell} {ls : Side} {l : Instr} {slots' : List Slotted}

theorem Fits.intact {r : Slotted} (h : Fits items r)
    (hin : Incoming labels items) : isDestructive r.instr = false := by
  obtain ⟨p, hp, -, halike⟩ := h
  exact halike.2.trans (hin.intact p hp)

/-- A grid keeps every incoming instruction in its place. -/
theorem grid_sameSlot {as as' : List (Side × Instr)}
    (hin : Incoming labels items) (hslots : ∀ r ∈ slots, Fits items r)
    (has : ∀ a ∈ as, isDestructive a.2 = false)
    (h : mergeGrid mergeSlot as slots = .ok (as', slots')) :
    List.SublistForall₂ SameSlot slots' slots := by
  have hA : ∀ (a : Side × Instr) r a' r', isDestructive a.2 = false →
      Fits items r → mergeSlot a r = .ok (some a', r') →
      isDestructive a'.2 = false :=
    fun a r a' r' ha hr hm =>
      (mergeSlot_left ha (hr.intact hin) hm).2.trans ha
  refine mergeGrid_forall hA ?_ ?_ ?_ ?_ has hslots h
  · intro a r a' r' ha hr hm
    exact mergeSlot_right ha (hr.intact hin) hm
  · exact fun r => ⟨rfl, rfl, Alike.refl _⟩
  · exact fun r s t hrs hst => ⟨hrs.label.trans hst.label,
      hrs.side.trans hst.side, hst.alike.trans hrs.alike⟩
  · rintro r r' hsame ⟨p, hp, hlabel, halike⟩
    exact ⟨p, hp, hlabel.trans hsame.label.symm, halike.trans hsame.alike⟩

section

variable (hfit : CellsFit labels items cells)

include hfit

/-- The cells behind a grid. -/
theorem CellsFit.putBack (hin : Incoming labels items)
    (h : List.SublistForall₂ SameSlot slots (cells.flatMap Cell.slots)) :
    CellsFit labels items (putBack labels slots cells)
      ∧ (BarqSync.putBack labels slots cells).flatMap Cell.slots = slots := by
  have hback : (BarqSync.putBack labels slots cells).flatMap Cell.slots
      = slots := by
    have := putBack_slots (hfit.labels ▸ hin.nodup) h
    rwa [hfit.labels] at this
  refine ⟨⟨?_, ?_⟩, hback⟩
  · rw [← hfit.labels, BarqSync.putBack, List.map_map]
    refine List.map_congr_left fun c hc => ?_
    simp only [Function.comp_apply]
    split <;> rfl
  · rw [hback]
    intro r hr
    obtain ⟨r0, hr0, hsame⟩ := mem_of_sublistForall2 h hr
    obtain ⟨p, hp, hlabel, halike⟩ := hfit.fits r0 hr0
    exact ⟨p, hp, hlabel.trans hsame.label.symm, halike.trans hsame.alike⟩

theorem CellsFit.putBack_self (hin : Incoming labels items) :
    BarqSync.putBack labels (cells.flatMap Cell.slots) cells = cells := by
  refine (List.map_congr_left fun c hc => ?_).trans (List.map_id _)
  have hslots : c.slots.map Slotted.instr = c.instrs := by
    simp [slots, Function.comp_def]
  rw [filter_label_slots (hfit.labels ▸ hin.nodup) hc, hslots]
  split <;> rfl

/-- Putting back twice is putting back what came last. -/
theorem CellsFit.putBack_putBack :
    BarqSync.putBack labels slots' (BarqSync.putBack labels slots cells)
      = BarqSync.putBack labels slots' cells := by
  rw [BarqSync.putBack, BarqSync.putBack, List.map_map]
  refine List.map_congr_left fun c hc => ?_
  have hmem : c.label ∈ labels := hfit.labels ▸ List.mem_map_of_mem hc
  simp [hmem]

end

/-- A pass through positions that cover the instruction is the row
through everything. -/
theorem pass_eq (hin : Incoming labels items)
    (hfit : CellsFit labels items cells) (hl : isDestructive l = false)
    (hsub : positions.Sublist labels) (hcov : Covers items l positions) :
    (fun p => (p.1, putBack positions p.2 cells))
        <$> transformMajor ls (selectCells positions cells).length l
          (selectCells positions cells)
      = (fun p => (p.1.toList.map Prod.snd, putBack labels p.2 cells))
        <$> mergeRow mergeSlot (ls, l) (cells.flatMap Cell.slots) := by
  have hnodup : (cells.map label).Nodup := hfit.labels ▸ hin.nodup
  have hselect := selectCells_eq hnodup (hfit.labels ▸ hsub)
  have hA : ∀ a r a' r', Alike l a.2 → Fits items r →
      mergeSlot a r = .ok (some a', r') → Alike l a'.2 :=
    fun a r a' r' ha hr hm =>
      ha.trans (mergeSlot_left (ha.2.trans hl) (hr.intact hin) hm)
  have hsel : ∀ a r a' r', Alike l a.2 → Fits items r →
      mergeSlot a r = .ok (a', some r') →
      decide (r'.label ∈ positions) = decide (r.label ∈ positions) := by
    intro a r a' r' ha hr hm
    rw [(mergeSlot_right (ha.2.trans hl) (hr.intact hin) hm).label]
  -- What the positions leave out is about another object.
  have hkeep : ∀ a r, Alike l a.2 → Fits items r →
      decide (r.label ∈ positions) = false →
      mergeSlot a r = .ok (some a, some r) := by
    intro a r ha hr hnot
    obtain ⟨p, hp, hlabel, halike⟩ := id hr
    obtain ⟨ref, hobj, hne⟩ := hcov p hp (by simpa [hlabel] using hnot)
    have hapart : mergeInstructions a.1 r.side a.2 r.instr
        = .ok (.keep a.2 r.instr) :=
      mergeInstructions_apart (ha.1.trans hobj) (hr.intact hin)
        (halike.1 ▸ hne)
    exact mergeSlot_eq_ok.2 ⟨_, hapart, rfl, rfl⟩
  obtain ⟨hrow, hother⟩ := mergeRow_filter (a := (ls, l)) hA hsel hkeep
    (Alike.refl l) hfit.fits
  have hintact : ∀ r ∈ selectCells positions cells,
      isDestructive r.instr = false := by
    intro r hr
    rw [hselect] at hr
    exact (hfit.fits r (List.mem_of_mem_filter hr)).intact hin
  rw [transformMajor_eq le_rfl hl hintact, hselect, hrow]
  cases hm : mergeRow mergeSlot (ls, l) (cells.flatMap slots) with
  | error e => rfl
  | ok p =>
    simp only [map_ok]
    rw [putBack_filter hnodup hfit.labels (hother p.1 p.2 hm)]

/-- What the merge asks of the choice of positions. -/
def Chooses (ranges : Instr → Except MergeError (List Label))
    (labels : List Label) (items : List (Label × Instr)) (l : Instr) : Prop :=
  ∃ positions, ranges l = .ok positions ∧ positions.Sublist labels
    ∧ Covers items l positions

/-- The instructions of a changeset are rows of the grid. -/
theorem transformWith_eq {ranges : Instr → Except MergeError (List Label)}
    {is : List Instr} (hin : Incoming labels items)
    (hfit : CellsFit labels items cells)
    (his : ∀ l ∈ is, isDestructive l = false ∧ Chooses ranges labels items l) :
    transformWith ranges ls is cells
      = (fun p => (p.1.map Prod.snd, putBack labels p.2 cells))
        <$> mergeGrid mergeSlot (is.map fun l => (ls, l))
          (cells.flatMap Cell.slots) := by
  induction is generalizing cells with
  | nil => simp [transformWith, mergeGrid, hfit.putBack_self hin]
  | cons l is ih =>
    obtain ⟨hl, positions, hranges, hsub, hcov⟩ := his l List.mem_cons_self
    have hpass := @pass_eq _ _ _ _ ls _ hin hfit hl hsub hcov
    have hstep : transformWith ranges ls (l :: is) cells
        = (fun p => (p.1, putBack positions p.2 cells))
            <$> transformMajor ls (selectCells positions cells).length l
              (selectCells positions cells)
          >>= (fun p => transformWith ranges ls is p.2 >>= fun q =>
            .ok (p.1 ++ q.1, q.2)) := by
      simp only [transformWith, hranges, ok_bind]
      cases transformMajor ls (selectCells positions cells).length l
        (selectCells positions cells) <;> rfl
    rw [hstep, hpass, List.map_cons, mergeGrid]
    cases hrow : mergeRow mergeSlot (ls, l) (cells.flatMap slots) with
    | error e => rfl
    | ok p =>
      have hgrid : mergeGrid mergeSlot [(ls, l)] (cells.flatMap slots)
          = .ok (p.1.toList, p.2) := by
        simp [mergeGrid, hrow]
      obtain ⟨hfit', hback⟩ := hfit.putBack hin
        (grid_sameSlot hin hfit.fits (by simpa using hl) hgrid)
      simp only [map_ok, ok_bind]
      rw [ih hfit' fun l' hl' => his l' (List.mem_cons_of_mem _ hl'), hback]
      cases mergeGrid mergeSlot (is.map fun l => (ls, l)) p.2 with
      | error e => rfl
      | ok q => simp [hfit.putBack_putBack]

end Pass

-- ===== changesets

/-- The instructions of a local changeset with their side. -/
def Changeset.sided (c : Changeset) : List (Side × Instr) :=
  c.live.map fun l => (c.side, l)

/-- The labels of a sequence of changesets, in the order of changesets and
positions. -/
def allLabels (cs : List Changeset) : List Label :=
  cs.flatMap fun c => c.labelled.map Prod.fst

/-- The instructions of a sequence of changesets, in the same order. -/
def allItems (cs : List Changeset) : List (Label × Instr) :=
  liveItems (cs.flatMap Changeset.labelled)

theorem mem_labelled {c : Changeset} {p : Label × Option Instr}
    (h : p ∈ c.labelled) : p.1.1 = c.key ∧ p.2 ∈ c.instructions := by
  obtain ⟨⟨i, n⟩, hn, rfl⟩ := List.mem_map.1 h
  exact ⟨rfl, List.fst_mem_of_mem_zipIdx hn⟩

theorem mem_liveItems {items : List (Label × Option Instr)}
    {p : Label × Instr} :
    p ∈ liveItems items ↔ (p.1, some p.2) ∈ items := by
  constructor
  · intro h
    obtain ⟨⟨label, o⟩, hq, hp⟩ := List.mem_filterMap.1 h
    obtain ⟨i, rfl, rfl⟩ := Option.map_eq_some_iff.1 hp
    exact hq
  · exact fun h => List.mem_filterMap.2 ⟨_, h, rfl⟩

theorem allLabels_nodup (h : KeysIncrease cs) : (allLabels cs).Nodup := by
  refine List.nodup_flatMap.2 ⟨fun c _ => ?_, h.imp ?_⟩
  · have hmap : c.labelled.map Prod.fst
        = (List.range' 0 c.instructions.length).map fun i => (c.key, i) := by
      rw [← List.zipIdx_map_snd 0 c.instructions, labelled,
        List.map_map, List.map_map]
      rfl
    rw [hmap]
    exact List.Nodup.map (fun i j hij => (Prod.ext_iff.1 hij).2)
      List.nodup_range'
  · intro a b hab label ha hb
    obtain ⟨p, hp, rfl⟩ := List.mem_map.1 ha
    obtain ⟨q, hq, hpq⟩ := List.mem_map.1 hb
    have hkey : a.key = b.key := by
      rw [← (mem_labelled hp).1, ← (mem_labelled hq).1, hpq]
    rw [hkey, Key.lt_irrefl] at hab
    cases hab

/-- The incoming changesets before the merge. -/
theorem incoming_changesets (hkeys : KeysIncrease cs)
    (hcs : NotDestructive cs) : Incoming (allLabels cs) (allItems cs) := by
  refine ⟨allLabels_nodup hkeys, fun p hp => ?_, fun p hp => ?_⟩
  · have := (liveItems_sublist _).subset (List.mem_map_of_mem hp)
    rwa [List.map_flatMap] at this
  · obtain ⟨c, hc, hpc⟩ := mem_liveItems_flatMap.1 hp
    exact hcs c hc p.2
      (List.reduceOption_mem_iff.2 (mem_labelled (mem_liveItems.1 hpc)).2)

theorem cellsFit_changesets (cs : List Changeset) :
    CellsFit (allLabels cs) (allItems cs) (cs.flatMap Changeset.cells) := by
  constructor
  · rw [List.map_flatMap]
    refine List.flatMap_congr fun c _ => ?_
    rw [cells, List.map_map]
    rfl
  · intro r hr
    obtain ⟨cell, hcell, hr⟩ := List.mem_flatMap.1 hr
    obtain ⟨c, hc, hcell⟩ := List.mem_flatMap.1 hcell
    obtain ⟨p, hp, rfl⟩ := List.mem_map.1 hcell
    obtain ⟨i, hi, rfl⟩ := List.mem_map.1 hr
    obtain ⟨label, o⟩ := p
    obtain rfl := Option.mem_toList.1 hi
    exact ⟨(label, i), mem_liveItems_flatMap.2 ⟨c, hc, mem_liveItems.2 hp⟩,
      rfl, Alike.refl i⟩

/-- Everything covers every instruction. -/
theorem chooses_everything (hin : Incoming (allLabels cs) (allItems cs)) :
    Chooses (fun _ => .ok (allLabels cs)) (allLabels cs) (allItems cs) l :=
  ⟨_, rfl, List.Sublist.refl _, fun p hp hnot =>
    absurd (hin.labelled p hp) hnot⟩

section All

variable {labels : List Label} {items : List (Label × Instr)}
  {cells : List Cell} {ranges ranges' : Instr → Except MergeError (List Label)}
  {cs : List Changeset} {cells' : List Cell}

section

variable (hin : Incoming labels items) (hfit : CellsFit labels items cells)

include hin hfit

/-- What one local changeset leaves behind. -/
theorem transformWith_fit {is is' : List Instr}
    (his : ∀ l ∈ is, isDestructive l = false ∧ Chooses ranges labels items l)
    (h : transformWith ranges ls is cells = .ok (is', cells')) :
    CellsFit labels items cells'
      ∧ ∃ as, mergeGrid mergeSlot (is.map fun l => (ls, l))
            (cells.flatMap Cell.slots) = .ok (as, cells'.flatMap Cell.slots)
        ∧ as.map Prod.snd = is' := by
  rw [transformWith_eq hin hfit his] at h
  obtain ⟨⟨as, slots⟩, hgrid, heq⟩ := map_eq_ok.1 h
  cases heq
  have has : ∀ a ∈ is.map fun l => (ls, l), isDestructive a.2 = false := by
    intro a ha
    obtain ⟨l, hl, rfl⟩ := List.mem_map.1 ha
    exact (his l hl).1
  obtain ⟨hfit', hback⟩ :=
    hfit.putBack hin (grid_sameSlot hin hfit.fits has hgrid)
  exact ⟨hfit', as, by rw [hgrid, hback], rfl⟩

/-- Two choices of positions that cover every instruction make no
difference. -/
theorem transformAll_congr
    (hcs : ∀ c ∈ cs, ∀ l ∈ c.live, isDestructive l = false
      ∧ Chooses ranges labels items l ∧ Chooses ranges' labels items l) :
    transformAll ranges cs cells = transformAll ranges' cs cells := by
  induction cs generalizing cells with
  | nil => rfl
  | cons c cs ih =>
    have hc := hcs c List.mem_cons_self
    have hwith : transformWith ranges c.side c.live cells
        = transformWith ranges' c.side c.live cells := by
      rw [transformWith_eq hin hfit fun l hl => ⟨(hc l hl).1, (hc l hl).2.1⟩,
        transformWith_eq hin hfit fun l hl => ⟨(hc l hl).1, (hc l hl).2.2⟩]
    simp only [transformAll]
    rw [hwith]
    cases hm : transformWith ranges' c.side c.live cells with
    | error e => rfl
    | ok p =>
      obtain ⟨hfit', -⟩ := transformWith_fit hin hfit
        (fun l hl => ⟨(hc l hl).1, (hc l hl).2.2⟩) hm
      simp only [ok_bind]
      rw [ih hfit' fun d hd => hcs d (List.mem_cons_of_mem _ hd)]

/-- The local changesets in turn are one grid. -/
theorem transformAll_grid {cs' : List Changeset}
    (hcs : ∀ c ∈ cs, ∀ l ∈ c.live,
      isDestructive l = false ∧ Chooses ranges labels items l)
    (h : transformAll ranges cs cells = .ok (cs', cells')) :
    CellsFit labels items cells'
      ∧ ∃ as, mergeGrid mergeSlot (cs.flatMap Changeset.sided)
            (cells.flatMap Cell.slots) = .ok (as, cells'.flatMap Cell.slots)
        ∧ as.map Prod.snd = cs'.flatMap Changeset.live := by
  induction cs generalizing cells cs' with
  | nil =>
    cases h
    exact ⟨hfit, [], rfl, rfl⟩
  | cons c cs ih =>
    obtain ⟨p, hwith, h⟩ := bind_eq_ok.1 h
    obtain ⟨q, hall, h⟩ := bind_eq_ok.1 h
    cases h
    obtain ⟨hfit1, as1, hgrid1, hmap1⟩ := transformWith_fit hin hfit
      (hcs c List.mem_cons_self) hwith
    obtain ⟨hfit2, as2, hgrid2, hmap2⟩ := ih hfit1
      (fun d hd => hcs d (List.mem_cons_of_mem _ hd)) hall
    refine ⟨hfit2, as1 ++ as2, ?_, ?_⟩
    · rw [List.flatMap_cons, mergeGrid_append, sided, hgrid1]
      simp only [ok_bind]
      rw [hgrid2]
      rfl
    · rw [List.map_append, hmap1, hmap2, List.flatMap_cons]
      simp [live, List.reduceOption]

end

end All

/-- The index chooses positions for every local instruction. -/
theorem chooses_index {idx : ChangesetIndex}
    (h : Indexed ours theirs idx) {c : Changeset} (hc : c ∈ ours)
    (hl : l ∈ c.live) :
    Chooses (fun l => Ranges.positions <$> idx.conflictRanges l)
      (allLabels theirs) (allItems theirs) l :=
  h.covers hc hl

/-- The merge through the index is the grid of all pairs. -/
theorem mergeChangesets_eq (hne : ours ≠ []) (hne' : theirs ≠ [])
    (hours : NotDestructive ours) (htheirs : NotDestructive theirs)
    (hkeys : KeysIncrease theirs) :
    mergeChangesets ours theirs = mergeEverything ours theirs := by
  obtain ⟨idx, hidx, hindexed⟩ := buildIndex_indexed hours htheirs hkeys
  have hin := incoming_changesets hkeys htheirs
  have hall := transformAll_congr hin (cellsFit_changesets theirs)
    fun c hc l hl => ⟨hours c hc l hl, chooses_index hindexed hc hl,
      chooses_everything hin⟩
  rw [mergeChangesets, if_neg (by simpa using hne), if_neg (by simpa using hne'),
    hidx, ok_bind, mergeThrough, hall]
  rfl

/-- Pruning by conflict groups loses nothing: the merge through the index
is the merge of every pair; the index goes through the positions of a
group once each and in the order of changesets and positions; and a pair
it does not bring together is one that the rules leave alone. -/
theorem conflictGroups_lossless {ours theirs : List Changeset} (hne : ours ≠ [])
    (hne' : theirs ≠ []) (hours : NotDestructive ours)
    (htheirs : NotDestructive theirs) (hkeys : KeysIncrease theirs) :
    mergeChangesets ours theirs = mergeEverything ours theirs
      ∧ ∃ idx, buildIndex ours theirs = .ok idx
        ∧ ∀ c ∈ ours, ∀ l ∈ c.live, ∃ positions,
          Ranges.positions <$> idx.conflictRanges l = .ok positions
            ∧ positions.Nodup
            ∧ positions.Sublist (allLabels theirs)
            ∧ ∀ p ∈ allItems theirs, p.1 ∉ positions → ∀ ls rs,
              mergeInstructions ls rs l p.2 = .ok (.keep l p.2) := by
  obtain ⟨idx, hidx, hindexed⟩ := buildIndex_indexed hours htheirs hkeys
  have hin := incoming_changesets hkeys htheirs
  refine ⟨mergeChangesets_eq hne hne' hours htheirs hkeys, idx, hidx, ?_⟩
  intro c hc l hl
  obtain ⟨positions, hok, hsub, hcov⟩ := chooses_index hindexed hc hl
  refine ⟨positions, hok, hin.nodup.sublist hsub, hsub, ?_⟩
  intro p hp hnot ls rs
  obtain ⟨ref, hobj, hne⟩ := hcov p hp hnot
  exact mergeInstructions_apart hobj (hin.intact p hp) hne

/-- A changeset that erases objects of one class. -/
def erasures (version : ℕ) (side : Side) (keys : List UInt64) : Changeset :=
  ⟨⟨version, 0⟩, side, keys.map fun k =>
    some (.eraseObject ⟨0, []⟩ (.globalKey ⟨k, 0⟩))⟩

/-- Two erasures of one object meet in its group, the third stays out. -/
theorem conflictGroups_lossless_erasures :
    mergeChangesets [erasures 1 laterSide [0, 1]]
        [erasures 1 earlierSide [1], erasures 2 earlierSide [2]]
      = mergeEverything [erasures 1 laterSide [0, 1]]
        [erasures 1 earlierSide [1], erasures 2 earlierSide [2]] := by
  have hours : NotDestructive [erasures 1 laterSide [0, 1]] := by
    simp [NotDestructive, erasures, live, List.reduceOption, isDestructive]
  have htheirs : NotDestructive
      [erasures 1 earlierSide [1], erasures 2 earlierSide [2]] := by
    simp [NotDestructive, erasures, live, List.reduceOption, isDestructive]
  have hkeys : KeysIncrease
      [erasures 1 earlierSide [1], erasures 2 earlierSide [2]] := by
    simp [KeysIncrease, erasures, Key.lt]
  exact (conflictGroups_lossless (by simp) (by simp) hours htheirs hkeys).1

end BarqSync
