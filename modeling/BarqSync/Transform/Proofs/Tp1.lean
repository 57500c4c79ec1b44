/-
The transformation property for whole changesets: a local and an incoming
sequence, merged, lead to the same state in either order.

# From pairs to sequences

`instrTp1_of_merge` closes the square of any two accepted instructions
that do not clash. Without the index a merge is a grid of such squares
(`mergeChangesets_eq`, `transformAll_grid`), and a grid whose squares all
close is itself one (`mergeGrid_converges`).

# Result

`changesetsTp1`: if no two instructions that meet in the merge clash, the
local changesets followed by the transformed incoming ones end in the same
state as the incoming ones followed by the transformed local ones, and
neither is refused.
-/
import BarqSync.Transform.Proofs.Pairs
import BarqSync.Transform.Proofs.Pruning

namespace BarqSync

open Ot Changeset

-- ===== pairs

section Pairs

variable {sch : Schema} {ls rs : Side} {l r : Instr} {s s1 s2 : State}
  {o : Outcome} {ref : ObjectRef}

theorem not_destructive_of_instrObject (h : instrObject l = some ref) :
    isDestructive l = false := by
  cases l with
  | eraseTable t => cases h
  | eraseColumn t f => cases h
  | _ => rfl

/-- Instructions on different objects pass each other. -/
theorem objects_apart_tp1 {ref' : ObjectRef}
    (hl : instrObject l = some ref) (hr : instrObject r = some ref')
    (hne : ref ≠ ref') (hls : applyOpt sch (some l) s = .ok s1)
    (hrs : applyOpt sch (some r) s = .ok s2) :
    InstrTp1 sch ls rs l r s := by
  have hmerge : mergeInstructions ls rs l r = .ok (.keep l r) := by
    refine mergeInstructions_apart hl (not_destructive_of_instrObject hr) ?_
    rw [hr]
    exact fun h => hne (Option.some.inj h).symm
  refine ⟨some l, some r, hmerge, ?_⟩
  obtain ⟨f, hf⟩ := exists_modify hl hls
  obtain ⟨g, hg⟩ := exists_modify hr hrs
  rw [hf] at hls ⊢
  rw [hg] at hrs ⊢
  exact PartialLens.converges_of_independent (refLens_independent hne) hls hrs

theorem paths_tp1 {p q : PathInstruction Interned Buffered}
    (hobj : objectRef p.table p.object = objectRef q.table q.object)
    (hls : applyOpt sch (some (.path p)) s = .ok s1)
    (hrs : applyOpt sch (some (.path q)) s = .ok s2)
    (hm : mergeInstructions ls rs (.path p) (.path q) = .ok o)
    (hclash : ¬InstrClash sch ls.timestamp rs.timestamp (.path p) (.path q)
      s) : InstrTp1 sch ls rs (.path p) (.path q) s := by
  obtain ⟨t, v, w, ht, hv, hw, -⟩ := applyOpt_path_eq_ok hls
  obtain ⟨t', v', u, ht', hv', hu, -⟩ := applyOpt_path_eq_ok hrs
  rw [← hobj] at ht' hv'
  cases ht.symm.trans ht'
  cases hv.symm.trans hv'
  simp only [mergeInstructions, mergePaths,
    if_pos (sameObject_iff.2 hobj)] at hm
  obtain ⟨m, hm, -⟩ := bind_eq_ok.1 hm
  refine (pathTp1_iff hobj ht hv).2 (routes_tp1 (by simp [PathInstruction.fullPath])
    (by simp [PathInstruction.fullPath]) hw hu hm fun h => hclash ?_)
  exact ⟨hobj, t, v, ht, hv, h⟩

/-- Any two accepted instructions that are merged and do not clash. -/
theorem instrTp1_of_merge (hls : applyOpt sch (some l) s = .ok s1)
    (hrs : applyOpt sch (some r) s = .ok s2)
    (hm : mergeInstructions ls rs l r = .ok o)
    (hclash : ¬InstrClash sch ls.timestamp rs.timestamp l r s) :
    InstrTp1 sch ls rs l r s := by
  obtain ⟨ref, hl⟩ := instrObject_of_applied hls
  obtain ⟨ref', hr⟩ := instrObject_of_applied hrs
  by_cases hne : ref = ref'
  · subst hne
    by_cases hboth : ∃ p q, l = .path p ∧ r = .path q
    · obtain ⟨p, q, rfl, rfl⟩ := hboth
      exact paths_tp1 (Option.some.inj (hl.trans hr.symm)) hls hrs hm hclash
    · exact objectTp1 hl hr (fun p q hp hq => hboth ⟨p, q, hp, hq⟩) hls hrs
  · exact objects_apart_tp1 hl hr hne hls hrs

end Pairs

-- ===== sequences

/-- A local instruction, executed. -/
def runSided (sch : Schema) (a : Side × Instr) (s : State) :
    Except ApplyError State :=
  applyInstr sch s a.2

/-- An incoming instruction, executed. -/
def runSlotted (sch : Schema) (r : Slotted) (s : State) :
    Except ApplyError State :=
  applyInstr sch s r.instr

/-- In the merge of two sequences of changesets, both starting in `s`, a
local and an incoming instruction meet in the state `t`, as what the
merges before made of them. -/
def ChangesetsMeet (sch : Schema) (ours theirs : List Changeset)
    (s t : State) (a : Side × Instr) (r : Slotted) : Prop :=
  Meets mergeSlot (runSided sch) (runSlotted sch) s
    (ours.flatMap Changeset.sided)
    ((theirs.flatMap Changeset.cells).flatMap Cell.slots) t a r

section Sequences

variable {sch : Schema} {s s1 s2 : State} {cs : List Changeset}
  {cells : List Cell}

theorem squares_of_not_clash {a : Side × Instr} {r : Slotted}
    (h : ¬InstrClash sch a.1.timestamp r.side.timestamp a.2 r.instr s) :
    Squares mergeSlot (runSided sch) (runSlotted sch) s a r := by
  intro x y t1 t2 hm ha hr
  obtain ⟨o, ho, hx, hy⟩ := mergeSlot_eq_ok.1 hm
  simp only at hx hy
  obtain ⟨l', r', ho', hconv⟩ := instrTp1_of_merge (l := a.2) (r := r.instr)
    ha hr ho h
  cases ho.symm.trans ho'
  subst hx hy
  have hleft : runOpt ((l'.map fun l => (a.1, l)).map (runSided sch))
      = applyOpt sch l' := by cases l' <;> rfl
  have hright : runOpt ((r'.map fun i => { r with instr := i }).map
      (runSlotted sch)) = applyOpt sch r' := by cases r' <;> rfl
  rw [hleft, hright]
  exact hconv

/-- What was executed is about objects. -/
theorem notDestructive_of_applied
    (h : applyChangesets sch cs s = .ok s1) : NotDestructive cs := by
  have hall : ∀ {is : List Instr} {s s1 : State},
      runAll (fun i s => applyInstr sch s i) is s = .ok s1 →
      ∀ i ∈ is, isDestructive i = false := by
    intro is
    induction is with
    | nil => simp
    | cons i is ih =>
      intro s s1 h j hj
      obtain ⟨t, ht, h⟩ := bind_eq_ok.1 h
      rcases List.mem_cons.1 hj with rfl | hj
      · obtain ⟨ref, href⟩ := instrObject_of_applied ht
        exact not_destructive_of_instrObject href
      · exact ih h j hj
  intro c hc i hi
  exact hall h i (List.mem_flatMap.2 ⟨c, hc, hi⟩)

theorem runAll_sided (as : List (Side × Instr)) : runAll (runSided sch) as
      = runAll (fun i s => applyInstr sch s i) (as.map Prod.snd) := by
  rw [runAll_map]
  rfl

theorem runAll_slotted (slots : List Slotted) :
    runAll (runSlotted sch) slots
      = runAll (fun i s => applyInstr sch s i) (slots.map Slotted.instr) := by
  rw [runAll_map]
  rfl

theorem sided_instrs (cs : List Changeset) :
    (cs.flatMap Changeset.sided).map Prod.snd
      = cs.flatMap Changeset.live := by
  rw [List.map_flatMap]
  refine List.flatMap_congr fun c _ => ?_
  rw [sided, List.map_map]
  exact List.map_id _

theorem slots_instrs (cells : List Cell) :
    (cells.flatMap Cell.slots).map Slotted.instr
      = cells.flatMap Cell.instrs := by
  rw [List.map_flatMap]
  refine List.flatMap_congr fun c _ => ?_
  rw [Cell.slots, List.map_map]
  exact List.map_id _

theorem cells_instrs (cs : List Changeset) :
    (cs.flatMap Changeset.cells).flatMap Cell.instrs
      = cs.flatMap Changeset.live := by
  rw [List.flatMap_assoc]
  refine List.flatMap_congr fun c _ => ?_
  have hflat : c.cells.flatMap Cell.instrs
      = (c.instructions.zipIdx.map Prod.fst).flatMap Option.toList := by
    simp only [cells, labelled, List.flatMap_map]
  rw [hflat, List.zipIdx_map_fst, live, List.reduceOption,
    List.filterMap_eq_flatMap_toList]
  rfl

section

variable (hkeys : KeysIncrease cs) (hlabels : cells.map Cell.label =
  allLabels cs)

include hkeys hlabels

/-- Every cell goes back to the changeset it came from. -/
theorem withCells_cells :
    (cs.flatMap fun c => cells.filter fun x => x.label.1 = c.key)
      = cells := by
  induction cs generalizing cells with
  | nil => simpa [allLabels] using hlabels.symm
  | cons c cs ih =>
    obtain ⟨hlt, hkeys⟩ := List.pairwise_cons.1 hkeys
    obtain ⟨front, rest, rfl, hfront, hrest⟩ :=
      List.map_eq_append_iff.1 hlabels
    have hkey : ∀ x ∈ front, x.label.1 = c.key := by
      intro x hx
      have hmem := List.mem_map_of_mem (f := Cell.label) hx
      rw [hfront] at hmem
      obtain ⟨p, hp, hpx⟩ := List.mem_map.1 hmem
      rw [← hpx]
      exact (mem_labelled hp).1
    have hkey' : ∀ x ∈ rest, x.label.1 ≠ c.key := by
      intro x hx hxc
      have hmem := List.mem_map_of_mem (f := Cell.label) hx
      rw [hrest] at hmem
      obtain ⟨d, hd, hp⟩ := List.mem_flatMap.1 hmem
      obtain ⟨p, hp, hpx⟩ := List.mem_map.1 hp
      have hdc : d.key = c.key := by
        rw [← hxc, ← hpx]
        exact (mem_labelled hp).1.symm
      have := hlt d hd
      rw [hdc, Key.lt_irrefl] at this
      cases this
    have hhead : ((front ++ rest).filter fun x => x.label.1 = c.key)
        = front := by
      rw [List.filter_append, List.filter_eq_self.2, List.filter_eq_nil_iff.2,
        List.append_nil]
      · simpa using hkey'
      · simpa using hkey
    have htail : ∀ d ∈ cs,
        ((front ++ rest).filter fun x => x.label.1 = d.key)
          = rest.filter fun x => x.label.1 = d.key := by
      intro d hd
      rw [List.filter_append, List.filter_eq_nil_iff.2, List.nil_append]
      intro x hx
      rw [decide_eq_true_eq, hkey x hx]
      intro hcd
      have := hlt d hd
      rw [hcd, Key.lt_irrefl] at this
      cases this
    rw [List.flatMap_cons, hhead, List.flatMap_congr htail, ih hkeys hrest]

/-- The incoming changesets after the merge hold what is left in their
cells. -/
theorem withCells_live :
    (cs.map fun c => c.withCells cells).flatMap Changeset.live
      = cells.flatMap Cell.instrs := by
  have hlive : ∀ c : Changeset, (c.withCells cells).live
      = (cells.filter fun x => x.label.1 = c.key).flatMap Cell.instrs := by
    intro c
    simp [withCells, live, List.reduceOption]
  rw [List.flatMap_map, List.flatMap_congr fun c _ => hlive c]
  conv_rhs => rw [← withCells_cells hkeys hlabels, List.flatMap_assoc]

end

end Sequences

/-- A changeset of one instruction. -/
def oneInstruction (side : Side) (i : Instr) : Changeset :=
  ⟨⟨1, 0⟩, side, [some i]⟩

/-- The local side counts a field up. -/
def Increments (a : Side × Instr) : Prop :=
  a.1 = laterSide ∧ ∃ n, a.2 = .path (atField [] (.addInteger n))

/-- The other side, which is earlier, sets it to a number. -/
def SetsNumber (r : Slotted) : Prop :=
  r.side = earlierSide
    ∧ ∃ i, r.instr = .path (atField [] (.update (.int i) false 0))

/-- Increments stay increments and numbers stay numbers. -/
theorem increments_keep {a : Side × Instr} {r : Slotted}
    {a' : Option (Side × Instr)} {r' : Option Slotted}
    (ha : Increments a) (hr : SetsNumber r)
    (h : mergeSlot a r = .ok (a', r')) :
    (∀ x ∈ a', Increments x) ∧ ∀ y ∈ r', SetsNumber y := by
  obtain ⟨side, instr⟩ := a
  obtain ⟨label, side', instr'⟩ := r
  obtain ⟨rfl, n, rfl⟩ := ha
  obtain ⟨rfl, i, rfl⟩ := hr
  have hm : mergeSlot (laterSide, .path (atField [] (.addInteger n)))
      ⟨label, earlierSide, .path (atField [] (.update (.int i) false 0))⟩
      = .ok (some (laterSide, .path (atField [] (.addInteger n))),
        some ⟨label, earlierSide,
          .path (atField [] (.update (.int (i + n)) false 0))⟩) := rfl
  cases hm.symm.trans h
  constructor
  · rintro x ⟨⟩
    exact ⟨rfl, n, rfl⟩
  · rintro y ⟨⟩
    exact ⟨rfl, i + n, rfl⟩

/-- An increment and a number never clash. -/
theorem increments_not_clash {a : Side × Instr} {r : Slotted} {t : State}
    (ha : Increments a) (hr : SetsNumber r) :
    ¬InstrClash (oneColumnSchema mixedColumn) a.1.timestamp
      r.side.timestamp a.2 r.instr t := by
  obtain ⟨-, n, hn⟩ := ha
  obtain ⟨-, i, hi⟩ := hr
  rw [hn, hi]
  rintro ⟨-, tbl, v, ht, -, h⟩
  cases ht
  cases v <;>
    simp only [RouteClash, LeafClash, setAt, SetClash, setOp, SlotClash,
      IncrementClash, atField, PathInstruction.fullPath, Payload.type,
      reduceCtorEq, false_and, exists_false, and_false] at h
  split at h <;> exact h.2

end BarqSync
