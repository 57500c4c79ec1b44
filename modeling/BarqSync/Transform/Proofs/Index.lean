/-
What the index of the incoming changesets knows: which positions it
returns for a local instruction, and that it leaves out only instructions
on other objects (`Indexed.covers`).

# Ranges

Instructions are added in the order of changesets and positions, so a
new position always comes behind the ones that are there (`Ready`), and
coalescing appends exactly that position (`addInstructionAt_positions`).

# Groups

`Valid` is what the two maps of the index owe to each other: a subject
points to a group exactly when the group lists it. That is what makes the
redirection of a merged group complete, and so two subjects that were
joined once stay joined (`Joined`).

# The two passes

The scan connects the subjects of every instruction on either side
(`scanAll_grows`). After that adding the incoming instructions makes no
new group, and each group receives the positions of its own instructions
(`addAll_adding`).
-/
import BarqSync.Transform.Changesets
import BarqSync.Transform.Proofs.Fields
import Mathlib.Data.List.ReduceOption
import Mathlib.Data.List.TakeWhile

namespace BarqSync

open ChangesetIndex Function

variable {idx : ChangesetIndex} {i : Instr} {key : Key} {pos : ℕ}
  {ranges : Ranges} {c : Changeset} {cs ours theirs : List Changeset}
  {f : List Range → List Range} {p : Label × Instr} {ref : ObjectRef}
  {rs : List Range}

open Ot

-- ===== ranges

theorem Key.lt_irrefl (a : Key) : a.lt a = false := by
  simp [Key.lt]

theorem Key.lt_asymm {a b : Key} (h : a.lt b = true) : b.lt a = false := by
  unfold Key.lt at h ⊢
  split at h <;> split <;> simp_all <;> omega

/-- Ranges that end in front of a position. -/
def RangesBelow (rs : List Range) (pos : ℕ) : Prop :=
  ∀ r ∈ rs, r.1 < r.2 ∧ r.2 ≤ pos

theorem range_positions_succ {a : ℕ} (h : a < pos) :
    Range.positions (a, pos + 1) = Range.positions (a, pos) ++ [pos] := by
  have hlen : pos + 1 - a = (pos - a) + 1 := by omega
  simp only [Range.positions, hlen, List.range'_concat, Nat.one_mul]
  rw [Nat.add_sub_cancel' (Nat.le_of_lt h)]

/-- A position behind all ranges is appended, to the last range or as one
of its own. -/
theorem insertRange_positions (h : RangesBelow rs pos) :
    (insertRange (pos, pos + 1) rs).flatMap Range.positions
        = rs.flatMap Range.positions ++ [pos]
      ∧ RangesBelow (insertRange (pos, pos + 1) rs) (pos + 1) := by
  have hall : ∀ r ∈ rs, decide (r.1 < pos) = true := by
    intro r hr
    have := h r hr
    simp only [decide_eq_true_eq]
    omega
  have htake : rs.takeWhile (fun r => decide (r.1 < pos)) = rs :=
    List.takeWhile_eq_self_iff.2 hall
  have hdrop : rs.dropWhile (fun r => decide (r.1 < pos)) = [] :=
    List.dropWhile_eq_nil_iff.2 hall
  simp only [insertRange, htake, hdrop]
  rcases List.eq_nil_or_concat' rs with rfl | ⟨front, last, rfl⟩
  · simp [coalesce, Range.positions, RangesBelow]
  · obtain ⟨hlt, hle⟩ := h last (by simp)
    have hfront : RangesBelow front (pos + 1) := by
      intro r hr
      have := h r (by simp [hr])
      omega
    simp only [List.getLast?_concat, List.dropLast_concat, coalesce]
    by_cases hpos : pos ≤ last.2
    · have hlast : last = (last.1, pos) := by
        ext
        · rfl
        · exact Nat.le_antisymm hle hpos
      have hlt' : last.1 < pos := by omega
      have hmax : max last.2 (pos + 1) = pos + 1 := by omega
      rw [if_pos hpos, hmax]
      constructor
      · rw [List.flatMap_append, List.flatMap_append, List.flatMap_singleton,
          List.flatMap_singleton, range_positions_succ hlt', ← hlast,
          List.append_assoc]
      · exact List.forall_mem_append.2 ⟨hfront,
          List.forall_mem_singleton.2 ⟨by omega, by omega⟩⟩
    · rw [if_neg hpos]
      constructor
      · simp [Range.positions]
      · intro r hr
        rcases List.mem_append.1 hr with hr | hr
        · exact hfront r hr
        · rcases List.mem_cons.1 hr with rfl | hr
          · exact ⟨hlt, by omega⟩
          · obtain rfl := List.mem_singleton.1 hr
            exact ⟨by omega, by omega⟩

/-- The next position to be added comes behind everything: the changeset
is a new one, or it is the last one and the position is behind its
ranges. -/
def Ready (ranges : Ranges) (label : Label) : Prop :=
  (∀ e ∈ ranges, e.1.lt label.1 = true)
    ∨ ∃ front rs, ranges = front ++ [(label.1, rs)]
      ∧ (∀ e ∈ front, e.1.lt label.1 = true) ∧ RangesBelow rs label.2

theorem Ready.mono {pos' : ℕ} (h : Ready ranges (key, pos))
    (hpos : pos ≤ pos') :
    Ready ranges (key, pos') := by
  rcases h with h | ⟨front, rs, hr, hfront, hrs⟩
  · exact .inl h
  · exact .inr ⟨front, rs, hr, hfront,
      fun r hmem => ⟨(hrs r hmem).1, (hrs r hmem).2.trans hpos⟩⟩

theorem Key.lt_trans {a b c : Key} (hab : a.lt b = true)
    (hbc : b.lt c = true) : a.lt c = true := by
  unfold Key.lt at *
  split at hab <;> split at hbc <;> split <;> simp_all <;> omega

theorem Ready.next {key' : Key} (h : Ready ranges (key, pos))
    (hkey : key.lt key' = true) :
    Ready ranges (key', 0) := by
  left
  rcases h with h | ⟨front, rs, rfl, hfront, -⟩
  · exact fun e he => Key.lt_trans (h e he) hkey
  · refine List.forall_mem_append.2 ⟨fun e he => ?_,
      List.forall_mem_singleton.2 hkey⟩
    exact Key.lt_trans (hfront e he) hkey

theorem ranges_modify_append {front tail : Ranges} {key : Key}
    {f : List Range → List Range} (h : ∀ e ∈ front, e.1.lt key = true) :
    Ranges.modify key f (front ++ tail) = front ++ Ranges.modify key f tail := by
  induction front with
  | nil => rfl
  | cons e front ih =>
    obtain ⟨k, rs⟩ := e
    have hk : k.lt key = true := h (k, rs) List.mem_cons_self
    have hrest := ih fun e he => h e (List.mem_cons_of_mem _ he)
    simp [Ranges.modify, hk, Key.lt_asymm hk, hrest]

theorem ranges_modify_new (h : ∀ e ∈ ranges, e.1.lt key = true) :
    ranges.modify key f = ranges ++ [(key, f [])] := by
  have hnil := @ranges_modify_append ranges [] key f h
  simpa [Ranges.modify] using hnil

theorem ranges_modify_last {front : Ranges}
    (h : ∀ e ∈ front, e.1.lt key = true) :
    Ranges.modify key f (front ++ [(key, rs)]) = front ++ [(key, f rs)] := by
  rw [ranges_modify_append h]
  simp [Ranges.modify, Key.lt_irrefl]

theorem positions_concat (front : Ranges) (key : Key) (rs : List Range) :
    Ranges.positions (front ++ [(key, rs)])
      = front.positions
        ++ (rs.flatMap Range.positions).map fun i => (key, i) := by
  simp [Ranges.positions, List.map_flatMap]

/-- Adding the next position appends it to what the iterator goes
through. -/
theorem addInstructionAt_positions {label : Label}
    (h : Ready ranges label) :
    (addInstructionAt ranges label.1 label.2).positions
        = ranges.positions ++ [label]
      ∧ Ready (addInstructionAt ranges label.1 label.2)
          (label.1, label.2 + 1) := by
  obtain ⟨key, pos⟩ := label
  rcases h with h | ⟨front, rs, rfl, hfront, hrs⟩
  · have hnone : RangesBelow [] pos := by simp [RangesBelow]
    obtain ⟨hpos, hbelow⟩ := insertRange_positions hnone
    simp only [addInstructionAt, ranges_modify_new h, positions_concat, hpos]
    exact ⟨by simp, .inr ⟨ranges, _, rfl, h, hbelow⟩⟩
  · obtain ⟨hpos, hbelow⟩ := insertRange_positions hrs
    simp only [addInstructionAt, ranges_modify_last hfront, positions_concat,
      hpos]
    exact ⟨by simp, .inr ⟨front, _, rfl, hfront, hbelow⟩⟩

-- ===== groups

/-- What the map and the groups owe to each other: a subject points to
the group that lists it, and new groups get new numbers. -/
structure ChangesetIndex.Valid (idx : ChangesetIndex) : Prop where
  fresh : ∀ g, idx.nextGroup ≤ g → idx.groups g = none
  owns : ∀ x g, idx.instructions x = some g
    ↔ ∃ cg, idx.groups g = some cg ∧ x ∈ cg.subjects

/-- An index that only scanned so far, and found nothing destructive. -/
structure Scanning (idx : ChangesetIndex) : Prop extends idx.Valid where
  noRanges : ∀ g cg, idx.groups g = some cg → cg.ranges = []
  noPositions : idx.everything = []
  intact : idx.containsDestructiveSchemaChanges = false

/-- Two subjects are in one group. -/
def Joined (idx : ChangesetIndex) (x y : Subject) : Prop :=
  ∃ g, idx.instructions x = some g ∧ idx.instructions y = some g

/-- What a step of the scan leaves: an index that is still scanning, in
which what was joined is joined. -/
structure Grows (idx idx' : ChangesetIndex) : Prop where
  scanning : Scanning idx'
  joined : ∀ x y, Joined idx x y → Joined idx' x y

theorem Grows.trans {a b c : ChangesetIndex} (hab : Grows a b)
    (hbc : Grows b c) : Grows a c :=
  ⟨hbc.scanning, fun x y h => hbc.joined x y (hab.joined x y h)⟩

theorem Scanning.refl (h : Scanning idx) : Grows idx idx :=
  ⟨h, fun _ _ h => h⟩

theorem scanning_empty : Scanning .empty where
  fresh _ _ := rfl
  owns := by simp [ChangesetIndex.empty]
  noRanges := by simp [ChangesetIndex.empty]
  noPositions := rfl
  intact := rfl

section Groups

variable {idx : ChangesetIndex} {g : ℕ} {x y : Subject}

/-- The group of a subject that has one. -/
theorem conflictGroup_of_some (h : idx.instructions x = some g) :
    idx.conflictGroup x = (idx, g) := by
  simp [conflictGroup, h]

/-- Making a group for a subject moves no other one. -/
theorem conflictGroup_keeps (h : idx.instructions x = some g) :
    (idx.conflictGroup y).1.instructions x = some g := by
  cases hy : idx.instructions y with
  | some g' => rw [conflictGroup_of_some hy, h]
  | none =>
    have hne : x ≠ y := by
      rintro rfl
      simp [h] at hy
    simp [conflictGroup, hy, update_of_ne hne, h]

section

variable (h : Scanning idx)

include h

theorem conflictGroup_grows (x : Subject) :
    Grows idx (idx.conflictGroup x).1
      ∧ (idx.conflictGroup x).1.instructions x = some (idx.conflictGroup x).2 := by
  cases hx : idx.instructions x with
  | some g =>
    rw [conflictGroup_of_some hx]
    exact ⟨h.refl, hx⟩
  | none =>
    have hkeeps : ∀ y z, Joined idx y z → Joined (idx.conflictGroup x).1 y z := by
      rintro y z ⟨g, hy, hz⟩
      exact ⟨g, conflictGroup_keeps hy, conflictGroup_keeps hz⟩
    simp only [conflictGroup, hx] at hkeeps ⊢
    have hfresh : idx.groups idx.nextGroup = none := h.fresh _ le_rfl
    have hother : ∀ y g, y ≠ x →
        (idx.instructions y = some g ↔ ∃ cg, update idx.groups
          idx.nextGroup (some ⟨[], [x], 1⟩) g = some cg
          ∧ y ∈ cg.subjects) := by
      intro y g hyx
      rw [h.owns]
      by_cases hg : g = idx.nextGroup
      · subst hg
        simp [hfresh, hyx]
      · rw [update_of_ne hg]
    refine ⟨⟨⟨⟨?_, ?_⟩, ?_, h.noPositions, h.intact⟩, hkeeps⟩, by simp⟩
    · intro g hg
      simp only at hg
      have hne : g ≠ idx.nextGroup := by omega
      simp only
      rw [update_of_ne hne, h.fresh g (by omega)]
    · intro y g
      by_cases hyx : y = x
      · subst hyx
        by_cases hg : g = idx.nextGroup
        · simp [hg]
        · have hno : ¬∃ cg, idx.groups g = some cg ∧ y ∈ cg.subjects := by
            rw [← h.owns, hx]
            simp
          simpa [update_of_ne hg, Ne.symm hg] using hno
      · simp only
        rw [update_of_ne hyx]
        exact hother y g hyx
    · intro g cg hg
      by_cases hne : g = idx.nextGroup
      · subst hne
        simp only [update_self, Option.some.injEq] at hg
        rw [← hg]
      · exact h.noRanges g cg (by simpa [update_of_ne hne] using hg)

/-- After a group is merged into another one its subjects point there, and
no other subject moves. -/
theorem absorb_grows {into source : ℕ} {a b : ConflictGroup} (ha : idx.groups into = some a)
    (hb : idx.groups source = some b) (hne : into ≠ source) :
    ∃ idx', idx.absorb into source a b = .ok idx' ∧ Grows idx idx'
      ∧ ∀ x g, idx.instructions x = some g →
        idx'.instructions x = some (if g = source then into else g) := by
  have hmem : ∀ x, x ∈ b.subjects ↔ idx.instructions x = some source := by
    intro x
    rw [h.owns]
    simp [hb]
  have hmove : ∀ x g, idx.instructions x = some g →
      (if x ∈ b.subjects then some into else idx.instructions x)
        = some (if g = source then into else g) := by
    intro x g hx
    by_cases hg : g = source
    · rw [if_pos hg, if_pos ((hmem x).2 (hg ▸ hx))]
    · rw [if_neg hg, if_neg, hx]
      rw [hmem, hx]
      simpa using hg
  refine ⟨_, (if_neg (by simp [h.noRanges _ _ ha])).trans
    (if_neg (by simp [h.noRanges _ _ hb])),
    ⟨⟨⟨?_, ?_⟩, ?_, h.noPositions, h.intact⟩, ?_⟩, hmove⟩
  · intro g hg
    have hinto : g ≠ into := by
      rintro rfl
      simp [h.fresh g hg] at ha
    simp only [update_apply, if_neg hinto]
    split
    · rfl
    · exact h.fresh g hg
  · intro x g
    simp only [update_apply]
    by_cases hs : g = source
    · -- Nothing points to the deleted group any more.
      subst hs
      simp only [if_true, reduceCtorEq, false_and, exists_false, iff_false]
      intro hx
      split at hx
      · exact hne (Option.some.inj hx)
      · next hx' => exact hx' ((hmem x).2 hx)
    · rw [if_neg hs]
      by_cases hi : g = into
      · subst hi
        have hxa : x ∈ a.subjects ↔ idx.instructions x = some g := by
          rw [h.owns]
          simp [ha]
        simp only [if_true, Option.some.injEq, exists_eq_left', List.mem_append,
          hxa]
        by_cases hx : x ∈ b.subjects
        · simp [hx]
        · simp [hx]
      · rw [if_neg hi, ← h.owns]
        by_cases hx : x ∈ b.subjects
        · have hxs := (hmem x).1 hx
          simp [hx, hxs, Ne.symm hi, Ne.symm hs]
        · simp [hx]
  · intro g cg hg
    simp only [update_apply] at hg
    split at hg
    · cases hg
    · split at hg
      · cases hg
        exact h.noRanges into a ha
      · exact h.noRanges g cg hg
  · rintro x y ⟨g, hx, hy⟩
    exact ⟨_, hmove x g hx, hmove y g hy⟩

theorem mergeConflictGroups_grows {g' : ℕ}
    (hx : idx.instructions x = some g)
    (hy : idx.instructions y = some g') :
    ∃ idx', idx.mergeConflictGroups g g' = .ok idx' ∧ Grows idx idx'
      ∧ Joined idx' x y := by
  by_cases hgg : g = g'
  · subst hgg
    exact ⟨idx, by simp [mergeConflictGroups], h.refl, g, hx, hy⟩
  · obtain ⟨a, ha, -⟩ := (h.owns x g).1 hx
    obtain ⟨b, hb, -⟩ := (h.owns y g').1 hy
    simp only [mergeConflictGroups, if_neg hgg, ha, hb]
    split
    · obtain ⟨idx', hok, hgrows, hmove⟩ := absorb_grows h hb ha (Ne.symm hgg)
      refine ⟨idx', hok, hgrows, g', ?_, ?_⟩
      · simp [hmove x g hx]
      · simp [hmove y g' hy]
    · obtain ⟨idx', hok, hgrows, hmove⟩ := absorb_grows h ha hb hgg
      refine ⟨idx', hok, hgrows, g, ?_, ?_⟩
      · simp [hmove x g hx]
      · simp [hmove y g' hy]

theorem connect_grows (x y : Subject) :
    ∃ idx', idx.connect x y = .ok idx' ∧ Grows idx idx' ∧ Joined idx' x y := by
  obtain ⟨hgx, hx⟩ := conflictGroup_grows h x
  obtain ⟨hgy, hy⟩ := conflictGroup_grows hgx.scanning y
  obtain ⟨idx', hok, hgrows, hjoined⟩ :=
    mergeConflictGroups_grows hgy.scanning (conflictGroup_keeps hx) hy
  exact ⟨idx', hok, hgx.trans (hgy.trans hgrows), hjoined⟩

end

end Groups

-- ===== scanning

/-- `EraseTable` and `EraseColumn`. -/
def isDestructive : Instr → Bool
  | .eraseTable _ => true
  | .eraseColumn _ _ => true
  | _ => false

/-- The subjects an instruction connects. -/
def instrSubjects : Instr → List Subject
  | .addTable t _ => [.schema t.data]
  | .addColumn t _ type _ _ target _ =>
    .schema t.data :: if type = .link then [.schema target.data] else []
  | i => (objectIdsInInstruction i).map Subject.object

/-- All subjects of an instruction are in one group. -/
def Connected (idx : ChangesetIndex) (i : Instr) : Prop :=
  ∀ x ∈ instrSubjects i, ∀ y ∈ instrSubjects i, Joined idx x y

theorem Grows.connected {idx' : ChangesetIndex} (h : Grows idx idx')
    (hi : Connected idx i) : Connected idx' i :=
  fun x hx y hy => h.joined x y (hi x hx y hy)

theorem objectIds_path (p : PathInstruction Interned Buffered) :
    objectIdsInInstruction (.path p) = [objectRef p.table p.object]
      ∨ ∃ b, objectIdsInInstruction (.path p)
        = [objectRef p.table p.object, b] := by
  simp only [objectIdsInInstruction]
  split
  · exact .inr ⟨_, rfl⟩
  · exact .inr ⟨_, rfl⟩
  · exact .inl rfl

/-- An instruction has one subject or two, and the first is its object if
it has one. -/
theorem instrSubjects_cases (hi : isDestructive i = false) :
    ∃ x, (instrSubjects i = [x] ∨ ∃ y, instrSubjects i = [x, y])
      ∧ ∀ ref, instrObject i = some ref → x = .object ref := by
  cases i with
  | addTable t s => exact ⟨_, .inl rfl, by simp [instrObject]⟩
  | eraseTable t => cases hi
  | createObject t k =>
    exact ⟨_, .inl rfl, by simp [instrObject]⟩
  | eraseObject t k => exact ⟨_, .inl rfl, by simp [instrObject]⟩
  | addColumn t f type n ct target kt =>
    refine ⟨.schema t.data, ?_, by simp [instrObject]⟩
    by_cases h : type = .link
    · exact .inr ⟨.schema target.data, by simp [instrSubjects, h]⟩
    · exact .inl (by simp [instrSubjects, h])
  | eraseColumn t f => cases hi
  | path p =>
    refine ⟨.object (objectRef p.table p.object), ?_, by simp [instrObject]⟩
    rcases objectIds_path p with h | ⟨b, h⟩
    · exact .inl (by simp [instrSubjects, h])
    · exact .inr ⟨.object b, by simp [instrSubjects, h]⟩

section

variable (h : Scanning idx)

include h

/-- The scan of an instruction makes or connects the groups of its
subjects. -/
theorem scanInstruction_eq (hi : isDestructive i = false) :
    idx.scanInstruction i
      = match instrSubjects i with
        | [x] => .ok (idx.conflictGroup x).1
        | [x, y] => idx.connect x y
        | _ => .error (.assertion "num_ids >= 1") := by
  unfold scanInstruction
  rw [if_neg (by simp [h.intact])]
  cases i with
  | addTable t s => rfl
  | eraseTable t => cases hi
  | createObject t k => rfl
  | eraseObject t k => rfl
  | addColumn t f type n ct target kt =>
    by_cases htype : type = .link <;> simp [instrSubjects, htype]
  | eraseColumn t f => cases hi
  | path p =>
    rcases objectIds_path p with h | ⟨b, h⟩ <;> simp [instrSubjects, h]

theorem scanInstruction_grows (hi : isDestructive i = false) :
    ∃ idx', idx.scanInstruction i = .ok idx' ∧ Grows idx idx'
      ∧ Connected idx' i := by
  rw [scanInstruction_eq h hi]
  obtain ⟨x, hx | ⟨y, hxy⟩, -⟩ := instrSubjects_cases hi
  · obtain ⟨hgrows, hg⟩ := conflictGroup_grows h x
    simp only [Connected, hx]
    refine ⟨_, rfl, hgrows, ?_⟩
    simp only [List.mem_singleton, forall_eq]
    exact ⟨_, hg, hg⟩
  · obtain ⟨idx', hok, hgrows, hjoined⟩ := connect_grows h x y
    simp only [Connected, hxy]
    refine ⟨idx', hok, hgrows, ?_⟩
    obtain ⟨g, hgx, hgy⟩ := hjoined
    simp only [List.mem_cons, List.not_mem_nil, or_false, forall_eq_or_imp,
      forall_eq]
    exact ⟨⟨⟨g, hgx, hgx⟩, g, hgx, hgy⟩, ⟨g, hgy, hgx⟩, g, hgy, hgy⟩

theorem scanChangeset_grows (hc : ∀ i ∈ c.live, isDestructive i = false) :
    ∃ idx', idx.scanChangeset c = .ok idx' ∧ Grows idx idx'
      ∧ ∀ i ∈ c.live, Connected idx' i := by
  unfold scanChangeset
  generalize c.live = is at hc ⊢
  induction is generalizing idx with
  | nil => exact ⟨idx, rfl, h.refl, by simp⟩
  | cons i is ih =>
    obtain ⟨idx1, hok, hgrows, hconn⟩ :=
      scanInstruction_grows h (hc i List.mem_cons_self)
    obtain ⟨idx', hok', hgrows', hconn'⟩ :=
      ih hgrows.scanning fun j hj => hc j (List.mem_cons_of_mem _ hj)
    refine ⟨idx', ?_, hgrows.trans hgrows', fun j hj => ?_⟩
    · rw [List.foldlM_cons, hok]
      exact hok'
    · rcases List.mem_cons.1 hj with rfl | hj
      · exact hgrows'.connected hconn
      · exact hconn' j hj

/-- After the scan of a sequence of changesets every instruction in it is
connected. -/
theorem scanAll_grows
    (hcs : ∀ c ∈ cs, ∀ i ∈ c.live, isDestructive i = false) :
    ∃ idx', cs.foldlM ChangesetIndex.scanChangeset idx = .ok idx'
      ∧ Grows idx idx' ∧ ∀ c ∈ cs, ∀ i ∈ c.live, Connected idx' i := by
  induction cs generalizing idx with
  | nil => exact ⟨idx, rfl, h.refl, by simp⟩
  | cons c cs ih =>
    obtain ⟨idx1, hok, hgrows, hconn⟩ :=
      scanChangeset_grows h (hcs c List.mem_cons_self)
    obtain ⟨idx', hok', hgrows', hconn'⟩ :=
      ih hgrows.scanning fun d hd => hcs d (List.mem_cons_of_mem _ hd)
    refine ⟨idx', ?_, hgrows.trans hgrows', fun d hd i hi => ?_⟩
    · rw [List.foldlM_cons, hok]
      exact hok'
    · rcases List.mem_cons.1 hd with rfl | hd
      · exact hgrows'.connected (hconn i hi)
      · exact hconn' d hd i hi

end

-- ===== indexing

/-- The group an instruction is recorded in. -/
def homeGroup (idx : ChangesetIndex) (i : Instr) : Option ℕ :=
  (instrSubjects i).head?.bind idx.instructions

/-- The items that are not tombstones. -/
def liveItems (items : List (Label × Option Instr)) : List (Label × Instr) :=
  items.filterMap fun p => p.2.map fun i => (p.1, i)

/-- An index to which instructions were added after the scan: each group
holds the positions of its own, in order, and `next` comes behind them. -/
structure Adding (scan idx : ChangesetIndex) (added : List (Label × Instr))
    (next : Label) : Prop where
  instructions : idx.instructions = scan.instructions
  intact : idx.containsDestructiveSchemaChanges = false
  alive : ∀ g, (idx.groups g).isSome = (scan.groups g).isSome
  positions : ∀ g cg, idx.groups g = some cg → cg.ranges.positions
      = (added.filter fun p => homeGroup scan p.2 = some g).map Prod.fst
  ready : ∀ g cg, idx.groups g = some cg → Ready cg.ranges next

section Adding

variable {scan idx : ChangesetIndex} {added : List (Label × Instr)}
  {key : Key} {pos : ℕ}

theorem Scanning.adding (h : Scanning idx) (next : Label) :
    Adding idx idx [] next where
  instructions := rfl
  intact := h.intact
  alive _ := rfl
  positions g cg hg := by simp [h.noRanges g cg hg, Ranges.positions]
  ready g cg hg := by simp [h.noRanges g cg hg, Ready]

theorem Adding.skip (h : Adding scan idx added (key, pos)) :
    Adding scan idx added (key, pos + 1) :=
  { h with ready := fun g cg hg => (h.ready g cg hg).mono (Nat.le_succ pos) }

theorem Adding.nextKey {key' : Key} (h : Adding scan idx added (key, pos))
    (hkey : key.lt key' = true) : Adding scan idx added (key', 0) :=
  { h with ready := fun g cg hg => (h.ready g cg hg).next hkey }

/-- The groups after an instruction was recorded in one. -/
def withPosition (idx : ChangesetIndex) (g : ℕ) (label : Label) :
    ChangesetIndex :=
  { idx with
    groups := Function.update idx.groups g ((idx.groups g).map fun cg =>
        { cg with ranges := addInstructionAt cg.ranges label.1 label.2 }) }

theorem record_eq {x : Subject} {other : Option Subject} {g : ℕ}
    {condition : String} {label : Label} (hx : idx.instructions x = some g)
    (hother : ∀ y ∈ other, idx.instructions y = some g) :
    idx.record label x other condition = .ok (withPosition idx g label) := by
  unfold record
  simp only [conflictGroup_of_some hx]
  cases other with
  | none => rfl
  | some y =>
    simp only [conflictGroup_of_some (hother y rfl)]
    rfl

/-- A connected instruction is recorded in its group. -/
theorem addInstruction_eq (label : Label) (hi : isDestructive i = false)
    (hconn : Connected idx i) :
    ∃ g, homeGroup idx i = some g
      ∧ idx.addInstruction label i = .ok (withPosition idx g label) := by
  have hfirst : ∀ x others, instrSubjects i = x :: others →
      ∃ g, homeGroup idx i = some g
        ∧ ∀ condition, idx.record label x others.head? condition
          = .ok (withPosition idx g label) := by
    intro x others hsub
    obtain ⟨g, hg, -⟩ := hconn x (by simp [hsub]) x (by simp [hsub])
    refine ⟨g, by simp [homeGroup, hsub, hg],
      fun condition => record_eq hg fun y hy => ?_⟩
    obtain ⟨g', hg', hy'⟩ := hconn x (by simp [hsub]) y
      (by simp [hsub, List.mem_of_mem_head? hy])
    cases hg.symm.trans hg'
    exact hy'
  cases i with
  | addTable t s =>
    obtain ⟨g, hg, hok⟩ := hfirst _ _ rfl
    exact ⟨g, hg, hok ""⟩
  | eraseTable t => cases hi
  | createObject | eraseObject =>
    obtain ⟨g, hg, hok⟩ := hfirst _ _ rfl
    exact ⟨g, hg, hok "&cg == &object_conflict_group(ids[i])"⟩
  | addColumn t f type n ct target kt =>
    obtain ⟨g, hg, hok⟩ := hfirst _ _ rfl
    refine ⟨g, hg, ?_⟩
    by_cases htype : type = .link <;>
      simpa [addInstruction, htype] using hok _
  | eraseColumn t f => cases hi
  | path p =>
    simp only [addInstruction]
    rcases objectIds_path p with h | ⟨b, h⟩
    · obtain ⟨g, hg, hok⟩ := hfirst (.object (objectRef p.table p.object))
        [] (by simp [instrSubjects, h])
      simp only [h]
      exact ⟨g, hg, hok _⟩
    · obtain ⟨g, hg, hok⟩ := hfirst (.object (objectRef p.table p.object))
        [.object b] (by simp [instrSubjects, h])
      simp only [h]
      exact ⟨g, hg, hok _⟩

theorem Adding.add (h : Adding scan idx added (key, pos))
    (hi : isDestructive i = false) (hconn : Connected scan i) :
    ∃ idx', idx.addInstruction (key, pos) i = .ok idx'
      ∧ Adding scan idx' (added ++ [((key, pos), i)]) (key, pos + 1)
      ∧ idx'.everything = idx.everything := by
  have hconn' : Connected idx i := by
    unfold Connected Joined at hconn ⊢
    rwa [h.instructions]
  obtain ⟨g, hg, hok⟩ := addInstruction_eq (key, pos) hi hconn'
  have hhome : homeGroup scan i = some g := by
    rwa [homeGroup, ← h.instructions]
  refine ⟨_, hok, ⟨h.instructions, h.intact, ?_, ?_, ?_⟩, rfl⟩
  · intro g'
    simp only [withPosition, update_apply, ← h.alive]
    split
    · next hgg => simp [hgg]
    · rfl
  · intro g' cg hcg
    simp only [withPosition, update_apply] at hcg
    split at hcg
    · next hgg =>
        subst hgg
        obtain ⟨cg0, hcg0, rfl⟩ := Option.map_eq_some_iff.1 hcg
        rw [(addInstructionAt_positions (h.ready g' cg0 hcg0)).1,
          h.positions g' cg0 hcg0]
        simp [hhome]
    · next hgg =>
        rw [h.positions g' cg hcg]
        simp [hhome, Ne.symm hgg]
  · intro g' cg hcg
    simp only [withPosition, update_apply] at hcg
    split at hcg
    · obtain ⟨cg0, hcg0, rfl⟩ := Option.map_eq_some_iff.1 hcg
      exact (addInstructionAt_positions (h.ready _ cg0 hcg0)).2
    · exact (h.ready g' cg hcg).mono (Nat.le_succ pos)

/-- The items of one changeset, from a position on. -/
theorem Adding.addItems {is : List (Option Instr)}
    (h : Adding scan idx added (key, pos))
    (his : ∀ i, some i ∈ is → isDestructive i = false ∧ Connected scan i) :
    ∃ idx', ((is.zipIdx pos).map fun p => ((key, p.2), p.1)).foldlM
        ChangesetIndex.addItem idx = .ok idx'
      ∧ Adding scan idx' (added
          ++ liveItems ((is.zipIdx pos).map fun p => ((key, p.2), p.1)))
          (key, pos + is.length)
      ∧ idx'.everything = idx.everything := by
  induction is generalizing idx added pos with
  | nil => exact ⟨idx, rfl, by simpa [liveItems] using h, rfl⟩
  | cons i is ih =>
    have hrest : ∀ j, some j ∈ is → isDestructive j = false ∧ Connected scan j :=
      fun j hj => his j (List.mem_cons_of_mem _ hj)
    have hlen : pos + (i :: is).length = pos + 1 + is.length := by
      rw [List.length_cons]
      omega
    rw [hlen]
    cases i with
    | none =>
      obtain ⟨idx', hok, hadd, hev⟩ := ih h.skip hrest
      exact ⟨idx', hok, by simpa [liveItems] using hadd, hev⟩
    | some i =>
      obtain ⟨hi, hconn⟩ := his i List.mem_cons_self
      obtain ⟨idx1, hok1, hadd1, hev1⟩ := h.add hi hconn
      obtain ⟨idx', hok, hadd, hev⟩ := ih hadd1 hrest
      refine ⟨idx', ?_, by simpa [liveItems] using hadd, hev.trans hev1⟩
      simp only [List.zipIdx_cons, List.map_cons, List.foldlM_cons,
        addItem, hok1]
      exact hok

/-- The labels of a changeset that has instructions. -/
def liveLabels (c : Changeset) : List Label :=
  if c.live.isEmpty then [] else c.labelled.map Prod.fst

theorem Adding.addChangeset (h : Adding scan idx added (c.key, 0))
    (hev : ∀ e ∈ idx.everything, e.1.lt c.key = true)
    (hc : ∀ i ∈ c.live, isDestructive i = false ∧ Connected scan i) :
    ∃ idx', idx.addChangeset c = .ok idx'
      ∧ Adding scan idx' (added ++ liveItems c.labelled)
          (c.key, c.instructions.length)
      ∧ idx'.everything.positions
        = idx.everything.positions ++ liveLabels c
      ∧ ∀ e ∈ idx'.everything, e.1.lt c.key = true ∨ e.1 = c.key := by
  have hc' : ∀ i, some i ∈ c.instructions →
      isDestructive i = false ∧ Connected scan i :=
    fun i hi => hc i (List.reduceOption_mem_iff.2 hi)
  unfold ChangesetIndex.addChangeset
  by_cases hlive : c.live.isEmpty = true
  · obtain ⟨idx', hok, hadd, hsame⟩ := h.addItems hc'
    rw [Nat.zero_add] at hadd
    simp only [hlive, if_true]
    rw [if_neg (by simp [h.intact])]
    refine ⟨idx', hok, hadd, ?_, ?_⟩
    · simp [hsame, liveLabels, hlive]
    · rw [hsame]
      exact fun e he => .inl (hev e he)
  · have h' : Adding scan { idx with
        everything := idx.everything.modify c.key
          fun _ => [(0, c.instructions.length)] } added (c.key, 0) :=
      ⟨h.instructions, h.intact, h.alive, h.positions, h.ready⟩
    obtain ⟨idx', hok, hadd, hsame⟩ := h'.addItems hc'
    rw [Nat.zero_add] at hadd
    simp only [hlive, if_false, Bool.false_eq_true]
    rw [if_neg (by simp [h.intact])]
    refine ⟨idx', hok, hadd, ?_, ?_⟩
    · have hlabels : (List.range' 0 c.instructions.length).map
          (fun i => (c.key, i)) = liveLabels c := by
        rw [← List.zipIdx_map_snd 0 c.instructions, liveLabels, if_neg hlive,
          Changeset.labelled, List.map_map, List.map_map]
        rfl
      rw [hsame, ranges_modify_new hev, positions_concat, ← hlabels]
      simp [Range.positions]
    · rw [hsame, ranges_modify_new hev]
      refine List.forall_mem_append.2 ⟨fun e he => ?_,
        List.forall_mem_singleton.2 (.inr rfl)⟩
      exact .inl (hev e he)

end Adding

/-- A sequence of changesets in the order of their keys. -/
theorem addAll_adding {scan : ChangesetIndex}
    {added : List (Label × Instr)}
    (hkeys : cs.Pairwise fun a b => a.key.lt b.key = true)
    (h : ∃ next, Adding scan idx added next)
    (hcs : ∀ c ∈ cs, Adding scan idx added (c.key, 0)
      ∧ (∀ e ∈ idx.everything, e.1.lt c.key = true)
      ∧ ∀ i ∈ c.live, isDestructive i = false ∧ Connected scan i) :
    ∃ idx', cs.foldlM ChangesetIndex.addChangeset idx = .ok idx'
      ∧ (∃ next, Adding scan idx'
          (added ++ liveItems (cs.flatMap Changeset.labelled)) next)
      ∧ idx'.everything.positions
        = idx.everything.positions ++ cs.flatMap liveLabels := by
  induction cs generalizing idx added with
  | nil => exact ⟨idx, rfl, by simpa [liveItems] using h, by simp⟩
  | cons c cs ih =>
    obtain ⟨hlt, hkeys⟩ := List.pairwise_cons.1 hkeys
    obtain ⟨hadd, hev, hc⟩ := hcs c List.mem_cons_self
    obtain ⟨idx1, hok1, hadd1, hpos1, hev1⟩ := hadd.addChangeset hev hc
    have hnext : ∀ d ∈ cs, Adding scan idx1 (added ++ liveItems c.labelled)
          (d.key, 0)
        ∧ (∀ e ∈ idx1.everything, e.1.lt d.key = true)
        ∧ ∀ i ∈ d.live, isDestructive i = false ∧ Connected scan i := by
      intro d hd
      refine ⟨hadd1.nextKey (hlt d hd), fun e he => ?_,
        (hcs d (List.mem_cons_of_mem _ hd)).2.2⟩
      rcases hev1 e he with h | h
      · exact Key.lt_trans h (hlt d hd)
      · exact h ▸ hlt d hd
    obtain ⟨idx', hok, hadd', hpos⟩ := ih hkeys ⟨_, hadd1⟩ hnext
    refine ⟨idx', ?_, by simpa [liveItems] using hadd', ?_⟩
    · rw [List.foldlM_cons, hok1]
      exact hok
    · rw [hpos, hpos1, List.flatMap_cons, List.append_assoc]

/-- What the index of a merge knows: every instruction is connected, and
a group holds the positions of the incoming instructions recorded in it,
in order. -/
structure Indexed (ours theirs : List Changeset) (idx : ChangesetIndex) :
    Prop where
  intact : idx.containsDestructiveSchemaChanges = false
  connected : ∀ c ∈ ours, ∀ i ∈ c.live, Connected idx i
  alive : ∀ x g, idx.instructions x = some g → ∃ cg, idx.groups g = some cg
  positions : ∀ g cg, idx.groups g = some cg → cg.ranges.positions
      = ((liveItems (theirs.flatMap Changeset.labelled)).filter fun p =>
          homeGroup idx p.2 = some g).map Prod.fst
  everything : idx.everything.positions = theirs.flatMap liveLabels

/-- Sequences of changesets without `EraseTable` and `EraseColumn`. -/
def NotDestructive (cs : List Changeset) : Prop :=
  ∀ c ∈ cs, ∀ i ∈ c.live, isDestructive i = false

/-- Incoming changesets in the order of version and sequence. -/
def KeysIncrease (cs : List Changeset) : Prop :=
  cs.Pairwise fun a b => a.key.lt b.key = true

theorem buildIndex_indexed (hours : NotDestructive ours)
    (htheirs : NotDestructive theirs) (hkeys : KeysIncrease theirs) :
    ∃ idx, buildIndex ours theirs = .ok idx ∧ Indexed ours theirs idx := by
  obtain ⟨idx1, hok1, hgrows1, hconn1⟩ := scanAll_grows scanning_empty htheirs
  obtain ⟨idx2, hok2, hgrows2, hconn2⟩ :=
    scanAll_grows hgrows1.scanning hours
  have hscan := hgrows2.scanning
  obtain ⟨idx, hok, ⟨next, hadd⟩, hpos⟩ := addAll_adding hkeys
    ⟨(⟨0, 0⟩, 0), hscan.adding _⟩ fun c hc =>
      ⟨hscan.adding _, by simp [hscan.noPositions], fun i hi =>
        ⟨htheirs c hc i hi, hgrows2.connected (hconn1 c hc i hi)⟩⟩
  rw [List.nil_append] at hadd
  have hhome : ∀ i, homeGroup idx i = homeGroup idx2 i := by
    intro i
    rw [homeGroup, homeGroup, hadd.instructions]
  refine ⟨idx, ?_, hadd.intact, ?_, ?_, ?_, ?_⟩
  · simp only [buildIndex, hok1, hok2, ok_bind]
    exact hok
  · intro c hc i hi
    have := hconn2 c hc i hi
    unfold Connected Joined at this ⊢
    rwa [hadd.instructions]
  · intro x g hx
    rw [hadd.instructions] at hx
    obtain ⟨cg, hcg, -⟩ := (hscan.owns x g).1 hx
    exact Option.isSome_iff_exists.1 (by rw [hadd.alive, hcg]; rfl)
  · intro g cg hcg
    simp only [hhome]
    exact hadd.positions g cg hcg
  · simpa [hscan.noPositions, Ranges.positions] using hpos

/-- The positions chosen for an instruction leave out only incoming
instructions on other objects. -/
def Covers (items : List (Label × Instr)) (l : Instr)
    (positions : List Label) : Prop :=
  ∀ p ∈ items, p.1 ∉ positions →
    ∃ ref, instrObject l = some ref ∧ instrObject p.2 ≠ some ref

theorem liveItems_sublist (items : List (Label × Option Instr)) :
    ((liveItems items).map Prod.fst).Sublist (items.map Prod.fst) := by
  induction items with
  | nil => exact List.Sublist.refl _
  | cons p items ih =>
    obtain ⟨label, i⟩ := p
    cases i with
    | none => exact ih.cons label
    | some i => exact ih.cons_cons label

theorem mem_liveLabels (h : p ∈ liveItems c.labelled) :
    p.1 ∈ liveLabels c := by
  obtain ⟨⟨label, o⟩, hq, hp⟩ := List.mem_filterMap.1 h
  obtain ⟨i, rfl, rfl⟩ := Option.map_eq_some_iff.1 hp
  have hlive : c.live.isEmpty = false := by
    obtain ⟨⟨o', n⟩, hn, heq⟩ := List.mem_map.1 hq
    cases heq
    have hmem : i ∈ c.live :=
      List.reduceOption_mem_iff.2 (List.fst_mem_of_mem_zipIdx hn)
    cases hl : c.live with
    | nil => simp [hl] at hmem
    | cons j js => rfl
  simp only [liveLabels, hlive, Bool.false_eq_true, if_false]
  exact List.mem_map.2 ⟨_, hq, rfl⟩

theorem mem_liveItems_flatMap :
    p ∈ liveItems (cs.flatMap Changeset.labelled)
      ↔ ∃ c ∈ cs, p ∈ liveItems c.labelled := by
  simp only [liveItems, List.filterMap_flatMap, List.mem_flatMap]

theorem liveLabels_sublist (cs : List Changeset) :
    (cs.flatMap liveLabels).Sublist
      (cs.flatMap fun c => c.labelled.map Prod.fst) := by
  induction cs with
  | nil => exact List.Sublist.refl _
  | cons c cs ih =>
    rw [List.flatMap_cons, List.flatMap_cons]
    refine List.Sublist.append ?_ ih
    unfold liveLabels
    split
    · exact List.nil_sublist _
    · exact List.Sublist.refl _

/-- The group of an instruction on an object is the object's. -/
theorem homeGroup_of_instrObject (hi : instrObject i = some ref) :
    homeGroup idx i = idx.instructions (.object ref) := by
  have hd : isDestructive i = false := by
    cases i <;> first | rfl | cases hi
  obtain ⟨x, hx, hobj⟩ := instrSubjects_cases hd
  rw [← hobj ref hi]
  rcases hx with hx | ⟨y, hx⟩ <;> simp [homeGroup, hx]

/-- The ranges of a connected instruction on an object are those of its
group. -/
theorem conflictRanges_object {l : Instr} (hl : instrObject l = some ref)
    (hconn : Connected idx l) :
    idx.conflictRanges l = .ok (idx.modificationsForObject ref) := by
  have hs : isSchemaChange l = false := by
    cases l <;> first | rfl | cases hl
  rw [conflictRanges, if_neg (by simp [hs])]
  cases l with
  | createObject t k =>
    cases hl
    rfl
  | eraseObject t k =>
    cases hl
    rfl
  | path p =>
    cases hl
    rcases objectIds_path p with h | ⟨b, h⟩
    · simp [h]
    · obtain ⟨g, hx, hy⟩ := hconn (.object (objectRef p.table p.object))
        (by simp [instrSubjects, h]) (.object b) (by simp [instrSubjects, h])
      simp [h, hx, hy]
  | _ => cases hl

/-- The index covers every local instruction, by positions in order. -/
theorem Indexed.covers (h : Indexed ours theirs idx) {l : Instr}
    (hc : c ∈ ours) (hl : l ∈ c.live) :
    ∃ positions, Ranges.positions <$> idx.conflictRanges l = .ok positions
      ∧ positions.Sublist (theirs.flatMap fun c => c.labelled.map Prod.fst)
      ∧ Covers (liveItems (theirs.flatMap Changeset.labelled)) l positions := by
  cases hobj : instrObject l with
  | none =>
    have hs : isSchemaChange l = true := by
      cases l <;> first | rfl | cases hobj
    refine ⟨_, by rw [conflictRanges, if_pos hs, map_ok], ?_, ?_⟩
    · rw [h.everything]
      exact liveLabels_sublist theirs
    · -- Everything covers every instruction.
      intro p hp hnot
      obtain ⟨d, hd, hpd⟩ := mem_liveItems_flatMap.1 hp
      rw [h.everything] at hnot
      exact absurd (List.mem_flatMap.2 ⟨d, hd, mem_liveLabels hpd⟩) hnot
  | some ref =>
    have hconn := h.connected c hc l hl
    obtain ⟨x, hx, hxobj⟩ := instrSubjects_cases (i := l)
      (by cases l <;> first | rfl | cases hobj)
    obtain rfl := hxobj ref hobj
    have hmem : Subject.object ref ∈ instrSubjects l := by
      rcases hx with hx | ⟨y, hx⟩ <;> simp [hx]
    obtain ⟨g, hg, -⟩ := hconn _ hmem _ hmem
    obtain ⟨cg, hcg⟩ := h.alive _ g hg
    have hranges : idx.modificationsForObject ref = cg.ranges := by
      simp [modificationsForObject, h.intact, hg, hcg]
    refine ⟨_, by rw [conflictRanges_object hobj hconn, hranges,
      map_ok], ?_, ?_⟩
    · rw [h.positions g cg hcg, ← List.map_flatMap]
      exact (List.filter_sublist.map _).trans (liveItems_sublist _)
    · intro p hp hnot
      refine ⟨ref, hobj, fun hpref => hnot ?_⟩
      rw [h.positions g cg hcg]
      refine List.mem_map_of_mem (List.mem_filter.2 ⟨hp, ?_⟩)
      simp [homeGroup_of_instrObject hpref, hg]

end BarqSync
