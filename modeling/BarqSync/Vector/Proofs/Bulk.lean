/-
Bounded distances change no decision of the bulk builder.

# The kernel

The sum of the lanes is the sum of the terms so far. These only grow, so a
sum that has reached the bound is a reason to stop (`sq8Loop_spec`).

# The searches

A bounded distance that is below its bound is exact, and one that is not
says that the exact one is not either (`Truncates`). Each search compares
a distance only to the bound that it asked for it with, so it does not see
the difference: its steps are equal, and with them the whole search.

# The end

A descent comes closer in each round but the last. The beam search is the
one of the persisted graph, with its links visited in two loops and all
elements admitted (`bulkExpand_eq`).
-/
import BarqSync.Vector.Bulk
import BarqSync.Vector.Proofs.Search
import Mathlib.Algebra.BigOperators.Group.List.Basic
import Mathlib.Algebra.Order.BigOperators.Group.List

namespace BarqSync.Vector

variable {lanes scl2 terms : List ℚ} {width : ℕ}

-- ===== the kernel

theorem horizontal_eq (lanes : List ℚ) : horizontal lanes = lanes.sum :=
  List.sum_eq_foldl.symm

theorem foldl_add (terms : List ℚ) (sum : ℚ) :
    terms.foldl (· + ·) sum = sum + terms.sum := by
  induction terms generalizing sum with
  | nil => simp
  | cons t terms ih => rw [List.foldl_cons, ih, List.sum_cons, add_assoc]

/-- The lanes take up the terms, one for each lane in a step. -/
theorem accumulate_spec (steps : ℕ) (hlanes : lanes.length = width)
    (hterms : width * steps ≤ terms.length) :
    (accumulate width steps lanes terms).length = width
      ∧ (accumulate width steps lanes terms).sum
        = lanes.sum + (terms.take (width * steps)).sum := by
  induction steps generalizing lanes terms with
  | zero => simp [accumulate, hlanes]
  | succ steps ih =>
    rw [Nat.mul_succ] at hterms
    have htake : (terms.take width).length = width :=
      List.length_take_of_le (by omega)
    have hlength : (List.zipWith (· + ·) lanes
        (terms.take width)).length = width := by
      rw [List.length_zipWith, hlanes, htake, Nat.min_self]
    have hdrop : width * steps ≤ (terms.drop width).length := by
      rw [List.length_drop]
      omega
    obtain ⟨hlen, hsum⟩ := ih hlength hdrop
    refine ⟨hlen, hsum.trans ?_⟩
    rw [← List.sum_add_sum_eq_sum_zipWith_of_length_eq _ _
        (hlanes.trans htake.symm), add_assoc, Nat.mul_succ,
      Nat.add_comm, List.take_add, List.sum_append]

/-- A result below the bound is the sum, and one that is not says that the
sum is not. -/
theorem sq8Loop_spec (hwidth : width ∣ 32) (bound : WithTop ℚ)
    (hlanes : lanes.length = width) (hterms : ∀ t ∈ terms, 0 ≤ t) :
    ((sq8Loop width bound lanes terms : ℚ) < bound
        → sq8Loop width bound lanes terms = lanes.sum + terms.sum)
      ∧ (bound ≤ (sq8Loop width bound lanes terms : ℚ)
        → bound ≤ (lanes.sum + terms.sum : ℚ)) := by
  have hblock : width * (32 / width) = 32 := Nat.mul_div_cancel' hwidth
  fun_induction sq8Loop width bound lanes terms with
  | case1 lanes terms hlong lanes' hstop =>
    have hsum := (accumulate_spec (32 / width) hlanes
      (hblock ▸ hlong.le)).2
    refine ⟨fun hlt => absurd hlt (not_lt.2 hstop), fun hle => ?_⟩
    refine hle.trans (WithTop.coe_le_coe.2 ?_)
    rw [horizontal_eq, hsum, hblock, ← List.sum_take_add_sum_drop terms 32,
      ← add_assoc]
    refine le_add_of_nonneg_right (List.sum_nonneg fun t ht => ?_)
    exact hterms t (List.mem_of_mem_drop ht)
  | case2 lanes terms hlong lanes' hgo ih =>
    obtain ⟨hlength, hsum⟩ := accumulate_spec (32 / width) hlanes
      (hblock ▸ hlong.le)
    have hwhole : lanes'.sum + (terms.drop 32).sum
        = lanes.sum + terms.sum := by
      rw [hsum, hblock, add_assoc, List.sum_take_add_sum_drop]
    rw [← hwhole]
    exact ih hlength fun t ht => hterms t (List.mem_of_mem_drop ht)
  | case3 lanes terms hshort steps sum =>
    have hsum := (accumulate_spec steps hlanes
      (Nat.mul_div_le terms.length width)).2
    have hwhole : (terms.drop (width * steps)).foldl (· + ·) sum
        = lanes.sum + terms.sum := by
      rw [foldl_add, show sum = _ from horizontal_eq _, hsum, add_assoc,
        List.sum_take_add_sum_drop]
    rw [hwhole]
    exact ⟨fun _ => rfl, fun h => h⟩

theorem sq8Terms_nonneg {a b : List (BitVec 8)}
    (hscl : ∀ scl ∈ scl2, 0 ≤ scl) : ∀ t ∈ sq8Terms a b scl2, 0 ≤ t := by
  intro t ht
  unfold sq8Terms at ht
  obtain ⟨i, hi, heq⟩ := List.mem_iff_getElem.1 ht
  have hlt : i < scl2.length := by
    rw [List.length_zipWith] at hi
    omega
  rw [← heq, List.getElem_zipWith]
  unfold sq8Term
  dsimp only
  rw [mul_assoc]
  exact mul_nonneg (hscl _ (List.getElem_mem hlt)) (mul_self_nonneg _)

/-- The exact distance of two vectors of codes. -/
def exactL2 (a b : List (BitVec 8)) (scl2 : List ℚ) : ℚ :=
  (sq8Terms a b scl2).sum

theorem sq8L2SqCodes_spec (simd : Simd) (a b : List (BitVec 8))
    (hscl : ∀ scl ∈ scl2, 0 ≤ scl) (bound : WithTop ℚ) :
    ((sq8L2SqCodes simd a b scl2 bound : ℚ) < bound
        → sq8L2SqCodes simd a b scl2 bound = exactL2 a b scl2)
      ∧ (bound ≤ (sq8L2SqCodes simd a b scl2 bound : ℚ)
        → bound ≤ (exactL2 a b scl2 : ℚ)) := by
  have hwidth : simd.lanes ∣ 32 := by
    cases simd <;> decide
  have hlanes : (List.replicate simd.lanes (0 : ℚ)).length = simd.lanes :=
    List.length_replicate
  have hspec := sq8Loop_spec hwidth bound hlanes
    (sq8Terms_nonneg (a := a) (b := b) hscl)
  rwa [List.sum_replicate, nsmul_zero, zero_add] at hspec

-- ===== truncation

section Searches

variable {D : Type*} [LinearOrder D]

/-- A distance that is below its bound is exact, and one that is not says
that the exact one is not. -/
def Truncates (distTo : BoundedDist D) (dist : ℕ → D) : Prop :=
  ∀ n bound, ((distTo n bound : WithTop D) < bound → distTo n bound = dist n)
    ∧ (bound ≤ (distTo n bound : WithTop D) → bound ≤ (dist n : WithTop D))

/-- The distance is not bounded. -/
def exactly (dist : ℕ → D) : BoundedDist D := fun n _ => dist n

variable {g : Links} {distTo : BoundedDist D} {dist : ℕ → D}
  {ef layer : ℕ} {heaps : Heaps D}

section

variable (h : Truncates distTo dist)

include h

theorem Truncates.top (n : ℕ) : distTo n ⊤ = dist n :=
  (h n ⊤).1 (WithTop.coe_lt_top _)

/-- A comparison to the bound comes out as for the exact distance. -/
theorem Truncates.lt_iff (n : ℕ) (w : D) :
    distTo n w < w ↔ dist n < w := by
  obtain ⟨hbelow, habove⟩ := h n w
  constructor
  · intro hlt
    rwa [← hbelow (WithTop.coe_lt_coe.2 hlt)]
  · intro hlt
    by_contra hge
    have hle := habove (WithTop.coe_le_coe.2 (not_lt.1 hge))
    exact absurd hlt (not_lt.2 (WithTop.coe_le_coe.1 hle))

theorem Truncates.eq_of_lt {n : ℕ} {w : D}
    (hlt : dist n < w) : distTo n w = dist n :=
  (h n w).1 (WithTop.coe_lt_coe.2 ((h.lt_iff n w).2 hlt))

-- ----- the descent

theorem Truncates.greedyVisit :
    greedyVisit distTo = greedyVisit (exactly dist) := by
  funext s n
  unfold BarqSync.Vector.greedyVisit
  by_cases hlt : dist n < s.best
  · rw [if_pos ((h.lt_iff n s.best).2 hlt), h.eq_of_lt hlt]
    exact (if_pos hlt).symm
  · rw [if_neg fun hlt' => hlt ((h.lt_iff n s.best).1 hlt')]
    exact (if_neg hlt).symm

theorem Truncates.greedy (fuel curr : ℕ) : greedy g distTo layer fuel curr
      = greedy g (exactly dist) layer fuel curr := by
  have hloop : ∀ fuel best curr, greedyLoop g distTo layer fuel best curr
      = greedyLoop g (exactly dist) layer fuel best curr := by
    intro fuel
    induction fuel with
    | zero => exact fun _ _ => rfl
    | succ fuel ih =>
      intro best curr
      unfold greedyLoop
      rw [h.greedyVisit]
      simp only [ih]
  unfold BarqSync.Vector.greedy
  rw [hloop, h.top]
  rfl

end

/-- A round of the descent: it is at the best element, which is a closer
one if anything has changed. -/
theorem foldl_greedyVisit (nbrs : List ℕ) {s : Greedy D}
    (hs : s.best = dist s.curr) :
    let t := nbrs.foldl (greedyVisit (exactly dist)) s
    t.best = dist t.curr ∧ t.best ≤ s.best
      ∧ (t.curr = s.curr ∨ t.curr ∈ nbrs)
      ∧ (t.changed = true → s.changed = true ∨ t.best < s.best) := by
  induction nbrs generalizing s with
  | nil => exact ⟨hs, le_refl _, .inl rfl, .inl⟩
  | cons n nbrs ih =>
    rw [List.foldl_cons]
    by_cases hlt : dist n < s.best
    · have hvisit : greedyVisit (exactly dist) s n
          = ⟨dist n, n, true⟩ := if_pos hlt
      rw [hvisit]
      obtain ⟨hbest, hle, hcurr, -⟩ := ih (s := ⟨dist n, n, true⟩) rfl
      refine ⟨hbest, hle.trans hlt.le, .inr ?_,
        fun _ => .inr (hle.trans_lt hlt)⟩
      exact List.mem_cons.2 hcurr
    · have hvisit : greedyVisit (exactly dist) s n = s := if_neg hlt
      rw [hvisit]
      obtain ⟨hbest, hle, hcurr, hchanged⟩ := ih hs
      exact ⟨hbest, hle, hcurr.imp_right (List.mem_cons_of_mem n),
        hchanged⟩

/-- The elements that are closer than the best one become fewer. -/
theorem greedyLoop_isSome (hwf : g.WellFormed layer) {fuel curr : ℕ}
    (hcurr : g.OnLayer layer curr)
    (hfuel : ((Finset.range g.total).filter
      (dist · < dist curr)).card < fuel) :
    (greedyLoop g (exactly dist) layer fuel (dist curr) curr).isSome
      = true := by
  induction fuel generalizing curr with
  | zero => exact absurd hfuel (Nat.not_lt_zero _)
  | succ fuel ih =>
    obtain ⟨nbrs, hnbrs, hlayer⟩ := hwf curr hcurr
    unfold greedyLoop
    rw [hnbrs, Option.bind_some]
    obtain ⟨hbest, -, hnext, hcloser⟩ := foldl_greedyVisit nbrs
      (s := ⟨dist curr, curr, false⟩) rfl
    dsimp only at hbest hnext hcloser ⊢
    generalize nbrs.foldl _ _ = t at hbest hnext hcloser ⊢
    split
    · next hchanged =>
      have hlt := (hcloser hchanged).resolve_left Bool.false_ne_true
      have honLayer : g.OnLayer layer t.curr := by
        rcases hnext with heq | hmem
        · exact heq ▸ hcurr
        · exact hlayer _ hmem
      rw [hbest] at hlt ⊢
      refine ih honLayer (Nat.lt_of_lt_of_le (Finset.card_lt_card ?_)
        (Nat.le_of_lt_succ hfuel))
      refine Finset.ssubset_iff_of_subset ?_ |>.2 ⟨t.curr, ?_, ?_⟩
      · intro n hn
        rw [Finset.mem_filter] at hn ⊢
        exact ⟨hn.1, hn.2.trans hlt⟩
      · exact Finset.mem_filter.2 ⟨Finset.mem_range.2 honLayer.1, hlt⟩
      · intro hn
        exact lt_irrefl _ (Finset.mem_filter.1 hn).2
    · rfl

theorem greedy_isSome (hwf : g.WellFormed layer) {fuel curr : ℕ}
    (hcurr : g.OnLayer layer curr) (hfuel : g.total < fuel) :
    (greedy g (exactly dist) layer fuel curr).isSome = true := by
  refine greedyLoop_isSome hwf hcurr (Nat.lt_of_le_of_lt ?_ hfuel)
  exact (Finset.card_filter_le _ _).trans (Finset.card_range _).le

-- ----- the beam search

section

variable (h : Truncates distTo dist)

include h

/-- A bounded distance is used only if the exact one has a place. -/
theorem Truncates.bulkOffer :
    bulkOffer distTo ef = bulkOffer (exactly dist) ef := by
  funext heaps n
  show heaps.offer ef true (distTo n (beamBound ef heaps)) n
    = heaps.offer ef true (dist n) n
  unfold beamBound
  split
  · next hfull =>
    cases hworst : heaps.worst with
    | none =>
      show heaps.offer ef true (distTo n ⊤) n = _
      rw [h.top]
    | some w =>
      have hplace : ∀ d, heaps.hasPlace ef d = true ↔ d < w := by
        intro d
        rw [Heaps.hasPlace, decide_eq_true_eq, hworst,
          or_iff_right (Nat.not_lt.2 hfull)]
        simp
      show heaps.offer ef true (distTo n w) n = _
      by_cases hlt : dist n < w
      · rw [h.eq_of_lt hlt]
      · unfold Heaps.offer
        rw [if_neg fun hp => hlt ((h.lt_iff n w).1 ((hplace _).1 hp)),
          if_neg fun hp => hlt ((hplace _).1 hp)]
  · rw [h.top]

theorem Truncates.bulkExpand :
    bulkExpand g distTo ef layer = bulkExpand g (exactly dist) ef layer := by
  unfold BarqSync.Vector.bulkExpand
  rw [h.bulkOffer]

theorem Truncates.bulkStart :
    bulkStart g distTo = bulkStart g (exactly dist) := by
  funext entryPoint visited
  unfold BarqSync.Vector.bulkStart
  rw [h.top]
  rfl

theorem Truncates.bulkSearchLayer : bulkSearchLayer g distTo ef layer
      = bulkSearchLayer g (exactly dist) ef layer := by
  unfold BarqSync.Vector.bulkSearchLayer
  rw [h.bulkStart, h.bulkExpand]

end

/-- To collect the links first, and then to offer them, is to visit one
after the other. -/
theorem collect_then_offer (nbrs acc : List ℕ) (heaps : Heaps D)
    (visited : VisitedTags) :
    (nbrs.foldlM collectLink (acc, visited)).map
        (fun out => (⟨out.1.foldl (bulkOffer (exactly dist) ef) heaps,
          out.2⟩ : Beam D))
      = nbrs.foldlM (visitNeighbor dist (fun _ => true) ef)
        ⟨acc.foldl (bulkOffer (exactly dist) ef) heaps, visited⟩ := by
  induction nbrs generalizing acc visited with
  | nil => rfl
  | cons n nbrs ih =>
    rw [List.foldlM_cons, List.foldlM_cons]
    unfold visitNeighbor collectLink
    cases htest : visited.testAndSet n with
    | none => rfl
    | some out =>
      obtain ⟨seen, visited'⟩ := out
      cases seen with
      | true => exact ih acc visited'
      | false =>
        have hnext := ih (acc ++ [n]) visited'
        rw [List.foldl_append] at hnext
        exact hnext

theorem bulkExpand_eq : bulkExpand g (exactly dist) ef layer
      = expand g dist (fun _ => true) ef layer := by
  funext s c
  unfold bulkExpand expand
  congr 1
  funext nbrs
  exact collect_then_offer nbrs [] s.heaps s.visited

/-- The search with exact distances is the one of the persisted graph. -/
theorem bulkSearchLayer_eq : bulkSearchLayer g (exactly dist) ef layer
      = searchLayer g dist (fun _ => true) ef layer := by
  funext fuel entryPoint visited
  unfold bulkSearchLayer searchLayer
  rw [bulkExpand_eq]
  rfl

/-- The state after some rounds. -/
def afterRounds (expand : Beam D → Hit D → Option (Beam D)) :
    ℕ → Beam D → Option (Beam D)
  | 0, s => some s
  | k + 1, s =>
    match s.heaps.cands with
    | [] => none
    | c :: cands =>
      (expand { s with heaps := { s.heaps with cands := cands } } c).bind
        (afterRounds expand k)

/-- The distances in the heaps are exact. -/
def Heaps.Stored (dist : ℕ → D) (heaps : Heaps D) : Prop :=
  ∀ hit, hit ∈ heaps.results ∨ hit ∈ heaps.cands
    → hit.dist = dist hit.id

theorem Heaps.mem_of_mem_emplaced {hit new : Hit D}
    (h : hit ∈ heaps.emplaced ef new) :
    hit = new ∨ hit ∈ heaps.results := by
  refine (List.mem_orderedInsert (· ≥ ·)).1 ?_
  unfold Heaps.emplaced at h
  dsimp only at h
  split at h
  · exact List.mem_of_mem_tail h
  · exact h

theorem Heaps.Stored.offer (h : heaps.Stored dist) (n : ℕ) :
    (heaps.offer ef true (dist n) n).Stored dist := by
  unfold Heaps.offer
  split
  · intro hit hhit
    rcases hhit with hresult | hcand
    · rcases mem_of_mem_emplaced hresult with heq | hold
      · rw [heq]
        rfl
      · exact h hit (.inl hold)
    · rcases (List.mem_orderedInsert _).1 hcand with heq | hold
      · rw [heq]
        rfl
      · exact h hit (.inr hold)
  · exact h

theorem Heaps.Stored.foldl (h : heaps.Stored dist) (ns : List ℕ) :
    (ns.foldl (bulkOffer (exactly dist) ef) heaps).Stored dist := by
  induction ns generalizing heaps with
  | nil => exact h
  | cons n ns ih => exact ih (h.offer n)

theorem Heaps.Stored.afterRounds {k : ℕ} {s t : Beam D}
    (h : s.heaps.Stored dist)
    (hrounds : afterRounds (bulkExpand g (exactly dist) ef layer) k s
      = some t) : t.heaps.Stored dist := by
  induction k generalizing s with
  | zero =>
    cases hrounds
    exact h
  | succ k ih =>
    unfold BarqSync.Vector.afterRounds at hrounds
    cases hcands : s.heaps.cands with
    | nil =>
      rw [hcands] at hrounds
      cases hrounds
    | cons c cands =>
      rw [hcands] at hrounds
      obtain ⟨u, hexpand, hrest⟩ := Option.bind_eq_some_iff.1 hrounds
      obtain ⟨nbrs, -, hexpand⟩ := Option.bind_eq_some_iff.1 hexpand
      obtain ⟨out, -, heq⟩ := Option.map_eq_some_iff.1 hexpand
      refine ih ?_ hrest
      rw [← heq]
      refine Heaps.Stored.foldl (fun hit hhit => h hit ?_) out.1
      rw [hcands]
      exact hhit.imp_right (List.mem_cons_of_mem c)

-- ----- the selection

theorem selectNeighbors_eq {distTo : ℕ → BoundedDist D}
    {dist : ℕ → ℕ → D} (h : ∀ q, Truncates (distTo q) (dist q)) (m : ℕ)
    (cands : List (Hit D)) :
    selectNeighbors distTo m cands
      = selectNeighbors (fun q => exactly (dist q)) m cands := by
  have hloop : ∀ (cands : List (Hit D)) result,
      selectLoop distTo m cands result
        = selectLoop (fun q => exactly (dist q)) m cands result := by
    intro cands
    induction cands with
    | nil => exact fun _ => rfl
    | cons c rest ih =>
      intro result
      unfold selectLoop
      simp only [(h c.id).lt_iff, ih]
      rfl
  unfold selectNeighbors
  rw [hloop]

end Searches

-- ===== the builder

namespace BulkBuilder

variable {b : BulkBuilder}

/-- The distance that the builder asks for without a bound. -/
def exactDist (b : BulkBuilder) (q id : ℕ) : ℚ := b.distTo q id ⊤

theorem truncates (hscl : ∀ scl ∈ b.scl2, 0 ≤ scl) (q : ℕ) :
    Truncates (b.distTo q) (b.exactDist q) := by
  intro id bound
  unfold exactDist distTo
  split
  · have hexact := (sq8L2SqCodes_spec b.simd (b.codesOf q) (b.codesOf id)
      hscl ⊤).1 (WithTop.coe_lt_top _)
    rw [hexact]
    exact sq8L2SqCodes_spec b.simd _ _ hscl bound
  · exact ⟨fun _ => rfl, fun h => h⟩

/-- What bounds do not change. -/
structure Unbounded (b : BulkBuilder) : Prop where
  /-- The kernel, on any codes and in any variant. -/
  kernel : ∀ simd x y bound,
    ((sq8L2SqCodes simd x y b.scl2 bound : ℚ) < bound
        → sq8L2SqCodes simd x y b.scl2 bound = exactL2 x y b.scl2)
      ∧ (bound ≤ (sq8L2SqCodes simd x y b.scl2 bound : ℚ)
        → bound ≤ (exactL2 x y b.scl2 : ℚ))
  /-- Without a bound it is exact. -/
  exact : b.sq8L2 = true → ∀ q id,
    b.exactDist q id = exactL2 (b.codesOf q) (b.codesOf id) b.scl2
  greedy : ∀ q layer fuel curr, greedy b.links (b.distTo q) layer fuel curr
      = greedy b.links (exactly (b.exactDist q)) layer fuel curr
  greedy_returns : ∀ q layer fuel curr, b.links.WellFormed layer
    → b.links.OnLayer layer curr → b.links.total < fuel
    → (BarqSync.Vector.greedy b.links (b.distTo q) layer fuel curr).isSome
      = true
  search : ∀ q ef layer fuel entryPoint visited,
    bulkSearchLayer b.links (b.distTo q) ef layer fuel entryPoint visited
      = bulkSearchLayer b.links (exactly (b.exactDist q)) ef layer fuel
        entryPoint visited
  search_returns : ∀ q ef layer fuel entryPoint visited,
    b.links.WellFormed layer → b.links.OnLayer layer entryPoint → 1 ≤ ef
    → b.links.total < fuel
    → (bulkSearchLayer b.links (b.distTo q) ef layer fuel entryPoint
      visited).isSome = true
  /-- What the heaps store, after any number of rounds. -/
  heaps : ∀ q ef layer rounds entryPoint visited s t,
    bulkStart b.links (b.distTo q) entryPoint visited = some s
    → afterRounds (bulkExpand b.links (b.distTo q) ef layer) rounds s
      = some t
    → t.heaps.Stored (b.exactDist q)
  select : ∀ m cands, selectNeighbors b.distTo m cands
      = selectNeighbors (fun q => exactly (b.exactDist q)) m cands

/-- Bounds change nothing, if the squared scales are not negative. -/
theorem bounds_change_nothing (b : BulkBuilder)
    (hscl : ∀ scl ∈ b.scl2, 0 ≤ scl) : b.Unbounded where
  kernel simd x y bound := sq8L2SqCodes_spec simd x y hscl bound
  exact hsq8 q id := by
    unfold exactDist distTo
    rw [if_pos hsq8]
    exact (sq8L2SqCodes_spec b.simd _ _ hscl ⊤).1 (WithTop.coe_lt_top _)
  greedy q layer fuel curr := (truncates hscl q).greedy fuel curr
  greedy_returns q layer fuel curr hwf hcurr hfuel := by
    rw [(truncates hscl q).greedy]
    exact greedy_isSome hwf hcurr hfuel
  search q ef layer fuel entryPoint visited := by
    rw [(truncates hscl q).bulkSearchLayer]
  search_returns q ef layer fuel entryPoint visited hwf hentry hef hfuel := by
    rw [(truncates hscl q).bulkSearchLayer, bulkSearchLayer_eq]
    obtain ⟨s, heq, -⟩ := searchLayer_returns (b.exactDist q)
      (fun _ => true) hwf hentry hef hfuel visited
    rw [heq]
    rfl
  heaps q ef layer rounds entryPoint visited s t hstart hrounds := by
    rw [(truncates hscl q).bulkStart] at hstart
    rw [(truncates hscl q).bulkExpand] at hrounds
    refine Heaps.Stored.afterRounds ?_ hrounds
    obtain ⟨out, -, heq⟩ := Option.map_eq_some_iff.1 hstart
    rw [← heq]
    intro hit hhit
    have hmk : hit = .mk (b.exactDist q entryPoint) entryPoint := by
      rcases hhit with hin | hin <;> exact List.mem_singleton.1 hin
    rw [hmk]
    rfl
  select m cands := selectNeighbors_eq (fun q => truncates hscl q) m cands

/-- Two elements of 40 dimensions that are linked. -/
private def twoElements : BulkBuilder where
  simd := .sse
  links := ⟨1, 2, [0, 0], [1, 1, 0, 1, 0, 0], [0, 0], []⟩
  dim := 40
  codes := List.replicate 40 (-3) ++ List.replicate 40 5
  scl2 := List.replicate 40 (1 / 4)
  sq8L2 := true
  dist _ _ := 0

/-- The distance of the two is 640, and stops at a bound of 100. -/
theorem bounds_change_nothing_two :
    twoElements.distTo 0 1 100 = 512 ∧ twoElements.exactDist 0 1 = 640
      ∧ twoElements.Unbounded := by
  refine ⟨?_, ?_, bounds_change_nothing twoElements ?_⟩
  · decide +kernel
  · decide +kernel
  · decide +kernel

end BulkBuilder

end BarqSync.Vector
