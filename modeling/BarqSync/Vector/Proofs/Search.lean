/-
What the beam search returns.

# The heaps

`Kept` is about the heaps and the elements that were compared: the results
are admitted ones, and one that is not among them is no closer than the
worst of a full beam. An element that is offered keeps this
(`Kept.offer`).

# The graph

`Inv` adds what was explored. While the beam is not full, each visited
element that is no candidate any more has all its links visited, since
nothing was turned away. So a search that ends with places left has
visited everything that is reachable.

# The end

In each round a candidate goes, and each new one was not visited before:
the candidates and the elements not visited become fewer
(`Beam.remaining`).
-/
import BarqSync.Vector.Search
import Mathlib.Data.Set.Card
import Mathlib.Logic.Relation
import Mathlib.Tactic.IntervalCases

namespace BarqSync.Vector

-- ===== the tags

namespace VisitedTags

variable {v : VisitedTags}

def Visited (v : VisitedTags) (id : ℕ) : Prop :=
  v.tags[id]? = some v.epoch

instance (v : VisitedTags) : DecidablePred v.Visited :=
  fun id => inferInstanceAs (Decidable (v.tags[id]? = some v.epoch))

theorem length_resized (n : ℕ) : n ≤ (v.resized n).length := by
  rw [resized, List.length_append, List.length_replicate]
  omega

theorem length_start (n : ℕ) : n ≤ (v.start n).tags.length := by
  unfold start
  split
  · exact (length_resized n).trans (List.length_map _).ge
  · exact length_resized n

/-- Nothing is visited in a new epoch, also when the counter wraps. -/
theorem not_visited_start (n id : ℕ) : ¬ (v.start n).Visited id := by
  unfold start
  split
  · intro h
    obtain ⟨tag, -, htag⟩ := List.mem_map.1 (List.mem_of_getElem? h)
    exact absurd (show (0 : BitVec 32) = 1 from htag) (by decide)
  · next hwrap =>
    intro h
    have hlt := lt_epoch_add_one
      (v.resized_le_epoch n _ (List.mem_of_getElem? h)) hwrap
    exact Nat.lt_irrefl _ hlt

theorem testAndSet_spec {id : ℕ} (hid : id < v.tags.length) :
    ∃ seen v', v.testAndSet id = some (seen, v')
      ∧ (seen = true ↔ v.Visited id)
      ∧ v'.tags.length = v.tags.length
      ∧ ∀ j, v'.Visited j ↔ v.Visited j ∨ j = id := by
  have hget := List.getElem?_eq_getElem hid
  unfold testAndSet
  rw [hget, Option.map_some]
  by_cases htag : v.tags[id] = v.epoch
  · have hvisited : v.Visited id := hget.trans (congrArg some htag)
    rw [if_pos htag]
    refine ⟨true, v, rfl, iff_of_true rfl hvisited, rfl, fun j => ?_⟩
    refine ⟨.inl, fun h => h.elim (fun h => h) fun heq => ?_⟩
    exact heq ▸ hvisited
  · rw [if_neg htag]
    refine ⟨false, _, rfl, ?_, List.length_set, fun j => ?_⟩
    · refine iff_of_false Bool.false_ne_true fun h => ?_
      exact htag (Option.some.inj (hget.symm.trans h))
    · show (v.tags.set id v.epoch)[j]? = some v.epoch ↔ _
      by_cases hj : j = id
      · subst hj
        exact iff_of_true (List.getElem?_set_self hid) (.inr rfl)
      · rw [List.getElem?_set_ne (Ne.symm hj), or_iff_left hj]
        rfl

end VisitedTags

-- ===== the heaps

section Heaps

variable {D : Type*} [LinearOrder D]

theorem Hit.dist_le {a b : Hit D} (h : a ≤ b) : a.dist ≤ b.dist := by
  rcases Prod.Lex.le_iff.1 h with hlt | hle
  · exact hlt.le
  · exact hle.1.le

namespace Heaps

variable {dist : ℕ → D} {admits : ℕ → Bool} {ef : ℕ} {seen : ℕ → Prop}
  {heaps : Heaps D} {hit : Hit D}

/-- The heaps after some elements were compared. -/
structure Kept (dist : ℕ → D) (admits : ℕ → Bool) (ef : ℕ)
    (seen : ℕ → Prop) (heaps : Heaps D) : Prop where
  ordered : heaps.results.Pairwise (· ≥ ·)
  nodup : (heaps.results.map Hit.id).Nodup
  length : heaps.results.length ≤ ef
  results : ∀ hit ∈ heaps.results,
    seen hit.id ∧ admits hit.id = true ∧ hit.dist = dist hit.id
  cands : ∀ hit ∈ heaps.cands, seen hit.id ∧ hit.dist = dist hit.id
  missing : ∀ n, seen n → admits n = true → n ∉ heaps.results.map Hit.id
    → ef ≤ heaps.results.length ∧ ∀ hit ∈ heaps.results, hit.dist ≤ dist n

theorem Kept.congr {seen' : ℕ → Prop}
    (h : Kept dist admits ef seen heaps) (hiff : ∀ m, seen' m ↔ seen m) :
    Kept dist admits ef seen' heaps := by
  have heq : seen' = seen := funext fun m => propext (hiff m)
  rwa [heq]

/-- The first of the results is the worst. -/
theorem Kept.le_worst (h : Kept dist admits ef seen heaps)
    (hhit : hit ∈ heaps.results) :
    ∃ w ∈ heaps.worst, hit.dist ≤ w := by
  have hordered := h.ordered
  unfold worst
  cases hresults : heaps.results with
  | nil =>
    rw [hresults] at hhit
    cases hhit
  | cons first rest =>
    rw [hresults] at hhit hordered
    refine ⟨first.dist, rfl, ?_⟩
    rcases List.mem_cons.1 hhit with heq | hmem
    · rw [heq]
    · exact Hit.dist_le (List.rel_of_pairwise_cons hordered hmem)

/-- The results after one more, if there was room for it. -/
theorem emplaced_of_lt (hlt : heaps.results.length < ef) :
    heaps.emplaced ef hit
      = heaps.results.orderedInsert (· ≥ ·) hit := by
  unfold emplaced
  rw [if_neg]
  rw [List.orderedInsert_length]
  omega

/-- Otherwise one is popped. -/
theorem emplaced_of_ge (hit : Hit D) (hge : ef ≤ heaps.results.length) :
    ∃ popped, heaps.results.orderedInsert (· ≥ ·) hit
      = popped :: heaps.emplaced ef hit := by
  have hlength := heaps.results.orderedInsert_length (· ≥ ·) hit
  unfold emplaced
  dsimp only
  rw [if_pos (by omega)]
  exact ⟨_, (List.cons_head_tail (List.ne_nil_of_length_pos
    (by omega))).symm⟩

section

variable (h : Kept dist admits ef seen heaps)

include h

/-- An element for which there is no place is no closer than any
result. -/
theorem Kept.le_of_not_hasPlace {d : D}
    (hplace : ¬ heaps.hasPlace ef d = true) :
    ef ≤ heaps.results.length ∧ ∀ hit ∈ heaps.results, hit.dist ≤ d := by
  rw [hasPlace, decide_eq_true_eq, not_or] at hplace
  refine ⟨Nat.not_lt.1 hplace.1, fun hit hhit => ?_⟩
  obtain ⟨w, hw, hle⟩ := h.le_worst hhit
  by_contra hlt
  exact hplace.2 ⟨w, hw, (not_le.1 hlt).trans_le hle⟩

theorem Kept.cands_orderedInsert (n : ℕ) :
    ∀ hit ∈ heaps.cands.orderedInsert (· ≤ ·) (.mk (dist n) n),
      (seen hit.id ∨ hit.id = n) ∧ hit.dist = dist hit.id := by
  intro hit hhit
  rcases (List.mem_orderedInsert _).1 hhit with heq | hmem
  · subst heq
    exact ⟨.inr rfl, rfl⟩
  · exact ⟨.inl (h.cands hit hmem).1, (h.cands hit hmem).2⟩

/-- What the results are after an admitted element that there is a place
for. -/
theorem Kept.emplaced {n : ℕ} (hn : ¬ seen n) (hadmits : admits n = true)
    (hplace : heaps.hasPlace ef (dist n) = true) :
    let results := heaps.emplaced ef (.mk (dist n) n)
    results.Pairwise (· ≥ ·)
      ∧ (results.map Hit.id).Nodup
      ∧ results.length ≤ ef
      ∧ (∀ hit ∈ results, (seen hit.id ∨ hit.id = n)
        ∧ admits hit.id = true ∧ hit.dist = dist hit.id)
      ∧ ∀ m, seen m ∨ m = n → admits m = true → m ∉ results.map Hit.id
        → ef ≤ results.length ∧ ∀ hit ∈ results, hit.dist ≤ dist m := by
  intro results
  have hmem : ∀ hit, hit ∈ heaps.results.orderedInsert (· ≥ ·)
      (.mk (dist n) n) ↔ hit = .mk (dist n) n ∨ hit ∈ heaps.results :=
    fun hit => List.mem_orderedInsert _
  have hordered := List.Pairwise.orderedInsert (Hit.mk (dist n) n)
    heaps.results h.ordered
  have hnodup : ((heaps.results.orderedInsert (· ≥ ·)
      (.mk (dist n) n)).map Hit.id).Nodup := by
    rw [((List.perm_orderedInsert _ _ _).map Hit.id).nodup_iff,
      List.map_cons, List.nodup_cons]
    refine ⟨fun hin => ?_, h.nodup⟩
    obtain ⟨hit, hhit, heq⟩ := List.mem_map.1 hin
    have hid : hit.id = n := heq
    exact hn (hid ▸ (h.results hit hhit).1)
  have hresults : ∀ hit ∈ heaps.results.orderedInsert (· ≥ ·)
      (.mk (dist n) n), (seen hit.id ∨ hit.id = n)
        ∧ admits hit.id = true ∧ hit.dist = dist hit.id := by
    intro hit hhit
    rcases (hmem hit).1 hhit with heq | hold
    · subst heq
      exact ⟨.inr rfl, hadmits, rfl⟩
    · exact ⟨.inl (h.results hit hold).1, (h.results hit hold).2⟩
  have hlength := heaps.results.orderedInsert_length (· ≥ ·)
    (Hit.mk (dist n) n)
  -- an element that is in neither was missing before
  have hmissing : ∀ m, seen m ∨ m = n → admits m = true
      → m ∉ (heaps.results.orderedInsert (· ≥ ·)
        (.mk (dist n) n)).map Hit.id
      → ef ≤ heaps.results.length
        ∧ ∀ hit ∈ heaps.results, hit.dist ≤ dist m := by
    intro m hm hadmits' hnot
    have hold : m ∉ heaps.results.map Hit.id := by
      intro hin
      obtain ⟨hit, hhit, heq⟩ := List.mem_map.1 hin
      exact hnot (List.mem_map.2 ⟨hit, (hmem hit).2 (.inr hhit), heq⟩)
    rcases hm with hseen | heq
    · exact h.missing m hseen hadmits' hold
    · subst heq
      exact absurd (List.mem_map.2 ⟨_, (hmem _).2 (.inl rfl), rfl⟩) hnot
  rcases Nat.lt_or_ge heaps.results.length ef with hlt | hge
  · have heq : results = _ := emplaced_of_lt hlt
    rw [heq]
    refine ⟨hordered, hnodup, by omega, hresults, fun m hm ha hnot => ?_⟩
    exact absurd (hmissing m hm ha hnot).1 (Nat.not_le.2 hlt)
  · obtain ⟨popped, heq⟩ : ∃ popped, _ = popped :: results :=
      emplaced_of_ge _ hge
    rw [heq] at hmem hordered hnodup hresults hlength hmissing
    rw [List.length_cons] at hlength
    have hfull := h.length
    refine ⟨hordered.of_cons, (List.nodup_cons.1 hnodup).2, by omega,
      fun hit hhit => hresults hit (List.mem_cons_of_mem _ hhit),
      fun m hm ha hnot => ⟨by omega, fun hit hhit => ?_⟩⟩
    by_cases hpopped : m = popped.id
    · rw [hpopped, ← (hresults popped List.mem_cons_self).2.2]
      exact Hit.dist_le (List.rel_of_pairwise_cons hordered hhit)
    · have hgone : m ∉ (popped :: results).map Hit.id := by
        rw [List.map_cons, List.mem_cons, not_or]
        exact ⟨hpopped, hnot⟩
      have hfar := (hmissing m hm ha hgone).2
      rcases (hmem hit).1 (List.mem_cons_of_mem _ hhit) with hnew | hold
      · rw [hasPlace, decide_eq_true_eq] at hplace
        obtain ⟨w, hw, hcloser⟩ := hplace.resolve_left (Nat.not_lt.2 hge)
        obtain ⟨first, hfirst, hwd⟩ := Option.map_eq_some_iff.1 hw
        have hworst := hfar first (List.mem_of_mem_head? hfirst)
        subst hnew hwd
        exact hcloser.le.trans hworst
      · exact hfar hit hold

theorem Kept.offer {n : ℕ} (hn : ¬ seen n) :
    Kept dist admits ef (fun m => seen m ∨ m = n)
      (heaps.offer ef (admits n) (dist n) n) := by
  unfold Heaps.offer
  by_cases hplace : heaps.hasPlace ef (dist n) = true
  · rw [if_pos hplace]
    have hcands := h.cands_orderedInsert n
    by_cases hadmits : admits n = true
    · rw [if_pos hadmits]
      obtain ⟨hordered, hnodup, hlength, hresults, hmissing⟩ :=
        h.emplaced hn hadmits hplace
      exact ⟨hordered, hnodup, hlength, hresults, hcands, hmissing⟩
    · rw [if_neg hadmits]
      refine ⟨h.ordered, h.nodup, h.length, fun hit hhit => ?_, hcands,
        fun m hm hadmits' hnot => ?_⟩
      · exact ⟨.inl (h.results hit hhit).1, (h.results hit hhit).2⟩
      · rcases hm with hseen | heq
        · exact h.missing m hseen hadmits' hnot
        · exact absurd (heq ▸ hadmits') hadmits
  · rw [if_neg hplace]
    refine ⟨h.ordered, h.nodup, h.length, fun hit hhit => ?_,
      fun hit hhit => ?_, fun m hm hadmits hnot => ?_⟩
    · exact ⟨.inl (h.results hit hhit).1, (h.results hit hhit).2⟩
    · exact ⟨.inl (h.cands hit hhit).1, (h.cands hit hhit).2⟩
    · rcases hm with hseen | heq
      · exact h.missing m hseen hadmits hnot
      · subst heq
        exact h.le_of_not_hasPlace hplace

end

/-- Being offered an element, the beam does not become smaller, and no
candidate is lost. -/
theorem offer_grows (heaps : Heaps D) (ef : ℕ) (admitted : Bool) (d : D)
    (n : ℕ) (hfull : ef ≤ heaps.results.length) :
    ef ≤ (heaps.offer ef admitted d n).results.length := by
  unfold offer
  split
  · show ef ≤ (if admitted = true then _ else _ : List (Hit D)).length
    split
    · obtain ⟨popped, heq⟩ := emplaced_of_ge (.mk d n) hfull
      have hlength := congrArg List.length heq
      rw [List.orderedInsert_length, List.length_cons] at hlength
      omega
    · exact hfull
  · exact hfull

/-- The candidates after an element was offered. It is one of them, if the
beam was not full. -/
theorem mem_cands_offer (heaps : Heaps D) (ef : ℕ) (admitted : Bool)
    (d : D) (n : ℕ) :
    (∀ hit ∈ heaps.cands, hit ∈ (heaps.offer ef admitted d n).cands)
      ∧ (heaps.results.length < ef
        → Hit.mk d n ∈ (heaps.offer ef admitted d n).cands)
      ∧ (heaps.offer ef admitted d n).cands.length
        ≤ heaps.cands.length + 1 := by
  unfold offer
  by_cases hplace : heaps.hasPlace ef d = true
  · rw [if_pos hplace]
    refine ⟨fun hit hhit => ?_, fun _ => ?_, ?_⟩
    · exact (List.mem_orderedInsert _).2 (.inr hhit)
    · exact (List.mem_orderedInsert _).2 (.inl rfl)
    · exact (List.orderedInsert_length _ _ _).le
  · rw [if_neg hplace]
    refine ⟨fun _ hhit => hhit, fun hlt => ?_, Nat.le_succ _⟩
    rw [hasPlace, decide_eq_true_eq] at hplace
    exact absurd (.inl hlt) hplace

end Heaps

end Heaps

-- ===== the graph

namespace Links

/-- The element is on the layer. -/
def OnLayer (g : Links) (layer n : ℕ) : Prop :=
  n < g.total ∧ ∃ level ∈ g.levels[n]?, layer ≤ level

instance (g : Links) (layer n : ℕ) : Decidable (g.OnLayer layer n) :=
  inferInstanceAs (Decidable (_ ∧ _))

/-- The links of the elements of a layer can be read, and are to elements
of the layer. -/
def WellFormed (g : Links) (layer : ℕ) : Prop :=
  ∀ n, g.OnLayer layer n → ∃ nbrs, g.neighbors n layer = some nbrs
    ∧ ∀ u ∈ nbrs, g.OnLayer layer u

def Edge (g : Links) (layer n u : ℕ) : Prop :=
  ∃ nbrs, g.neighbors n layer = some nbrs ∧ u ∈ nbrs

/-- The elements that the links lead to. -/
def Reach (g : Links) (layer : ℕ) : ℕ → ℕ → Prop :=
  Relation.ReflTransGen (g.Edge layer)

variable {g : Links} {layer entryPoint : ℕ}

theorem Reach.onLayer (hwf : g.WellFormed layer)
    (hentry : g.OnLayer layer entryPoint) {n : ℕ}
    (h : g.Reach layer entryPoint n) : g.OnLayer layer n := by
  induction h with
  | refl => exact hentry
  | tail _ hedge ih =>
    obtain ⟨nbrs, hnbrs, hmem⟩ := hedge
    obtain ⟨nbrs', hnbrs', hall⟩ := hwf _ ih
    cases hnbrs.symm.trans hnbrs'
    exact hall _ hmem

end Links

-- ===== the invariant

section Search

variable {D : Type*} [LinearOrder D]
variable {g : Links} {dist : ℕ → D} {admits : ℕ → Bool}
  {ef layer entryPoint : ℕ} {expanding : ℕ → Prop} {s : Beam D} {n : ℕ}

/-- A state of the search, while some elements are being expanded. -/
structure Beam.Inv (g : Links) (dist : ℕ → D) (admits : ℕ → Bool)
    (ef layer entryPoint : ℕ) (expanding : ℕ → Prop) (s : Beam D) :
    Prop where
  length : g.total ≤ s.visited.tags.length
  kept : s.heaps.Kept dist admits ef s.visited.Visited
  entry : s.visited.Visited entryPoint
  reach : ∀ n, s.visited.Visited n → g.Reach layer entryPoint n
  closed : s.heaps.results.length < ef → ∀ n, s.visited.Visited n
    → n ∉ s.heaps.cands.map Hit.id → ¬ expanding n
    → ∀ u, g.Edge layer n u → s.visited.Visited u

/-- The candidates, and the elements that are not visited. -/
def Beam.remaining (g : Links) (s : Beam D) : ℕ :=
  s.heaps.cands.length
    + ((Finset.range g.total).filter (¬ s.visited.Visited ·)).card

theorem card_unvisited {v v' : VisitedTags} {total : ℕ} (hn : n < total)
    (hvisited : ∀ m, v'.Visited m ↔ v.Visited m ∨ m = n) :
    ((Finset.range total).filter (¬ v'.Visited ·)).card
        + (if v.Visited n then 0 else 1)
      = ((Finset.range total).filter (¬ v.Visited ·)).card := by
  have heq : (Finset.range total).filter (¬ v'.Visited ·)
      = ((Finset.range total).filter (¬ v.Visited ·)).erase n := by
    ext m
    simp only [Finset.mem_filter, Finset.mem_erase, hvisited, not_or]
    exact ⟨fun h => ⟨h.2.2, h.1, h.2.1⟩, fun h => ⟨h.2.1, h.2.2, h.1⟩⟩
  rw [heq]
  split
  · next hold =>
    rw [Finset.erase_eq_of_notMem, Nat.add_zero]
    simp [hold]
  · next hnew =>
    exact Finset.card_erase_add_one (by simp [hn, hnew])

section

variable (h : s.Inv g dist admits ef layer entryPoint expanding)

include h

theorem Beam.Inv.visitNeighbor
    (hn : n < g.total) (hreach : g.Reach layer entryPoint n) :
    ∃ s', visitNeighbor dist admits ef s n = some s'
      ∧ s'.Inv g dist admits ef layer entryPoint expanding
      ∧ (∀ m, s'.visited.Visited m ↔ s.visited.Visited m ∨ m = n)
      ∧ s'.remaining g ≤ s.remaining g := by
  obtain ⟨seen, v, htest, hseen, hlength, hvisited⟩ :=
    VisitedTags.testAndSet_spec (hn.trans_le h.length)
  unfold BarqSync.Vector.visitNeighbor
  rw [htest, Option.map_some]
  refine ⟨_, rfl, ?_, hvisited, ?_⟩
  · cases seen with
    | true =>
      have hsame : ∀ m, v.Visited m ↔ s.visited.Visited m := by
        intro m
        rw [hvisited, or_iff_left_iff_imp]
        exact fun heq => heq ▸ hseen.1 rfl
      refine ⟨hlength ▸ h.length, h.kept.congr hsame,
        (hsame _).2 h.entry, fun m hm => h.reach m ((hsame m).1 hm), ?_⟩
      intro hroom m hm hcand hexp u hedge
      exact (hsame u).2
        (h.closed hroom m ((hsame m).1 hm) hcand hexp u hedge)
    | false =>
      have hnew : ¬ s.visited.Visited n := fun hn =>
        Bool.noConfusion (hseen.2 hn)
      obtain ⟨hcands, hcand', -⟩ :=
        s.heaps.mem_cands_offer ef (admits n) (dist n) n
      refine ⟨hlength ▸ h.length, (h.kept.offer hnew).congr hvisited,
        (hvisited _).2 (.inl h.entry), fun m hm => ?_, ?_⟩
      · rcases (hvisited m).1 hm with hold | heq
        · exact h.reach m hold
        · exact heq ▸ hreach
      · intro hroom m hm hcand hexp u hedge
        have hroom' : s.heaps.results.length < ef := by
          by_contra hfull
          exact Nat.not_le.2 hroom (s.heaps.offer_grows ef (admits n)
            (dist n) n (Nat.not_lt.1 hfull))
        rcases (hvisited m).1 hm with hold | heq
        · refine (hvisited u).2 (.inl (h.closed hroom' m hold ?_ hexp u
            hedge))
          intro hin
          obtain ⟨hit, hhit, hid⟩ := List.mem_map.1 hin
          exact hcand (List.mem_map.2 ⟨hit, hcands hit hhit, hid⟩)
        · subst heq
          exact absurd (List.mem_map.2 ⟨_, hcand' hroom', rfl⟩) hcand
  · have hcard := card_unvisited hn hvisited
    unfold Beam.remaining
    cases seen with
    | true =>
      rw [if_pos (hseen.1 rfl)] at hcard
      exact (congrArg (_ + ·) hcard).le
    | false =>
      rw [if_neg fun hn => Bool.noConfusion (hseen.2 hn)] at hcard
      have hcands :=
        (s.heaps.mem_cands_offer ef (admits n) (dist n) n).2.2
      dsimp only
      rw [if_neg Bool.false_ne_true]
      omega

theorem Beam.Inv.visitNeighbors {nbrs : List ℕ}
    (hnbrs : ∀ n ∈ nbrs, n < g.total ∧ g.Reach layer entryPoint n) :
    ∃ s', nbrs.foldlM (BarqSync.Vector.visitNeighbor dist admits ef) s
        = some s'
      ∧ s'.Inv g dist admits ef layer entryPoint expanding
      ∧ (∀ n, s.visited.Visited n → s'.visited.Visited n)
      ∧ (∀ n ∈ nbrs, s'.visited.Visited n)
      ∧ s'.remaining g ≤ s.remaining g := by
  induction nbrs generalizing s with
  | nil => exact ⟨s, rfl, h, fun _ hn => hn, by simp, Nat.le_refl _⟩
  | cons n nbrs ih =>
    obtain ⟨hlt, hreach⟩ := hnbrs n List.mem_cons_self
    obtain ⟨t, hvisit, ht, hvisited, hle⟩ := h.visitNeighbor hlt hreach
    obtain ⟨u, hfold, hu, hmono, hall, hle'⟩ := ih ht
      fun m hm => hnbrs m (List.mem_cons_of_mem n hm)
    refine ⟨u, ?_, hu, fun m hm => hmono m ((hvisited m).2 (.inl hm)),
      fun m hm => ?_, hle'.trans hle⟩
    · rw [List.foldlM_cons, hvisit]
      exact hfold
    · rcases List.mem_cons.1 hm with heq | hrest
      · exact hmono m ((hvisited m).2 (.inr heq))
      · exact hall m hrest

end

section

variable (hwf : g.WellFormed layer) (hentry : g.OnLayer layer entryPoint)
  (h : s.Inv g dist admits ef layer entryPoint fun _ => False)

include hwf hentry h

theorem Beam.Inv.expand
    {c : Hit D} {cands : List (Hit D)} (hcands : s.heaps.cands = c :: cands) :
    ∃ s', BarqSync.Vector.expand g dist admits ef layer
        { s with heaps := { s.heaps with cands := cands } } c = some s'
      ∧ s'.Inv g dist admits ef layer entryPoint (fun _ => False)
      ∧ s'.remaining g < s.remaining g := by
  have hc := h.kept.cands c (hcands ▸ List.mem_cons_self)
  have hreach := h.reach c.id hc.1
  obtain ⟨nbrs, hnbrs, hlayer⟩ := hwf c.id (hreach.onLayer hwf hentry)
  have hpopped : Beam.Inv g dist admits ef layer entryPoint (· = c.id)
      { s with heaps := { s.heaps with cands := cands } } := by
    refine ⟨h.length, ⟨h.kept.ordered, h.kept.nodup, h.kept.length,
      h.kept.results, fun hit hhit => ?_, h.kept.missing⟩, h.entry,
      h.reach, fun hroom n hn hcand hexp => ?_⟩
    · exact h.kept.cands hit (hcands ▸ List.mem_cons_of_mem c hhit)
    · refine h.closed hroom n hn ?_ fun h => h
      rw [hcands, List.map_cons, List.mem_cons, not_or]
      exact ⟨hexp, hcand⟩
  obtain ⟨s', hfold, hinv, hmono, hall, hle⟩ :=
    hpopped.visitNeighbors fun n hn =>
      ⟨(hlayer n hn).1, hreach.tail ⟨nbrs, hnbrs, hn⟩⟩
  refine ⟨s', ?_, ?_, ?_⟩
  · unfold BarqSync.Vector.expand
    rw [hnbrs, Option.bind_some, hfold]
  · refine ⟨hinv.length, hinv.kept, hinv.entry, hinv.reach, ?_⟩
    intro hroom n hn hcand _ u hedge
    by_cases hexp : n = c.id
    · -- the element that was expanded
      obtain ⟨nbrs', hnbrs', hu⟩ := hedge
      rw [hexp] at hnbrs'
      cases hnbrs.symm.trans hnbrs'
      exact hall u hu
    · exact hinv.closed hroom n hn hcand hexp u hedge
  · refine hle.trans_lt ?_
    unfold Beam.remaining
    rw [hcands, List.length_cons]
    dsimp only
    omega

/-- The loop ends, with no candidates or a full beam. -/
theorem Beam.Inv.searchLoop {fuel : ℕ} (hfuel : s.remaining g < fuel) :
    ∃ s', searchLoop g dist admits ef layer fuel s = some s'
      ∧ s'.Inv g dist admits ef layer entryPoint (fun _ => False)
      ∧ (s'.heaps.cands = [] ∨ ef ≤ s'.heaps.results.length) := by
  induction fuel generalizing s with
  | zero => exact absurd hfuel (Nat.not_lt_zero _)
  | succ fuel ih =>
    unfold BarqSync.Vector.searchLoop beamLoop
    cases hcands : s.heaps.cands with
    | nil => exact ⟨s, rfl, h, .inl hcands⟩
    | cons c cands =>
      dsimp only
      split
      · next hbeyond =>
        exact ⟨s, rfl, h, .inr (of_decide_eq_true hbeyond).1⟩
      · obtain ⟨t, hexpand, ht, hlt⟩ := h.expand hwf hentry hcands
        rw [hexpand, Option.bind_some]
        exact ih ht (by omega)

end

theorem Beam.Inv.start (dist : ℕ → D) (admits : ℕ → Bool)
    (hentry : g.OnLayer layer entryPoint) (hef : 1 ≤ ef)
    (visited : VisitedTags) :
    ∃ s, searchStart g dist admits entryPoint visited = some s
      ∧ s.Inv g dist admits ef layer entryPoint (fun _ => False)
      ∧ s.remaining g ≤ g.total := by
  obtain ⟨seen, v, htest, -, hlength, hvisited⟩ :=
    VisitedTags.testAndSet_spec
      (hentry.1.trans_le (visited.length_start g.total))
  have honly : ∀ m, v.Visited m ↔ m = entryPoint := by
    intro m
    rw [hvisited, or_iff_right (VisitedTags.not_visited_start _ _)]
  unfold searchStart
  rw [htest, Option.map_some]
  refine ⟨_, rfl, ⟨hlength ▸ visited.length_start g.total, ?_,
    (honly _).2 rfl, fun n hn => (honly n).1 hn ▸ .refl, ?_⟩, ?_⟩
  · by_cases hadmits : admits entryPoint = true
    · rw [if_pos hadmits]
      refine ⟨List.pairwise_singleton _ _, List.nodup_singleton _, hef,
        fun hit hhit => ?_, fun hit hhit => ?_, fun m hm _ hnot => ?_⟩
      · rw [List.mem_singleton.1 hhit]
        exact ⟨(honly _).2 rfl, hadmits, rfl⟩
      · rw [List.mem_singleton.1 hhit]
        exact ⟨(honly _).2 rfl, rfl⟩
      · exact absurd (List.mem_singleton.2 ((honly m).1 hm)) hnot
    · rw [if_neg hadmits]
      refine ⟨List.Pairwise.nil, List.nodup_nil, Nat.zero_le _,
        fun hit hhit => absurd hhit List.not_mem_nil, fun hit hhit => ?_,
        fun m hm hadmits' _ => ?_⟩
      · rw [List.mem_singleton.1 hhit]
        exact ⟨(honly _).2 rfl, rfl⟩
      · exact absurd ((honly m).1 hm ▸ hadmits') hadmits
  · intro _ n hn hcand
    exact absurd (List.mem_singleton.2 ((honly n).1 hn)) hcand
  · have hcard := card_unvisited hentry.1 hvisited
    rw [if_neg (VisitedTags.not_visited_start _ _)] at hcard
    have hle := Finset.card_filter_le (Finset.range g.total)
      (¬ (visited.start g.total).Visited ·)
    rw [Finset.card_range] at hle
    unfold Beam.remaining
    dsimp only
    rw [List.length_singleton]
    omega

-- ===== the results

/-- The ranking of all admitted elements. -/
def bruteForce (g : Links) (dist : ℕ → D) (admits : ℕ → Bool) :
    List (Hit D) :=
  (((List.range g.total).filter admits).map
    fun n => Hit.mk (dist n) n).insertionSort (· ≤ ·)

/-- What a search returns, with the tags of the elements that it
compared. -/
structure Searched (g : Links) (dist : ℕ → D) (admits : ℕ → Bool)
    (ef layer entryPoint : ℕ) (hits : List (Hit D))
    (visited : VisitedTags) : Prop where
  sorted : hits.Pairwise (· < ·)
  length : hits.length ≤ ef
  distinct : (hits.map Hit.id).Nodup
  sound : ∀ hit ∈ hits, admits hit.id = true
    ∧ g.Reach layer entryPoint hit.id ∧ hit.dist = dist hit.id
  /-- None that was compared and is closer than the worst is missing. -/
  closest : hits.length = ef → ∀ n, visited.Visited n → admits n = true
    → (∃ hit ∈ hits, dist n < hit.dist) → n ∈ hits.map Hit.id
  /-- All are returned if they have a place. -/
  all : {n | g.Reach layer entryPoint n ∧ admits n = true}.ncard ≤ ef
    → ∀ n, g.Reach layer entryPoint n → admits n = true
      → n ∈ hits.map Hit.id
  /-- In a connected graph with enough places this is the ranking. -/
  ranking : (∀ n < g.total, admits n = true → g.Reach layer entryPoint n)
    → (List.range g.total).countP admits ≤ ef
    → hits = bruteForce g dist admits

/-- A search that ended with places left has visited all elements. -/
theorem Beam.Inv.visited_of_room
    (h : s.Inv g dist admits ef layer entryPoint fun _ => False)
    (hroom : s.heaps.results.length < ef) (hcands : s.heaps.cands = [])
    (hreach : g.Reach layer entryPoint n) :
    s.visited.Visited n := by
  induction hreach with
  | refl => exact h.entry
  | tail _ hedge ih =>
    refine h.closed hroom _ ih ?_ (fun h => h) _ hedge
    rw [hcands]
    exact List.not_mem_nil

section

variable (hwf : g.WellFormed layer) (hentry : g.OnLayer layer entryPoint)
  (h : s.Inv g dist admits ef layer entryPoint fun _ => False) (hend :
  s.heaps.cands = [] ∨ ef ≤ s.heaps.results.length)

include hwf hentry h hend

theorem Beam.Inv.mem_of_ncard
    (hcard : {n | g.Reach layer entryPoint n ∧ admits n = true}.ncard ≤ ef)
    (hreach : g.Reach layer entryPoint n) (hadmits : admits n = true) :
    n ∈ s.heaps.results.map Hit.id := by
  rcases Nat.lt_or_ge s.heaps.results.length ef with hroom | hfull
  · by_contra hnot
    have hcands := hend.resolve_right (Nat.not_le.2 hroom)
    have hvisited := h.visited_of_room hroom hcands hreach
    exact Nat.not_le.2 hroom (h.kept.missing n hvisited hadmits hnot).1
  · -- a full beam of different elements has all there are
    have hsub : ((s.heaps.results.map Hit.id).toFinset : Set ℕ)
        ⊆ {n | g.Reach layer entryPoint n ∧ admits n = true} := by
      intro m hm
      rw [Finset.mem_coe, List.mem_toFinset] at hm
      obtain ⟨hit, hhit, heq⟩ := List.mem_map.1 hm
      obtain ⟨hseen, ha, -⟩ := h.kept.results hit hhit
      exact heq ▸ ⟨h.reach _ hseen, ha⟩
    have hfinite : {n | g.Reach layer entryPoint n
        ∧ admits n = true}.Finite :=
      (Set.finite_lt_nat g.total).subset
        fun m hm => (hm.1.onLayer hwf hentry).1
    have heq := Set.eq_of_subset_of_ncard_le hsub (by
      rw [Set.ncard_coe_finset, List.toFinset_card_of_nodup h.kept.nodup,
        List.length_map]
      exact hcard.trans hfull) hfinite
    have hmem : n ∈ ((s.heaps.results.map Hit.id).toFinset : Set ℕ) :=
      heq ▸ ⟨hreach, hadmits⟩
    rwa [Finset.mem_coe, List.mem_toFinset] at hmem

/-- The results that are left, in the other order. -/
theorem Beam.Inv.searched :
    Searched g dist admits ef layer entryPoint s.heaps.sorted s.visited := by
  have hmem : ∀ n, n ∈ s.heaps.sorted.map Hit.id
      ↔ n ∈ s.heaps.results.map Hit.id := by
    intro n
    rw [Heaps.sorted, List.map_reverse, List.mem_reverse]
  have hnodup : (s.heaps.sorted.map Hit.id).Nodup := by
    rw [Heaps.sorted, List.map_reverse, List.nodup_reverse]
    exact h.kept.nodup
  have hsorted : s.heaps.sorted.Pairwise (· < ·) := by
    have hle : s.heaps.sorted.Pairwise (· ≤ ·) :=
      List.pairwise_reverse.2 h.kept.ordered
    exact (hle.and hnodup.of_map).imp fun h => lt_of_le_of_ne h.1 h.2
  have hall : {n | g.Reach layer entryPoint n ∧ admits n = true}.ncard ≤ ef
      → ∀ n, g.Reach layer entryPoint n → admits n = true
        → n ∈ s.heaps.sorted.map Hit.id :=
    fun hcard n hreach hadmits => (hmem n).2
      (h.mem_of_ncard hwf hentry hend hcard hreach hadmits)
  have hsound : ∀ hit ∈ s.heaps.sorted, admits hit.id = true
      ∧ g.Reach layer entryPoint hit.id ∧ hit.dist = dist hit.id := by
    intro hit hhit
    obtain ⟨hseen, hadmits, hdist⟩ :=
      h.kept.results hit (List.mem_reverse.1 hhit)
    exact ⟨hadmits, h.reach _ hseen, hdist⟩
  refine ⟨hsorted, ?_, hnodup, hsound, ?_, hall, ?_⟩
  · exact List.length_reverse.trans_le h.kept.length
  · intro _ n hn hadmits hcloser
    rw [hmem]
    by_contra hnot
    obtain ⟨hit, hhit, hlt⟩ := hcloser
    have hfar := (h.kept.missing n hn hadmits hnot).2 hit
      (List.mem_reverse.1 hhit)
    exact absurd hlt (not_lt.2 hfar)
  · intro hconnected hcount
    have hlive : ∀ n, g.Reach layer entryPoint n ∧ admits n = true
        ↔ n ∈ (List.range g.total).filter admits := by
      intro n
      rw [List.mem_filter, List.mem_range]
      exact ⟨fun h => ⟨(h.1.onLayer hwf hentry).1, h.2⟩,
        fun h => ⟨hconnected n h.1 h.2, h.2⟩⟩
    have hcard : {n | g.Reach layer entryPoint n
        ∧ admits n = true}.ncard ≤ ef := by
      have heq : {n | g.Reach layer entryPoint n ∧ admits n = true}
          = (((List.range g.total).filter admits).toFinset : Set ℕ) := by
        ext n
        rw [Finset.mem_coe, List.mem_toFinset]
        exact hlive n
      rw [heq, Set.ncard_coe_finset]
      refine (List.toFinset_card_le _).trans ?_
      rwa [← List.countP_eq_length_filter]
    refine List.Perm.eq_of_pairwise' (hsorted.imp le_of_lt)
      (List.pairwise_insertionSort (· ≤ ·) _) ?_
    refine .trans ?_ (List.perm_insertionSort _ _).symm
    refine (List.perm_ext_iff_of_nodup hnodup.of_map ?_).2 fun hit => ?_
    · refine (List.nodup_range.filter _).map fun a b hab => ?_
      exact congrArg Hit.id hab
    · rw [List.mem_map]
      constructor
      · intro hhit
        obtain ⟨hadmits, hreach, hdist⟩ := hsound hit hhit
        refine ⟨hit.id, (hlive _).1 ⟨hreach, hadmits⟩, ?_⟩
        rw [← hdist]
        rfl
      · intro hex
        obtain ⟨n, hn, heq⟩ := hex
        obtain ⟨hreach, hadmits⟩ := (hlive n).2 hn
        obtain ⟨hit', hhit', hid⟩ :=
          List.mem_map.1 (hall hcard n hreach hadmits)
        have hsame : hit' = hit := by
          rw [← heq, ← hid, ← (hsound hit' hhit').2.2]
          rfl
        exact hsame ▸ hhit'

end

/-- In a well-formed layer a search returns. -/
theorem searchLayer_returns (dist : ℕ → D) (admits : ℕ → Bool)
    (hwf : g.WellFormed layer)
    (hentry : g.OnLayer layer entryPoint) (hef : 1 ≤ ef) {fuel : ℕ}
    (hfuel : g.total < fuel) (visited : VisitedTags) :
    ∃ s : Beam D, searchLayer g dist admits ef layer fuel entryPoint visited
        = some (s.heaps.sorted, s.visited)
      ∧ s.Inv g dist admits ef layer entryPoint (fun _ => False)
      ∧ (s.heaps.cands = [] ∨ ef ≤ s.heaps.results.length) := by
  obtain ⟨s, hstart, hs, hremaining⟩ :=
    Beam.Inv.start dist admits hentry hef visited
  obtain ⟨t, hloop, ht⟩ :=
    hs.searchLoop hwf hentry (hremaining.trans_lt hfuel)
  refine ⟨t, ?_, ht⟩
  unfold searchLayer
  rw [hstart, Option.bind_some, hloop, Option.map_some]

/-- What it returns is as it should be. -/
theorem search_layer_spec (hwf : g.WellFormed layer)
    (hentry : g.OnLayer layer entryPoint) (hef : 1 ≤ ef) {fuel : ℕ}
    (hfuel : g.total < fuel) (visited : VisitedTags) :
    ∃ hits visited', searchLayer g dist admits ef layer fuel entryPoint
        visited = some (hits, visited')
      ∧ Searched g dist admits ef layer entryPoint hits visited' := by
  obtain ⟨s, hsearch, hs, hend⟩ :=
    searchLayer_returns dist admits hwf hentry hef hfuel visited
  exact ⟨_, _, hsearch, hs.searched hwf hentry hend⟩

/-- Three elements: the first is linked with both others. -/
private def threeElements : Links :=
  ⟨1, 3, [0, 0, 0], [2, 1, 2, 1, 0, 0, 1, 0, 0], [0, 0, 0], []⟩

private theorem threeElements_wellFormed : threeElements.WellFormed 0 := by
  intro n hn
  have hlt : n < 3 := hn.1
  interval_cases n <;> exact ⟨_, rfl, by decide⟩

private def fromTen (n : ℕ) : ℕ := 10 - n

private def isEven (n : ℕ) : Bool := n % 2 = 0

/-- The two closest of those with an even id, from the second element. -/
theorem search_layer_spec_three :
    ∃ hits visited', searchLayer threeElements fromTen isEven 2 0 4 1 .empty
        = some (hits, visited')
      ∧ hits = [.mk 8 2, .mk 10 0]
      ∧ Searched threeElements fromTen isEven 2 0 1 hits visited' := by
  have hspec : ∃ hits visited', searchLayer threeElements fromTen isEven
        2 0 4 1 .empty = some (hits, visited')
      ∧ Searched threeElements fromTen isEven 2 0 1 hits visited' :=
    search_layer_spec threeElements_wellFormed (by decide) (by decide)
      (by decide) .empty
  obtain ⟨hits, visited', heq, hsearched⟩ := hspec
  have hhits : (searchLayer threeElements fromTen isEven 2 0 4 1
      .empty).map Prod.fst = some [.mk 8 2, .mk 10 0] := by
    decide +kernel
  rw [heq, Option.map_some, Option.some_inj] at hhits
  exact ⟨hits, visited', heq, hhits, hsearched⟩

end Search

end BarqSync.Vector
