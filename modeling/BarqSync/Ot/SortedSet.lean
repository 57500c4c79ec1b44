/-
Sets kept as sorted vectors: a value is looked up by binary search, and
inserted or erased where the search ends.

# Two comparisons

The search goes by one comparison (`lt`), and what it ends at is tested by
another one (`eq`). Nothing makes the two fit: equality need not be
transitive or reflexive, and values may be incomparable. What is assumed
of them is `Comparison`, and of the vector that the searches are made in
ranges that are partitioned for them (`Searchable`).

# Results

Where a search ends after one insertion or erasure (`lowerBound_insertIdx`,
`lowerBound_eraseIdx`), what it finds there (`hit_insertIdx`,
`hit_eraseIdx`), and from these, for each pair of operations, exactly when
two orders lead to the same vector, element by element up to a relation
`sim`.
-/
import BarqSync.Ot.ListEdit
import Mathlib.Data.List.Forall2
import Mathlib.Data.List.Count
import Mathlib.Data.List.TakeWhile

namespace Ot.SortedSet

variable {α : Type*} (lt eq : α → α → Bool)

-- ===== operations

/-- The loop of the binary search, over `len` elements from `first`. -/
def search (l : List α) (v : α) : ℕ → ℕ → ℕ → ℕ
  | 0, first, _ => first
  | fuel + 1, first, len =>
    match l[first + len / 2]? with
    | some x =>
      if len = 0 then first
      else if lt x v then
        search l v fuel (first + len / 2 + 1) (len - len / 2 - 1)
      else search l v fuel first (len / 2)
    | none => first

/-- `std::lower_bound`: where the search for a value ends. -/
def lowerBound (l : List α) (v : α) : ℕ := search lt l v l.length 0 l.length

/-- The search ends at a value that is equal. -/
def hit (l : List α) (v : α) : Bool := (l[lowerBound lt l v]?).any (eq · v)

/-- Insert a value if it is not found. -/
def insert (l : List α) (v : α) : List α :=
  if hit lt eq l v then l else l.insertIdx (lowerBound lt l v) v

/-- Erase what is found. -/
def erase (l : List α) (v : α) : List α :=
  if hit lt eq l v then l.eraseIdx (lowerBound lt l v) else l

-- ===== searching

/-- The elements less than `v` are those before `k`. -/
def Split (l : List α) (v : α) (k : ℕ) : Prop :=
  k ≤ l.length ∧ ∀ i x, l[i]? = some x → (lt x v = true ↔ i < k)

/-- The vector is partitioned for the search, which is what
`std::lower_bound` asks for. -/
def Searchable (l : List α) (v : α) : Prop :=
  ∀ x ∈ l.dropWhile (lt · v), lt x v = false

instance (l : List α) (v : α) : Decidable (Searchable lt l v) :=
  inferInstanceAs (Decidable (∀ x ∈ l.dropWhile (lt · v), lt x v = false))

variable {lt eq} {l : List α} {v w x : α} {k p q : ℕ}

theorem Searchable.exists_split (h : Searchable lt l v) :
    ∃ k, Split lt l v k := by
  refine ⟨(l.takeWhile (lt · v)).length, ?_, fun i x hx => ?_⟩
  · exact (List.takeWhile_prefix _).length_le
  have hl : l = l.takeWhile (lt · v) ++ l.dropWhile (lt · v) :=
    (List.takeWhile_append_dropWhile).symm
  rw [hl] at hx
  by_cases hi : i < (l.takeWhile (lt · v)).length
  · rw [List.getElem?_append_left hi] at hx
    have := List.mem_takeWhile_imp (List.mem_of_getElem? hx)
    exact iff_of_true this hi
  · rw [List.getElem?_append_right (by omega)] at hx
    have := h x (List.mem_of_getElem? hx)
    exact iff_of_false (by simp [this]) hi

theorem Split.search (h : Split lt l v k) : ∀ fuel first len,
    len ≤ fuel → first ≤ k → k ≤ first + len → first + len ≤ l.length →
    search lt l v fuel first len = k := by
  intro fuel
  induction fuel with
  | zero =>
    intro first len hfuel hfirst hk _
    rw [SortedSet.search]
    omega
  | succ fuel ih =>
    intro first len hfuel hfirst hk hlen
    rw [SortedSet.search]
    split
    · next x hx =>
        have hx' := h.2 _ x hx
        split
        · omega
        split
        · next hne hlt =>
            have := hx'.1 hlt
            exact ih _ _ (by omega) (by omega) (by omega) (by omega)
        · next hne hlt =>
            have : ¬first + len / 2 < k := fun hlt' => hlt (hx'.2 hlt')
            exact ih _ _ (by omega) (by omega) (by omega) (by omega)
    · next hx =>
        have := List.getElem?_eq_none_iff.1 hx
        omega

theorem Split.lowerBound (h : Split lt l v k) : lowerBound lt l v = k :=
  h.search _ _ _ (Nat.le_refl _) (Nat.zero_le _) (by simpa using h.1)
    (by omega)

theorem Searchable.split (h : Searchable lt l v) :
    Split lt l v (SortedSet.lowerBound lt l v) := by
  obtain ⟨k, hk⟩ := h.exists_split
  rwa [hk.lowerBound]

/-- A search ends behind as many elements as are less. -/
theorem Split.countP (h : Split lt l v k) : l.countP (lt · v) = k := by
  have hl : l = l.take k ++ l.drop k := (List.take_append_drop k l).symm
  have htake : ∀ x ∈ l.take k, lt x v = true := by
    intro x hx
    obtain ⟨i, hi, rfl⟩ := List.mem_iff_getElem.1 hx
    rw [List.getElem_take]
    refine (h.2 i _ (List.getElem?_eq_getElem _)).2 ?_
    rw [List.length_take] at hi
    omega
  have hdrop : ∀ x ∈ l.drop k, ¬lt x v = true := by
    intro x hx
    obtain ⟨i, hi, rfl⟩ := List.mem_iff_getElem.1 hx
    rw [List.getElem_drop, h.2 (k + i) _ (List.getElem?_eq_getElem _)]
    omega
  rw [hl, List.countP_append, List.countP_eq_length.2 htake,
    List.countP_eq_zero.2 hdrop, List.length_take_of_le h.1, Nat.add_zero]

-- ===== after an insertion or an erasure

/-- A value put where it does not disturb the order for another one. -/
theorem Split.insertIdx (hw : Split lt l w q) (hp : p ≤ l.length)
    (h : Searchable lt (l.insertIdx p v) w) :
    Split lt (l.insertIdx p v) w (if lt v w then q + 1 else q)
      ∧ (p < q → lt v w = true) ∧ (q < p → lt v w = false) := by
  have hsplit := h.split
  have hcount := hsplit.countP
  rw [(List.perm_insertIdx v l hp).countP_eq, List.countP_cons,
    hw.countP] at hcount
  have hend : SortedSet.lowerBound lt (l.insertIdx p v) w
      = if lt v w then q + 1 else q := by
    rw [← hcount]
    cases lt v w <;> rfl
  have hv := hsplit.2 p v (getElem?_insertIdx_self hp)
  rw [hend] at hsplit hv
  refine ⟨hsplit, fun hpq => ?_, fun hqp => ?_⟩
  · by_contra hlt
    rw [if_neg hlt] at hv
    exact hlt (hv.2 hpq)
  · by_contra hlt
    rw [Bool.not_eq_false] at hlt
    rw [if_pos hlt] at hv
    have := hv.1 hlt
    omega

theorem Split.eraseIdx (hw : Split lt l w q) (hp : p < l.length) :
    Split lt (l.eraseIdx p) w (afterErase p q) := by
  have hlen := List.length_eraseIdx_of_lt hp
  have hq := hw.1
  refine ⟨?_, fun i x hx => ?_⟩
  · unfold afterErase
    split <;> omega
  rw [List.getElem?_eraseIdx] at hx
  unfold afterErase
  split at hx
  · rw [hw.2 i x hx]
    split <;> omega
  · rw [hw.2 (i + 1) x hx]
    split <;> omega

theorem hit_iff (hv : Split lt l v p) :
    hit lt eq l v = (l[p]?).any (eq · v) := by
  rw [hit, hv.lowerBound]

/-- What a search finds after an insertion. -/
theorem hit_insertIdx (hw : Split lt l w q) (hp : p ≤ l.length)
    (h : Searchable lt (l.insertIdx p v) w) :
    hit lt eq (l.insertIdx p v) w
      = if p = q ∧ lt v w = false then eq v w else hit lt eq l w := by
  obtain ⟨hsplit, hbefore, hbehind⟩ := hw.insertIdx hp h
  rw [hit_iff hsplit, hit_iff hw]
  cases hlt : lt v w with
  | true =>
    have hqp : ¬q < p := fun hqp => by simp [hbehind hqp] at hlt
    have hget := getElem?_insertIdx_after (l := l) (k := p) (j := q)
      (v := v)
    rw [afterInsert, if_neg hqp] at hget
    simp [hget]
  | false =>
    have hpq : ¬p < q := fun hpq => by simp [hbefore hpq] at hlt
    by_cases heq : p = q
    · subst heq
      simp [getElem?_insertIdx_self hp]
    · have hget := getElem?_insertIdx_after (l := l) (k := p) (j := q)
        (v := v)
      rw [afterInsert, if_pos (by omega)] at hget
      simp [hget, heq]

/-- What a search finds after an erasure. -/
theorem hit_eraseIdx (hw : Split lt l w q) (hp : p < l.length) :
    hit lt eq (l.eraseIdx p) w
      = if p = q then (l[q + 1]?).any (eq · w) else hit lt eq l w := by
  rw [hit_iff (hw.eraseIdx hp), hit_iff hw]
  by_cases heq : p = q
  · subst heq
    simp [afterErase, List.getElem?_eraseIdx]
  · rw [if_neg heq, getElem?_eraseIdx_after heq]

theorem exists_of_hit (hv : Split lt l v p)
    (h : hit lt eq l v = true) : ∃ x, l[p]? = some x ∧ eq x v = true := by
  rw [hit_iff hv] at h
  simpa [Option.any_eq_true] using h

-- ===== vectors up to a relation

/-- What the proofs need of the two comparisons. -/
structure Comparison (lt eq : α → α → Bool) : Prop where
  asymm : ∀ a b, lt a b = true → lt b a = false
  symm : ∀ a b, eq a b = eq b a
  apart : ∀ a b, eq a b = true → lt a b = false
  self : ∀ a b, eq a b = true → eq a a = true

/-- Elements that may stand for each other: equal ones, and an element for
itself even where it is not equal to itself. -/
structure Alike (eq : α → α → Bool) (sim : α → α → Prop) : Prop where
  refl : ∀ a, sim a a
  symm : ∀ a b, sim a b → sim b a
  cases : ∀ a b, sim a b → eq a b = true ∨ a = b

section

variable {sim : α → α → Prop} (hs : Alike eq sim)

include hs

theorem Alike.forall₂ (l : List α) : List.Forall₂ sim l l :=
  List.forall₂_same.2 fun a _ => hs.refl a

theorem Alike.forall₂_comm {m : List α} :
    List.Forall₂ sim l m ↔ List.Forall₂ sim m l :=
  ⟨fun h => h.flip.imp fun a b hab => hs.symm b a hab,
    fun h => h.flip.imp fun a b hab => hs.symm b a hab⟩

theorem Alike.forall₂_insertIdx (hk : k ≤ l.length) :
    List.Forall₂ sim (l.insertIdx k v) (l.insertIdx k w) ↔ sim v w := by
  induction l generalizing k with
  | nil =>
    obtain rfl : k = 0 := by simpa using hk
    simp
  | cons x l ih =>
    cases k with
    | zero => simp [hs.refl]
    | succ k => simp [hs.refl, ih (Nat.le_of_succ_le_succ hk)]

theorem Alike.forall₂_swap (hk : k ≤ l.length) :
    List.Forall₂ sim ((l.insertIdx k v).insertIdx k w)
      ((l.insertIdx k w).insertIdx k v) ↔ sim v w := by
  induction l generalizing k with
  | nil =>
    obtain rfl : k = 0 := by simpa using hk
    simp only [List.insertIdx_zero, List.forall₂_cons,
      List.forall₂_nil_left_iff, and_true]
    exact ⟨And.right, fun h => ⟨hs.symm _ _ h, h⟩⟩
  | cons x l ih =>
    cases k with
    | zero =>
      simp only [List.insertIdx_zero, List.forall₂_cons]
      exact ⟨fun h => h.2.1, fun h => ⟨hs.symm _ _ h, h, hs.refl x,
        hs.forall₂ l⟩⟩
    | succ k => simp [hs.refl, ih (Nat.le_of_succ_le_succ hk)]

theorem Alike.forall₂_replace (hx : l[k]? = some x) :
    List.Forall₂ sim ((l.eraseIdx k).insertIdx k w) l ↔ sim w x := by
  induction l generalizing k with
  | nil => cases hx
  | cons y l ih =>
    cases k with
    | zero =>
      cases hx
      simp [hs.refl]
    | succ k => simp [hs.refl, ih hx]

end

-- ===== the operations, at a split

theorem insert_of_hit (h : hit lt eq l v = true) : insert lt eq l v = l :=
  if_pos h

theorem erase_of_not_hit (h : hit lt eq l v = false) :
    erase lt eq l v = l :=
  if_neg (by simp [h])

section

variable (hv : Split lt l v p)

include hv

theorem Split.insert_of_not_hit (h : hit lt eq l v = false) :
    insert lt eq l v = l.insertIdx p v := by
  rw [insert, if_neg (by simp [h]), hv.lowerBound]

theorem Split.erase_of_hit (h : hit lt eq l v = true) :
    erase lt eq l v = l.eraseIdx p := by
  rw [erase, if_pos h, hv.lowerBound]

theorem Split.lt_length_of_hit (h : hit lt eq l v = true) :
    p < l.length := by
  obtain ⟨x, hx, -⟩ := exists_of_hit hv h
  exact (List.getElem?_eq_some_iff.1 hx).1

variable (eq) in
theorem Split.length_insert : (insert lt eq l v).length
    = if hit lt eq l v then l.length else l.length + 1 := by
  cases h : hit lt eq l v with
  | true => simp [insert_of_hit h]
  | false =>
    rw [hv.insert_of_not_hit h, List.length_insertIdx_of_le_length hv.1]
    rfl

variable (eq) in
theorem Split.length_erase : (erase lt eq l v).length
    = if hit lt eq l v then l.length - 1 else l.length := by
  cases h : hit lt eq l v with
  | true =>
    rw [hv.erase_of_hit h,
      List.length_eraseIdx_of_lt (hv.lt_length_of_hit h)]
    rfl
  | false => simp [erase_of_not_hit h]

variable {sim : α → α → Prop}

/-- An insertion changes nothing only if the value is found. -/
theorem Split.forall₂_insert (hs : Alike eq sim) :
    (List.Forall₂ sim (insert lt eq l v) l ↔ hit lt eq l v = true)
      ∧ (List.Forall₂ sim l (insert lt eq l v)
        ↔ hit lt eq l v = true) := by
  have hlen := hv.length_insert eq
  cases h : hit lt eq l v with
  | true => simp [insert_of_hit h, hs.refl]
  | false =>
    rw [h] at hlen
    refine ⟨iff_of_false (fun hf => ?_) (by simp),
      iff_of_false (fun hf => ?_) (by simp)⟩
    · simpa [hlen] using hf.length_eq
    · simpa [hlen] using hf.length_eq

theorem Split.forall₂_erase (hs : Alike eq sim) :
    (List.Forall₂ sim (erase lt eq l v) l ↔ hit lt eq l v = false)
      ∧ (List.Forall₂ sim l (erase lt eq l v)
        ↔ hit lt eq l v = false) := by
  have hlen := hv.length_erase eq
  cases h : hit lt eq l v with
  | false => simp [erase_of_not_hit h, hs.refl]
  | true =>
    have := hv.lt_length_of_hit h
    rw [h, if_pos rfl] at hlen
    refine ⟨iff_of_false (fun hf => ?_) (by simp),
      iff_of_false (fun hf => ?_) (by simp)⟩
    · have := hf.length_eq
      omega
    · have := hf.length_eq
      omega

end

-- ===== two orders

variable (lt eq) in
/-- The searches for two values end at the same place. -/
def Meet (l : List α) (v w : α) : Prop :=
  lowerBound lt l v = lowerBound lt l w

instance (l : List α) (v w : α) : Decidable (Meet lt l v w) :=
  inferInstanceAs (Decidable (lowerBound lt l v = lowerBound lt l w))

variable (lt eq) in
/-- The element behind the one where the search ends is equal. -/
def nextHit (l : List α) (v : α) : Bool :=
  (l[lowerBound lt l v + 1]?).any (eq · v)

variable (lt eq) in
/-- Insertions whose order does not matter. -/
def InsertsCommute (sim : α → α → Prop) (l : List α) (v w : α) : Prop :=
  Meet lt l v w →
    match hit lt eq l v, hit lt eq l w with
    | true, true => True
    | true, false => lt w v = true ∨ eq w v = true
    | false, true => lt v w = true ∨ eq v w = true
    | false, false => lt v w = true ∨ lt w v = true ∨ sim v w

variable (lt eq) in
/-- An insertion of `v` that makes no difference to one of `w` behind
it. -/
def InsertLost (sim : α → α → Prop) (l : List α) (v w : α) : Prop :=
  hit lt eq l v = true
    ∨ (hit lt eq l w = false ∧ Meet lt l v w ∧ eq v w = true ∧ sim v w)

variable (lt eq) in
/-- Erasures whose order does not matter. -/
def ErasesCommute (l : List α) (v w : α) : Prop :=
  Meet lt l v w →
    match hit lt eq l v, hit lt eq l w with
    | true, true => nextHit lt eq l v = nextHit lt eq l w
    | true, false => nextHit lt eq l w = false
    | false, true => nextHit lt eq l v = false
    | false, false => True

variable (lt eq) in
/-- An erasure of `v` that makes no difference to one of `w` behind it. -/
def EraseLost (l : List α) (v w : α) : Prop :=
  hit lt eq l v = false
    ∨ (hit lt eq l w = true ∧ Meet lt l v w ∧ nextHit lt eq l w = false)

variable (lt eq) in
/-- An erasure of `v` and an insertion of `w` whose order does not
matter. -/
def EraseInsertCommute (l : List α) (v w : α) : Prop :=
  Meet lt l v w →
    match hit lt eq l v, hit lt eq l w with
    | true, true => nextHit lt eq l w = true
    | true, false => lt w v = true ∧ nextHit lt eq l w = false
    | false, true => True
    | false, false => eq w v = false

variable (lt eq) in
/-- An erasure of `v` that makes no difference to an insertion of `w`
behind it. -/
def EraseOverwritten (sim : α → α → Prop) (l : List α) (v w : α) : Prop :=
  hit lt eq l v = false
    ∨ (hit lt eq l w = true ∧ Meet lt l v w ∧ nextHit lt eq l w = false
      ∧ ∀ x, l[lowerBound lt l w]? = some x → sim w x)

variable (lt eq) in
/-- An insertion of `w` that makes no difference to an erasure of `v`
behind it. -/
def InsertUndone (l : List α) (v w : α) : Prop :=
  hit lt eq l w = true
    ∨ (hit lt eq l v = false ∧ Meet lt l v w ∧ eq w v = true)

section Orders

variable {sim : α → α → Prop} (hp : Split lt l v p) (hq : Split lt l w q)

include hp hq

theorem Split.meet_iff : Meet lt l v w ↔ p = q := by
  rw [Meet, hp.lowerBound, hq.lowerBound]

/-- The search after an erasure. -/
theorem Split.hit_erase (hhv : hit lt eq l v = true) :
    (p = q → hit lt eq (erase lt eq l v) w = nextHit lt eq l w)
      ∧ (p ≠ q → hit lt eq (erase lt eq l v) w = hit lt eq l w)
      ∧ Split lt (erase lt eq l v) w (afterErase p q) := by
  have hlt := hp.lt_length_of_hit hhv
  rw [hp.erase_of_hit hhv, hit_eraseIdx hq hlt]
  refine ⟨fun h => ?_, fun h => if_neg h, hq.eraseIdx hlt⟩
  rw [if_pos h, nextHit, hq.lowerBound]

/-- The search after an insertion. -/
theorem Split.hit_insert (hhv : hit lt eq l v = false)
    (hvw : Searchable lt (insert lt eq l v) w) :
    hit lt eq (insert lt eq l v) w
        = (if p = q ∧ lt v w = false then eq v w else hit lt eq l w)
      ∧ Split lt (insert lt eq l v) w (if lt v w then q + 1 else q)
      ∧ (p < q → lt v w = true) ∧ (q < p → lt v w = false) := by
  rw [hp.insert_of_not_hit hhv] at hvw ⊢
  exact ⟨hit_insertIdx hq hp.1 hvw, hq.insertIdx hp.1 hvw⟩

section Inserts

variable (hwv : Searchable lt (insert lt eq l w) v)

include hwv

/-- One value is found, and the other one is inserted: the first one must
still be found. -/
theorem insert_insert_of_found (hs : Alike eq sim)
    (hhv : hit lt eq l v = true) (hhw : hit lt eq l w = false) :
    List.Forall₂ sim (insert lt eq l w) (insert lt eq (insert lt eq l w) v)
      ↔ (p = q → lt w v = true ∨ eq w v = true) := by
  obtain ⟨hhit, hsplit, -⟩ := hq.hit_insert hp hhw hwv
  rw [(hsplit.forall₂_insert hs).2, hhit, hhv]
  split
  · next h => simp [h.1, h.2]
  · next h =>
      rw [not_and, Bool.not_eq_false] at h
      exact iff_of_true rfl fun heq => .inl (h heq.symm)

variable (hc : Comparison lt eq) (hvw : Searchable lt (insert lt eq l v) w)

include hc hvw

/-- Of two values that are inserted, one that is put before the other, or
is less, takes its place whichever comes first. -/
theorem insert_comm_of_lt (hnv : hit lt eq l v = false)
    (hnw : hit lt eq l w = false)
    (h : p < q ∨ (p = q ∧ lt v w = true)) :
    insert lt eq (insert lt eq l v) w
      = insert lt eq (insert lt eq l w) v := by
  obtain ⟨hhw, hq', hbefore, -⟩ := hp.hit_insert hq hnv hvw
  obtain ⟨hhv, hp', -⟩ := hq.hit_insert hp hnw hwv
  have hlt : lt v w = true := h.elim hbefore And.right
  have hgt : lt w v = false := hc.asymm _ _ hlt
  have heq : eq w v = false := by
    cases heq : eq w v with
    | false => rfl
    | true =>
      rw [hc.symm] at heq
      rw [hc.apart _ _ heq] at hlt
      cases hlt
  have hnw' : hit lt eq (insert lt eq l v) w = false := by
    rw [hhw, if_neg (by simp [hlt]), hnw]
  have hnv' : hit lt eq (insert lt eq l w) v = false := by
    rw [hhv]
    split
    · exact heq
    · exact hnv
  rw [hq'.insert_of_not_hit hnw', hp'.insert_of_not_hit hnv',
    hp.insert_of_not_hit hnv, hq.insert_of_not_hit hnw, hlt, hgt]
  have hcomm := insertIdx_insertIdx (v := v) (w := w) true hp.1 hq.1
  unfold insertionVsInsertion at hcomm
  rcases h with h | ⟨rfl, -⟩
  · simpa [h] using hcomm
  · simpa using hcomm

/-- Of two values that are inserted at one place, and of which none is
less, the last one comes first, if they are not equal. -/
theorem insert_insert_of_meet (hs : Alike eq sim)
    (hnv : hit lt eq l v = false) (hnw : hit lt eq l w = false)
    (h : p = q) (hlt : lt v w = false) (hgt : lt w v = false) :
    List.Forall₂ sim (insert lt eq (insert lt eq l v) w)
        (insert lt eq (insert lt eq l w) v) ↔ sim v w := by
  subst h
  obtain ⟨hhw, hq', -⟩ := hp.hit_insert hq hnv hvw
  obtain ⟨hhv, hp', -⟩ := hq.hit_insert hp hnw hwv
  rw [if_pos ⟨rfl, hlt⟩] at hhw
  rw [if_pos ⟨rfl, hgt⟩, hc.symm] at hhv
  cases heq : eq v w with
  | true =>
    rw [heq] at hhv hhw
    rw [insert_of_hit hhv, insert_of_hit hhw, hp.insert_of_not_hit hnv,
      hq.insert_of_not_hit hnw]
    exact hs.forall₂_insertIdx hp.1
  | false =>
    rw [heq] at hhv hhw
    rw [hq'.insert_of_not_hit hhw, hp'.insert_of_not_hit hhv,
      hp.insert_of_not_hit hnv, hq.insert_of_not_hit hnw, hlt, hgt]
    exact hs.forall₂_swap hp.1

theorem insert_insert_iff (hs : Alike eq sim) :
    List.Forall₂ sim (insert lt eq (insert lt eq l v) w)
        (insert lt eq (insert lt eq l w) v)
      ↔ InsertsCommute lt eq sim l v w := by
  rw [InsertsCommute, hp.meet_iff hq]
  cases hhv : hit lt eq l v with
  | true =>
    rw [insert_of_hit hhv]
    cases hhw : hit lt eq l w with
    | true => simp [insert_of_hit hhw, insert_of_hit hhv, hs.refl]
    | false => exact insert_insert_of_found hp hq hwv hs hhv hhw
  | false =>
    cases hhw : hit lt eq l w with
    | true =>
      rw [insert_of_hit hhw, hs.forall₂_comm, eq_comm (a := p)]
      exact insert_insert_of_found hq hp hvw hs hhw hhv
    | false =>
      have hcomm : ∀ {h : Prop}, insert lt eq (insert lt eq l v) w
          = insert lt eq (insert lt eq l w) v → h →
          (List.Forall₂ sim (insert lt eq (insert lt eq l v) w)
            (insert lt eq (insert lt eq l w) v) ↔ h) := by
        intro h heq hh
        rw [heq]
        exact iff_of_true (hs.forall₂ _) hh
      rcases Nat.lt_trichotomy p q with h | h | h
      · exact hcomm (insert_comm_of_lt hp hq hwv hc hvw hhv hhw (.inl h))
          fun heq => absurd heq (Nat.ne_of_lt h)
      · cases hlt : lt v w with
        | true =>
          exact hcomm (insert_comm_of_lt hp hq hwv hc hvw hhv hhw
            (.inr ⟨h, hlt⟩)) fun _ => .inl rfl
        | false =>
          cases hgt : lt w v with
          | true =>
            exact hcomm (insert_comm_of_lt hq hp hvw hc hwv hhw hhv
              (.inr ⟨h.symm, hgt⟩)).symm fun _ => .inr (.inl rfl)
          | false =>
            rw [insert_insert_of_meet hp hq hwv hc hvw hs hhv hhw h hlt
              hgt]
            simp [h]
      · exact hcomm (insert_comm_of_lt hq hp hvw hc hwv hhw hhv
          (.inl h)).symm fun heq => absurd heq (Nat.ne_of_gt h)

end Inserts

theorem insert_lost_iff (hc : Comparison lt eq) (hs : Alike eq sim)
    (hvw : Searchable lt (insert lt eq l v) w) :
    List.Forall₂ sim (insert lt eq (insert lt eq l v) w)
        (insert lt eq l w)
      ↔ InsertLost lt eq sim l v w := by
  rw [InsertLost, hp.meet_iff hq]
  cases hhv : hit lt eq l v with
  | true => simp [insert_of_hit hhv, hs.refl]
  | false =>
    obtain ⟨hhit, hsplit, -⟩ := hp.hit_insert hq hhv hvw
    have hlen := hsplit.length_insert eq
    simp only [hp.length_insert, hhv, Bool.false_eq_true, if_false] at hlen
    cases hhw : hit lt eq l w with
    | true =>
      rw [insert_of_hit hhw]
      refine iff_of_false (mt List.Forall₂.length_eq ?_) (by simp)
      split at hlen <;> omega
    | false =>
      by_cases h : p = q ∧ eq v w = true
      · rw [if_pos ⟨h.1, hc.apart _ _ h.2⟩, h.2] at hhit
        rw [insert_of_hit hhit, hp.insert_of_not_hit hhv,
          hq.insert_of_not_hit hhw, h.1, hs.forall₂_insertIdx hq.1]
        simp [h.2]
      · have hmiss : hit lt eq (insert lt eq l v) w = false := by
          rw [hhit]
          split
          · next h' => simpa [h'.1] using h
          · exact hhw
        rw [hmiss] at hlen
        simp only [Bool.false_eq_true, if_false] at hlen
        refine iff_of_false (mt List.Forall₂.length_eq ?_) ?_
        · simp only [hlen, hq.length_insert, hhw, Bool.false_eq_true,
            if_false]
          omega
        · rintro (h' | ⟨-, hmeet, heq, -⟩)
          · cases h'
          · exact h ⟨hmeet, heq⟩

/-- One value is not found, and the other one is erased: the first one
must still not be found. -/
theorem erase_erase_of_missing (hs : Alike eq sim)
    (hhv : hit lt eq l v = true) (hhw : hit lt eq l w = false) :
    List.Forall₂ sim (erase lt eq (erase lt eq l v) w) (erase lt eq l v)
      ↔ (p = q → nextHit lt eq l w = false) := by
  obtain ⟨hmeet, hne, hsplit⟩ := hp.hit_erase hq hhv
  rw [(hsplit.forall₂_erase hs).1]
  by_cases h : p = q
  · simp [hmeet h, h]
  · simp [hne h, h, hhw]

/-- Both values are found, as one element. -/
theorem erase_erase_of_meet (hs : Alike eq sim)
    (hhv : hit lt eq l v = true) (hhw : hit lt eq l w = true)
    (h : p = q) :
    List.Forall₂ sim (erase lt eq (erase lt eq l v) w)
        (erase lt eq (erase lt eq l w) v)
      ↔ nextHit lt eq l v = nextHit lt eq l w := by
  obtain ⟨hmeet, -, hsplit⟩ := hp.hit_erase hq hhv
  obtain ⟨hmeet', -, hsplit'⟩ := hq.hit_erase hp hhw
  have heq : erase lt eq l w = erase lt eq l v := by
    rw [hp.erase_of_hit hhv, hq.erase_of_hit hhw, h]
  have hw' := hmeet h
  have hv' := hmeet' h.symm
  rw [heq] at hv' hsplit' ⊢
  cases hnv : nextHit lt eq l v with
  | false =>
    rw [erase_of_not_hit (hv'.trans hnv), (hsplit.forall₂_erase hs).1, hw',
      eq_comm]
  | true =>
    cases hnw : nextHit lt eq l w with
    | false =>
      rw [erase_of_not_hit (hw'.trans hnw), (hsplit'.forall₂_erase hs).2,
        hv', hnv]
    | true =>
      rw [hsplit.erase_of_hit (hw'.trans hnw),
        hsplit'.erase_of_hit (hv'.trans hnv), h]
      exact iff_of_true (hs.forall₂ _) rfl

theorem erase_erase_iff (hs : Alike eq sim) :
    List.Forall₂ sim (erase lt eq (erase lt eq l v) w)
        (erase lt eq (erase lt eq l w) v)
      ↔ ErasesCommute lt eq l v w := by
  rw [ErasesCommute, hp.meet_iff hq]
  cases hhv : hit lt eq l v with
  | false =>
    rw [erase_of_not_hit hhv]
    cases hhw : hit lt eq l w with
    | false => simp [erase_of_not_hit hhw, erase_of_not_hit hhv, hs.refl]
    | true =>
      rw [hs.forall₂_comm, eq_comm (a := p)]
      exact erase_erase_of_missing hq hp hs hhw hhv
  | true =>
    cases hhw : hit lt eq l w with
    | false =>
      rw [erase_of_not_hit hhw]
      exact erase_erase_of_missing hp hq hs hhv hhw
    | true =>
      by_cases h : p = q
      · simpa only [h, true_imp_iff] using
          erase_erase_of_meet hp hq hs hhv hhw h
      · obtain ⟨-, hne, hsplit⟩ := hp.hit_erase hq hhv
        obtain ⟨-, hne', hsplit'⟩ := hq.hit_erase hp hhw
        rw [hsplit.erase_of_hit ((hne h).trans hhw), hsplit'.erase_of_hit
          ((hne' (Ne.symm h)).trans hhv), hp.erase_of_hit hhv,
          hq.erase_of_hit hhw]
        have hcomm := eraseIdx_eraseIdx (l := l) h
        simp only [removalVsRemoval] at hcomm
        rw [hcomm]
        exact iff_of_true (hs.forall₂ _) fun h' => absurd h' h

theorem erase_lost_iff (hs : Alike eq sim) :
    List.Forall₂ sim (erase lt eq (erase lt eq l v) w) (erase lt eq l w)
      ↔ EraseLost lt eq l v w := by
  rw [EraseLost, hp.meet_iff hq]
  cases hhv : hit lt eq l v with
  | false => simp [erase_of_not_hit hhv, hs.refl]
  | true =>
    obtain ⟨hmeet, hne, hsplit⟩ := hp.hit_erase hq hhv
    have hlen := hsplit.length_erase eq
    have hpos := hp.lt_length_of_hit hhv
    rw [hp.length_erase, hhv, if_pos rfl] at hlen
    cases hhw : hit lt eq l w with
    | false =>
      rw [erase_of_not_hit hhw]
      refine iff_of_false (mt List.Forall₂.length_eq ?_) (by simp)
      split at hlen <;> omega
    | true =>
      by_cases h : p = q
      · have heq : erase lt eq l w = erase lt eq l v := by
          rw [hp.erase_of_hit hhv, hq.erase_of_hit hhw, h]
        rw [heq, (hsplit.forall₂_erase hs).1, hmeet h]
        simp [h]
      · have hpos' := hsplit.lt_length_of_hit ((hne h).trans hhw)
        rw [hp.length_erase, hhv, if_pos rfl] at hpos'
        rw [(hne h).trans hhw, if_pos rfl] at hlen
        refine iff_of_false (mt List.Forall₂.length_eq ?_) (by simp [h])
        rw [hlen, hq.length_erase, hhw, if_pos rfl]
        omega

variable (hs : Alike eq sim)

include hs

theorem erase_overwritten_iff :
    List.Forall₂ sim (insert lt eq (erase lt eq l v) w) (insert lt eq l w)
      ↔ EraseOverwritten lt eq sim l v w := by
  rw [EraseOverwritten, hp.meet_iff hq, hq.lowerBound]
  cases hhv : hit lt eq l v with
  | false => simp [erase_of_not_hit hhv, hs.refl]
  | true =>
    obtain ⟨hmeet, hne, hsplit⟩ := hp.hit_erase hq hhv
    have hlen := hsplit.length_insert eq
    have hlenw := hq.length_insert eq
    have hpos := hp.lt_length_of_hit hhv
    rw [hp.length_erase, hhv, if_pos rfl] at hlen
    cases hhw : hit lt eq l w with
    | false =>
      simp only [hhw, Bool.false_eq_true, if_false] at hlenw
      refine iff_of_false (mt List.Forall₂.length_eq ?_) (by simp)
      split at hlen <;> omega
    | true =>
      rw [insert_of_hit hhw]
      obtain ⟨x, hx, -⟩ := exists_of_hit hq hhw
      by_cases h : p = q
      · subst h
        cases hnw : nextHit lt eq l w with
        | true =>
          rw [(hmeet rfl).trans hnw, if_pos rfl] at hlen
          exact iff_of_false (mt List.Forall₂.length_eq (by omega)) (by simp)
        | false =>
          rw [hsplit.insert_of_not_hit ((hmeet rfl).trans hnw),
            hp.erase_of_hit hhv, show afterErase p p = p by simp [afterErase],
            hs.forall₂_replace hx]
          simp [hx]
      · rw [(hne h).trans hhw, if_pos rfl] at hlen
        exact iff_of_false (mt List.Forall₂.length_eq (by omega))
          (by simp [h])

variable (hc : Comparison lt eq) (hwv : Searchable lt (insert lt eq l w) v)

include hc hwv

theorem insert_undone_iff :
    List.Forall₂ sim (erase lt eq (insert lt eq l w) v) (erase lt eq l v)
      ↔ InsertUndone lt eq l v w := by
  rw [InsertUndone, hp.meet_iff hq]
  cases hhw : hit lt eq l w with
  | true => simp [insert_of_hit hhw, hs.refl]
  | false =>
    obtain ⟨hhit, hsplit, -⟩ := hq.hit_insert hp hhw hwv
    have hlen := hsplit.length_erase eq
    have hlenv := hp.length_erase eq
    simp only [hq.length_insert, hhw, Bool.false_eq_true, if_false] at hlen
    cases hhv : hit lt eq l v with
    | true =>
      have hpos := hp.lt_length_of_hit hhv
      rw [hhv, if_pos rfl] at hlenv
      refine iff_of_false (mt List.Forall₂.length_eq ?_) (by simp)
      split at hlen <;> omega
    | false =>
      rw [erase_of_not_hit hhv]
      by_cases h : p = q ∧ eq w v = true
      · obtain ⟨rfl, heq⟩ := h
        have hlt := hc.apart _ _ heq
        rw [if_pos ⟨rfl, hlt⟩] at hhit
        rw [hsplit.erase_of_hit (hhit.trans heq), hq.insert_of_not_hit hhw,
          hlt, if_neg (by simp), List.eraseIdx_insertIdx_self]
        exact iff_of_true (hs.forall₂ l) (.inr ⟨rfl, rfl, heq⟩)
      · have hmiss : hit lt eq (insert lt eq l w) v = false := by
          rw [hhit]
          split
          · next h' => simpa [h'.1] using h
          · exact hhv
        rw [hmiss] at hlen
        simp only [Bool.false_eq_true, if_false] at hlen
        exact iff_of_false (mt List.Forall₂.length_eq (by omega))
          (by simpa using h)

/-- The value that is erased is found, and not the one that is inserted,
and both at one place: the new value must be put before the old one. -/
theorem erase_insert_of_meet (hhv : hit lt eq l v = true)
    (hhw : hit lt eq l w = false) (h : p = q) :
    List.Forall₂ sim (insert lt eq (erase lt eq l v) w)
        (erase lt eq (insert lt eq l w) v)
      ↔ lt w v = true ∧ nextHit lt eq l w = false := by
  subst h
  have hpos := hp.lt_length_of_hit hhv
  obtain ⟨hmeet, -, hsplit⟩ := hp.hit_erase hq hhv
  obtain ⟨hhit, hsplit', -⟩ := hq.hit_insert hp hhw hwv
  have hnext := hmeet rfl
  have hleft := hsplit.length_insert eq
  have hright := hsplit'.length_erase eq
  rw [hp.length_erase, hhv, if_pos rfl, hnext] at hleft
  simp only [hq.length_insert, hhw, Bool.false_eq_true, if_false] at hright
  cases hnw : nextHit lt eq l w with
  | true =>
    rw [hnw, if_pos rfl] at hleft
    refine iff_of_false (mt List.Forall₂.length_eq ?_) (by simp)
    split at hright <;> omega
  | false =>
    rw [hsplit.insert_of_not_hit (hnext.trans hnw), hp.erase_of_hit hhv,
      show afterErase p p = p by simp [afterErase]] at hleft ⊢
    cases hlt : lt w v with
    | true =>
      have hfound : hit lt eq (insert lt eq l w) v = true := by
        rw [hhit, if_neg (by simp [hlt]), hhv]
      have hcomm := insertIdx_eraseIdx (k := p) (v := w) hpos
      simp only [insertionVsRemoval, afterInsert, Nat.lt_irrefl,
        if_false] at hcomm
      rw [hsplit'.erase_of_hit hfound, hq.insert_of_not_hit hhw, if_pos hlt,
        hcomm]
      exact iff_of_true (hs.forall₂ _) ⟨rfl, rfl⟩
    | false =>
      refine iff_of_false (fun hf => ?_) (by simp)
      rw [if_pos ⟨rfl, hlt⟩] at hhit
      cases heq : eq w v with
      | false =>
        have := hf.length_eq
        simp only [hhit, heq, Bool.false_eq_true, if_false] at hright
        simp only [hnw, Bool.false_eq_true, if_false] at hleft
        omega
      | true =>
        -- The old value would have to stand for the new one.
        obtain ⟨x, hx, hxv⟩ := exists_of_hit hp hhv
        rw [hsplit'.erase_of_hit (hhit.trans heq), hq.insert_of_not_hit hhw,
          hlt, if_neg (by simp), List.eraseIdx_insertIdx_self,
          hs.forall₂_replace hx] at hf
        rw [hit_iff hq, hx] at hhw
        rcases hs.cases _ _ hf with hwx | rfl
        · rw [hc.symm] at hwx
          simp [hwx] at hhw
        · simp [hc.self _ _ hxv] at hhw

/-- Away from each other they do not disturb each other. -/
theorem erase_insert_of_found (hhv : hit lt eq l v = true)
    (hhw : hit lt eq l w = false) :
    List.Forall₂ sim (insert lt eq (erase lt eq l v) w)
        (erase lt eq (insert lt eq l w) v)
      ↔ (p = q → lt w v = true ∧ nextHit lt eq l w = false) := by
  have hpos := hp.lt_length_of_hit hhv
  obtain ⟨-, hne, hsplit⟩ := hp.hit_erase hq hhv
  obtain ⟨hhit, hsplit', hbefore, hbehind⟩ := hq.hit_insert hp hhw hwv
  have hcomm := insertIdx_eraseIdx (k := q) (v := w) hpos
  simp only [insertionVsRemoval] at hcomm
  by_cases h : p = q
  · simpa only [h, true_imp_iff] using
      erase_insert_of_meet hp hq hs hc hwv hhv hhw h
  · have hfound : hit lt eq (insert lt eq l w) v = true := by
      rw [hhit, if_neg fun h' => h h'.1.symm, hhv]
    have hplace : (if lt w v then p + 1 else p) = afterInsert q p := by
      unfold afterInsert
      rcases Nat.lt_or_gt_of_ne h with hlt | hlt
      · rw [hbehind hlt, if_pos hlt]
        rfl
      · rw [if_pos (hbefore hlt), if_neg (by omega)]
    rw [hplace] at hsplit'
    rw [hsplit.insert_of_not_hit ((hne h).trans hhw),
      hsplit'.erase_of_hit hfound, hp.erase_of_hit hhv,
      hq.insert_of_not_hit hhw, hcomm]
    exact iff_of_true (hs.forall₂ _) fun h' => absurd h' h

theorem erase_insert_iff :
    List.Forall₂ sim (insert lt eq (erase lt eq l v) w)
        (erase lt eq (insert lt eq l w) v)
      ↔ EraseInsertCommute lt eq l v w := by
  rw [EraseInsertCommute, hp.meet_iff hq]
  cases hhv : hit lt eq l v with
  | false =>
    rw [erase_of_not_hit hhv]
    cases hhw : hit lt eq l w with
    | true => simp [insert_of_hit hhw, erase_of_not_hit hhv, hs.refl]
    | false =>
      obtain ⟨hhit, hsplit, -⟩ := hq.hit_insert hp hhw hwv
      rw [(hsplit.forall₂_erase hs).2, hhit]
      split
      · next h => simp [h.1]
      · next h =>
          refine iff_of_true hhv fun hmeet => ?_
          cases heq : eq w v with
          | false => rfl
          | true => exact absurd ⟨hmeet.symm, hc.apart _ _ heq⟩ h
  | true =>
    cases hhw : hit lt eq l w with
    | true =>
      obtain ⟨hmeet, hne, hsplit⟩ := hp.hit_erase hq hhv
      rw [insert_of_hit hhw, (hsplit.forall₂_insert hs).1]
      by_cases h : p = q
      · simp [hmeet h, h]
      · simp [hne h, h, hhw]
    | false => exact erase_insert_of_found hp hq hs hc hwv hhv hhw

end Orders

end Ot.SortedSet
