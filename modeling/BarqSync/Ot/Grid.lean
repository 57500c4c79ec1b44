/-
Merging two SEQUENCES of operations, pair by pair.

# The grid

`mergeRow` takes one operation of the first sequence through the whole
second sequence, rewriting both on the way; `mergeGrid` does so for the
first sequence, operation by operation. A pair of operations meets when
the one has come past everything in front of the other; `Meets` lists
those pairs with the state they meet in.

# The result

If the square of every pair that meets closes, the large square does
(`mergeGrid_converges`). The argument is one row at a time: a row closes
(`mergeRow_converges`), and behind it the rest of the first sequence
starts where the row's own operation left the state.
-/
import BarqSync.Ot.Converge
import Mathlib.Data.List.Forall2

namespace Ot

universe u v

variable {ε μ : Type u} {σ α β : Type v} {run : α → σ → Except ε σ}
  {R : α → β → Prop} {as : List α} {bs : List β}

/-- A sequence of operations. -/
def runAll (run : α → σ → Except ε σ) : List α → σ → Except ε σ
  | [], s => .ok s
  | a :: as, s => run a s >>= runAll run as

theorem runAll_append (as bs : List α) (s : σ) :
    runAll run (as ++ bs) s = runAll run as s >>= runAll run bs := by
  induction as generalizing s with
  | nil => rfl
  | cons a as ih =>
    rw [List.cons_append, runAll, runAll]
    cases run a s with
    | error e => rfl
    | ok t => exact ih t

theorem runAll_map {γ : Type v} (f : γ → α) (as : List γ) :
    runAll run (as.map f) = runAll (fun a => run (f a)) as := by
  induction as with
  | nil => rfl
  | cons a as ih =>
    funext s
    rw [List.map_cons, runAll, ih, runAll]

/-- An optional operation is a sequence of at most one. -/
theorem runAll_toList (a : Option α) (s : σ) :
    runAll run a.toList s = runOpt (a.map run) s := by
  cases a with
  | none => rfl
  | some a =>
    simp only [Option.toList_some, runAll, Option.map_some, runOpt_some]
    cases run a s <;> rfl

-- ===== related sublists

theorem sublistForall₂_append {cs : List β}
    (h : List.SublistForall₂ R as (bs ++ cs)) :
    ∃ front rest, as = front ++ rest ∧ List.SublistForall₂ R front bs
      ∧ List.SublistForall₂ R rest cs := by
  induction bs generalizing as with
  | nil => exact ⟨[], as, rfl, .nil, h⟩
  | cons b bs ih =>
    cases h with
    | nil => exact ⟨[], [], rfl, .nil, .nil⟩
    | cons hr h =>
      obtain ⟨front, rest, rfl, hf, hrest⟩ := ih h
      exact ⟨_ :: front, rest, rfl, .cons hr hf, hrest⟩
    | cons_right h =>
      obtain ⟨front, rest, rfl, hf, hrest⟩ := ih h
      exact ⟨front, rest, rfl, .cons_right hf, hrest⟩

theorem mem_of_sublistForall2 (h : List.SublistForall₂ R as bs) {a : α}
    (ha : a ∈ as) :
    ∃ b ∈ bs, R a b := by
  induction h with
  | nil => cases ha
  | cons hr _ ih =>
    rcases List.mem_cons.1 ha with rfl | ha
    · exact ⟨_, List.mem_cons_self, hr⟩
    · obtain ⟨b, hb, hab⟩ := ih ha
      exact ⟨b, List.mem_cons_of_mem _ hb, hab⟩
  | cons_right _ ih =>
    obtain ⟨b, hb, hab⟩ := ih ha
    exact ⟨b, List.mem_cons_of_mem _ hb, hab⟩

-- ===== the merge

section Merge

variable (merge : α → β → Except μ (Option α × Option β))

/-- One operation through a sequence. Once it is discarded the rest of
the sequence stays as it is. -/
def mergeRow : α → List β → Except μ (Option α × List β)
  | a, [] => .ok (some a, [])
  | a, b :: bs => do
      let p ← merge a b
      match p.1 with
      | none => .ok (none, p.2.toList ++ bs)
      | some a' => do
          let q ← mergeRow a' bs
          .ok (q.1, p.2.toList ++ q.2)

/-- A sequence through another one. -/
def mergeGrid : List α → List β → Except μ (List α × List β)
  | [], bs => .ok ([], bs)
  | a :: as, bs => do
      let p ← mergeRow merge a bs
      let q ← mergeGrid as p.2
      .ok (p.1.toList ++ q.1, q.2)

variable {merge} {A : α → Prop} {B : β → Prop} {bs bs' : List β}

/-- What a row leaves of a sequence comes from the sequence, in order and
by whatever a merge keeps. -/
theorem mergeRow_forall {R : β → β → Prop}
    (hA : ∀ a b a' b', A a → B b → merge a b = .ok (some a', b') → A a')
    (hR : ∀ a b a' b', A a → B b → merge a b = .ok (a', some b') → R b' b)
    (hrefl : ∀ b, R b b) {a : α} {a' : Option α} (ha : A a)
    (hbs : ∀ b ∈ bs, B b) (h : mergeRow merge a bs = .ok (a', bs')) :
    (∀ x ∈ a', A x) ∧ List.SublistForall₂ R bs' bs := by
  have : Std.Refl R := ⟨hrefl⟩
  induction bs generalizing a a' bs' with
  | nil =>
    cases h
    exact ⟨by simpa using ha, .nil⟩
  | cons b bs ih =>
    obtain ⟨⟨x, y⟩, hxy, h⟩ := bind_eq_ok.1 h
    have hb := hbs b List.mem_cons_self
    -- In front of the rest stands `b` rewritten, or nothing.
    have hhead : ∀ rest, List.SublistForall₂ R rest bs →
        List.SublistForall₂ R (y.toList ++ rest) (b :: bs) := by
      intro rest hrest
      cases y with
      | none => exact .cons_right hrest
      | some b' => exact .cons (hR _ _ _ _ ha hb hxy) hrest
    cases x with
    | none =>
      cases h
      exact ⟨by simp, hhead bs (refl bs)⟩
    | some a2 =>
      obtain ⟨⟨a3, bs2⟩, hrow, h⟩ := bind_eq_ok.1 h
      cases h
      obtain ⟨hx, hbs2⟩ := ih (hA _ _ _ _ ha hb hxy)
        (fun c hc => hbs c (List.mem_cons_of_mem _ hc)) hrow
      exact ⟨hx, hhead bs2 hbs2⟩

/-- A grid of two sequences is the one on top of the other. -/
theorem mergeGrid_append (as as2 : List α) (bs : List β) :
    mergeGrid merge (as ++ as2) bs
      = (do
        let p ← mergeGrid merge as bs
        let q ← mergeGrid merge as2 p.2
        .ok (p.1 ++ q.1, q.2)) := by
  induction as generalizing bs with
  | nil =>
    simp only [List.nil_append, mergeGrid, ok_bind]
    cases mergeGrid merge as2 bs <;> rfl
  | cons a as ih =>
    simp only [List.cons_append, mergeGrid]
    cases mergeRow merge a bs with
    | error e => rfl
    | ok p =>
      simp only [ok_bind, ih]
      cases mergeGrid merge as p.2 with
      | error e => rfl
      | ok q =>
        simp only [ok_bind]
        cases mergeGrid merge as2 q.2 <;> simp

section

variable (hA : ∀ a b a' b', A a → B b → merge a b = .ok (some a', b') → A
  a')

include hA

/-- What a grid leaves of the second sequence. -/
theorem mergeGrid_forall {R : β → β → Prop}
    (hR : ∀ a b a' b', A a → B b → merge a b = .ok (a', some b') → R b' b)
    (hrefl : ∀ b, R b b) (htrans : ∀ b c d, R b c → R c d → R b d)
    (hB : ∀ b b', R b' b → B b → B b') {as' : List α}
    (has : ∀ a ∈ as, A a) (hbs : ∀ b ∈ bs, B b)
    (h : mergeGrid merge as bs = .ok (as', bs')) :
    List.SublistForall₂ R bs' bs := by
  have : Std.Refl R := ⟨hrefl⟩
  have : IsTrans β R := ⟨htrans⟩
  induction as generalizing bs as' bs' with
  | nil =>
    cases h
    exact refl bs
  | cons a as ih =>
    obtain ⟨⟨x, bs1⟩, hrow, h⟩ := bind_eq_ok.1 h
    obtain ⟨⟨as1, bs2⟩, hgrid, h⟩ := bind_eq_ok.1 h
    cases h
    obtain ⟨-, hbs1⟩ := mergeRow_forall hA hR hrefl
      (has a List.mem_cons_self) hbs hrow
    refine IsTrans.trans _ _ _ (ih (fun c hc => has c (List.mem_cons_of_mem _ hc))
      (fun b' hb' => ?_) hgrid) hbs1
    obtain ⟨b, hb, hr⟩ := mem_of_sublistForall2 hbs1 hb'
    exact hB b b' hr (hbs b hb)

/-- A row may leave out the operations that it passes without effect. -/
theorem mergeRow_filter {sel : β → Bool}
    (hsel : ∀ a b a' b', A a → B b → merge a b = .ok (a', some b') →
      sel b' = sel b) (hkeep : ∀ a b, A a → B b → sel b = false →
      merge a b = .ok (some a, some b)) {a : α} (ha : A a)
    (hbs : ∀ b ∈ bs, B b) :
    mergeRow merge a (bs.filter sel)
        = (fun p => (p.1, p.2.filter sel)) <$> mergeRow merge a bs
      ∧ ∀ a' bs', mergeRow merge a bs = .ok (a', bs') →
        bs'.filter (fun b => !sel b) = bs.filter fun b => !sel b := by
  induction bs generalizing a with
  | nil =>
    refine ⟨rfl, fun a' bs' h => ?_⟩
    cases h
    rfl
  | cons b bs ih =>
    have hb := hbs b List.mem_cons_self
    have hrest : ∀ c ∈ bs, B c := fun c hc => hbs c (List.mem_cons_of_mem _ hc)
    cases hs : sel b with
    | false =>
      -- The pair passes, so the row is the one behind it.
      obtain ⟨hrow, hother⟩ := ih ha hrest
      have hcons : mergeRow merge a (b :: bs)
          = (fun p => (p.1, b :: p.2)) <$> mergeRow merge a bs := by
        simp only [mergeRow, hkeep a b ha hb hs, ok_bind]
        cases mergeRow merge a bs <;> rfl
      constructor
      · rw [List.filter_cons_of_neg (by simp [hs]), hrow, hcons]
        cases mergeRow merge a bs with
        | error e => rfl
        | ok p => simp [hs]
      · intro a' bs' h
        rw [hcons] at h
        obtain ⟨⟨x, y⟩, hxy, h⟩ := map_eq_ok.1 h
        cases h
        simpa [hs] using hother x y hxy
    | true =>
      rw [List.filter_cons_of_pos hs]
      simp only [mergeRow]
      cases hm : merge a b with
      | error e => exact ⟨rfl, fun _ _ h => by cases h⟩
      | ok p =>
        obtain ⟨x, y⟩ := p
        have hy : y.toList.filter sel = y.toList
            ∧ y.toList.filter (fun b => !sel b) = [] := by
          cases y with
          | none => exact ⟨rfl, rfl⟩
          | some b' => simp [hsel a b x b' ha hb hm, hs]
        cases x with
        | none =>
          refine ⟨by simp [hy.1], fun a' bs' h => ?_⟩
          cases h
          simp [hs, hy.2]
        | some a2 =>
          obtain ⟨hrow, hother⟩ := ih (hA _ _ _ _ ha hb hm) hrest
          simp only [ok_bind, hrow]
          constructor
          · cases mergeRow merge a2 bs with
            | error e => rfl
            | ok q => simp [hy.1]
          · intro a' bs' h
            obtain ⟨⟨u, w⟩, huw, h⟩ := bind_eq_ok.1 h
            cases h
            simpa [hs, hy.2] using hother u w huw

end

end Merge

section Meeting

variable {merge : α → β → Except μ (Option α × Option β)}
  {runA : α → σ → Except ε σ} {runB : β → σ → Except ε σ} {bs' : List β}

/-- In the merge of two sequences from a state, `x` and `y` meet in the
state `t`. -/
inductive Meets (merge : α → β → Except μ (Option α × Option β))
    (runA : α → σ → Except ε σ) (runB : β → σ → Except ε σ) :
    σ → List α → List β → σ → α → β → Prop
  | here {s : σ} {a : α} {as : List α} {b : β} {bs : List β} :
      Meets merge runA runB s (a :: as) (b :: bs) s a b
  | along {s s' t : σ} {a a' x : α} {as : List α} {b y : β}
      {b' : Option β} {bs : List β} (hrun : runB b s = .ok s')
      (hmerge : merge a b = .ok (some a', b'))
      (hmeets : Meets merge runA runB s' [a'] bs t x y) :
      Meets merge runA runB s (a :: as) (b :: bs) t x y
  | down {s s' t : σ} {a x : α} {a' : Option α} {as : List α} {y : β}
      {bs bs' : List β} (hrun : runA a s = .ok s')
      (hmerge : mergeRow merge a bs = .ok (a', bs'))
      (hmeets : Meets merge runA runB s' as bs' t x y) :
      Meets merge runA runB s (a :: as) bs t x y

section Kept

variable {P : α → Prop} {Q : β → Prop}
  (hkeep : ∀ {a b a' b'}, P a → Q b → merge a b = .ok (a', b') →
    (∀ x ∈ a', P x) ∧ ∀ y ∈ b', Q y)

include hkeep

/-- What merging keeps of operations, a row keeps. -/
theorem mergeRow_kept {a : α} {a' : Option α} {bs bs' : List β} (ha : P a)
    (hbs : ∀ b ∈ bs, Q b) (h : mergeRow merge a bs = .ok (a', bs')) :
    ∀ b ∈ bs', Q b := by
  induction bs generalizing a a' bs' with
  | nil =>
    cases h
    simp
  | cons b bs ih =>
    obtain ⟨⟨x, y⟩, hxy, h⟩ := bind_eq_ok.1 h
    obtain ⟨hx, hy⟩ := hkeep ha (hbs b (by simp)) hxy
    have hrest : ∀ b ∈ bs, Q b := fun b hb => hbs b (by simp [hb])
    cases x with
    | none =>
      cases h
      intro b hb
      rcases List.mem_append.1 hb with hb | hb
      · exact hy b (by simpa using hb)
      · exact hrest b hb
    | some a2 =>
      obtain ⟨⟨u, w⟩, huw, h⟩ := bind_eq_ok.1 h
      cases h
      intro b hb
      rcases List.mem_append.1 hb with hb | hb
      · exact hy b (by simpa using hb)
      · exact ih (hx a2 rfl) hrest huw b hb

/-- And what meets has it. -/
theorem Meets.kept {s t : σ} {as : List α} {bs : List β} {x : α} {y : β}
    (h : Meets merge runA runB s as bs t x y) (has : ∀ a ∈ as, P a)
    (hbs : ∀ b ∈ bs, Q b) : P x ∧ Q y := by
  induction h with
  | here => exact ⟨has _ (by simp), hbs _ (by simp)⟩
  | along hrun hmerge hmeets ih =>
    have hx := (hkeep (has _ (by simp)) (hbs _ (by simp)) hmerge).1
    exact ih (by simpa using hx _ rfl) fun b hb => hbs b (by simp [hb])
  | down hrun hmerge hmeets ih =>
    exact ih (fun a ha => has a (by simp [ha]))
      (mergeRow_kept hkeep (has _ (by simp)) hbs hmerge)

end Kept

/-- The square of a pair closes, if both go through. -/
def Squares (merge : α → β → Except μ (Option α × Option β))
    (runA : α → σ → Except ε σ) (runB : β → σ → Except ε σ)
    (t : σ) (x : α) (y : β) : Prop :=
  ∀ x' y' t₁ t₂, merge x y = .ok (x', y') → runA x t = .ok t₁ →
    runB y t = .ok t₂ →
    Converges (runA x) (runOpt (y'.map runB)) (runB y) (runOpt (x'.map runA)) t

/-- A row closes when the squares along it do. -/
theorem mergeRow_converges {s s1 s2 : σ} {a : α} {a' : Option α}
    (hpairs : ∀ t x y, Meets merge runA runB s [a] bs t x y →
      Squares merge runA runB t x y) (ha : runA a s = .ok s1)
    (hbs : runAll runB bs s = .ok s2)
    (hm : mergeRow merge a bs = .ok (a', bs')) :
    Converges (runA a) (runAll runB bs') (runAll runB bs)
      (runOpt (a'.map runA)) s := by
  induction bs generalizing s s1 a a' bs' with
  | nil =>
    cases hm
    cases hbs
    exact (converges_iff ha rfl).2 ⟨s1, rfl, ha⟩
  | cons b bs ih =>
    obtain ⟨⟨x, y⟩, hxy, hm⟩ := bind_eq_ok.1 hm
    obtain ⟨t, hb, hbs'⟩ := bind_eq_ok.1 hbs
    obtain ⟨u, hu1, hu2⟩ := (converges_iff ha hb).1
      (hpairs s a b .here x y s1 t hxy ha hb)
    rw [converges_iff ha hbs]
    cases x with
    | none =>
      -- The row ends here, and the rest runs from the same state.
      cases hm
      cases hu2
      refine ⟨s2, ?_, rfl⟩
      rw [runAll_append, runAll_toList, hu1]
      exact hbs'
    | some a2 =>
      obtain ⟨⟨a3, bs2⟩, hrow, hm⟩ := bind_eq_ok.1 hm
      cases hm
      have hpairs' : ∀ t' x' y', Meets merge runA runB t [a2] bs t' x' y' →
          Squares merge runA runB t' x' y' :=
        fun t' x' y' h => hpairs t' x' y' (.along hb hxy h)
      obtain ⟨w, hw1, hw2⟩ := (converges_iff hu2 hbs').1
        (ih hpairs' hu2 hbs' hrow)
      refine ⟨w, ?_, hw2⟩
      rw [runAll_append, runAll_toList, hu1]
      exact hw1

/-- The merge of two sequences converges when every pair that meets
does. -/
theorem mergeGrid_converges {s s1 s2 : σ} {as' : List α}
    (hpairs : ∀ t x y, Meets merge runA runB s as bs t x y →
      Squares merge runA runB t x y) (has : runAll runA as s = .ok s1)
    (hbs : runAll runB bs s = .ok s2)
    (hm : mergeGrid merge as bs = .ok (as', bs')) :
    Converges (runAll runA as) (runAll runB bs') (runAll runB bs)
      (runAll runA as') s := by
  induction as generalizing s s2 bs as' bs' with
  | nil =>
    cases hm
    cases has
    exact (converges_iff rfl hbs).2 ⟨s2, hbs, rfl⟩
  | cons a as ih =>
    obtain ⟨⟨x, bs1⟩, hrow, hm⟩ := bind_eq_ok.1 hm
    obtain ⟨⟨as1, bs2⟩, hgrid, hm⟩ := bind_eq_ok.1 hm
    cases hm
    obtain ⟨t, ha, has'⟩ := bind_eq_ok.1 has
    have hrowPairs : ∀ t' x' y', Meets merge runA runB s [a] bs t' x' y' →
        Squares merge runA runB t' x' y' := by
      intro t' x' y' h
      -- A pair of the first row is a pair of the grid.
      cases h with
      | here => exact hpairs _ _ _ .here
      | along hb hab h => exact hpairs _ _ _ (.along hb hab h)
      | down _ _ h => cases h
    obtain ⟨u, hu1, hu2⟩ := (converges_iff ha hbs).1
      (mergeRow_converges hrowPairs ha hbs hrow)
    obtain ⟨w, hw1, hw2⟩ := (converges_iff has' hu1).1
      (ih (fun t' x' y' h => hpairs t' x' y' (.down ha hrow h)) has' hu1 hgrid)
    rw [converges_iff has hbs]
    refine ⟨w, hw1, ?_⟩
    rw [runAll_append, runAll_toList, hu2]
    exact hw2

end Meeting

end Ot
