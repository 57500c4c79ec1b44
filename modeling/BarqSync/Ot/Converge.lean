/-
Convergence of two concurrent operations, for any state type: the two
sides of the square that operational transformation has to close.

# Contents

An operation is a function into `Except`, because it may refuse the
state it is run on. `Converges f g' g f' x` says that `f` then `g'` and
`g` then `f'` both go through from `x` and end in the same state; a
discarded operation is `Except.ok`, which changes nothing.

Operations on a large state act on a part of it. `PartialLens` is a part
that may be missing, `modify` runs an operation on it, and the two results
used everywhere are `converges_modify_iff` (a square inside a part is a
square of the whole, and only then) and `converges_of_independent`
(operations on parts that do not overlap need no transformation).
-/
import Mathlib.Logic.Basic
import Mathlib.Tactic.Common

namespace Ot

universe u v

variable {ε : Type u} {α β : Type v} {f g f' g' : α → Except ε α}
  {x a b : α} {γ δ : Type v} {φ : α → β}

-- ===== refusing computations

theorem bind_eq_ok {x : Except ε γ} {f : γ → Except ε δ} {b : δ} :
    (x >>= f) = .ok b ↔ ∃ a, x = .ok a ∧ f a = .ok b := by
  cases x with
  | error e => simp [bind, Except.bind]
  | ok a => simp [bind, Except.bind]

theorem map_eq_ok {x : Except ε γ} {f : γ → δ} {b : δ} :
    (f <$> x) = .ok b ↔ ∃ a, x = .ok a ∧ f a = b := by
  cases x with
  | error e => simp [Functor.map, Except.map]
  | ok a => simp [Functor.map, Except.map]

@[simp] theorem ok_bind (a : γ) (f : γ → Except ε δ) :
    ((.ok a : Except ε γ) >>= f) = f a := rfl

@[simp] theorem error_bind (e : ε) (f : γ → Except ε δ) :
    ((.error e : Except ε γ) >>= f) = .error e := rfl

@[simp] theorem map_ok (f : γ → δ) (a : γ) :
    (f <$> (.ok a : Except ε γ)) = .ok (f a) := rfl

@[simp] theorem map_error (f : γ → δ) (e : ε) :
    (f <$> (.error e : Except ε γ)) = .error e := rfl

-- ===== convergence

/-- `f` then `g'`, and `g` then `f'`, lead from `x` to one state. -/
def Converges (f g' g f' : α → Except ε α) (x : α) : Prop :=
  ∃ y, (f x >>= g') = .ok y ∧ (g x >>= f') = .ok y

theorem Converges.symm (h : Converges f g' g f' x) :
    Converges g f' f g' x := by
  obtain ⟨y, hf, hg⟩ := h
  exact ⟨y, hg, hf⟩

theorem converges_comm : Converges f g' g f' x ↔ Converges g f' f g' x :=
  ⟨Converges.symm, Converges.symm⟩

section

variable (hf : f x = .ok a) (hg : g x = .ok b)

include hf hg

/-- Convergence, from the states the two operations reach. -/
theorem converges_iff :
    Converges f g' g f' x ↔ ∃ y, g' a = .ok y ∧ f' b = .ok y := by
  simp [Converges, hf, hg]

/-- When the second operation is discarded, running the first one after
it must give what the first one gives alone. -/
theorem converges_discard_right :
    Converges f .ok g f' x ↔ f' b = .ok a := by
  simp [converges_iff hf hg]

theorem converges_discard_left :
    Converges f g' g .ok x ↔ g' a = .ok b := by
  simp [converges_iff hf hg]

end

/-- An operation that may have been discarded. -/
def runOpt (f : Option (α → Except ε α)) : α → Except ε α := f.getD .ok

@[simp] theorem runOpt_none : runOpt (none : Option (α → Except ε α)) = .ok :=
  rfl

@[simp] theorem runOpt_some (f : α → Except ε α) : runOpt (some f) = f := rfl

/-- Only what the first operations do in the given state counts, and
what the second ones do after them. -/
theorem converges_congr {F G' G F' : α → Except ε α} (hf : f x = F x)
    (hg : g x = G x) (hg' : ∀ a, F x = .ok a → g' a = G' a)
    (hf' : ∀ b, G x = .ok b → f' b = F' b) :
    Converges f g' g f' x ↔ Converges F G' G F' x := by
  unfold Converges
  rw [hf, hg]
  cases hfx : F x with
  | error e => simp
  | ok a =>
    cases hgx : G x with
    | error e => simp
    | ok b => simp [hg' a hfx, hf' b hgx]

/-- Operations that simulate others along an embedding of the states
converge exactly when the others do. -/
theorem converges_map_iff (hφ : Function.Injective φ)
    {F G' G F' : β → Except ε β} (hf : ∀ a, F (φ a) = φ <$> f a)
    (hg : ∀ a, G (φ a) = φ <$> g a) (hf' : ∀ a, F' (φ a) = φ <$> f' a)
    (hg' : ∀ a, G' (φ a) = φ <$> g' a) :
    Converges F G' G F' (φ x) ↔ Converges f g' g f' x := by
  unfold Converges
  rw [hf, hg]
  cases f x with
  | error e => simp
  | ok a =>
    cases g x with
    | error e => simp
    | ok b =>
      simp only [map_ok, ok_bind, hf', hg', map_eq_ok]
      constructor
      · rintro ⟨_, ⟨y, hy, rfl⟩, z, hz, hzy⟩
        exact ⟨y, hy, hφ hzy ▸ hz⟩
      · rintro ⟨y, hy, hz⟩
        exact ⟨_, ⟨y, hy, rfl⟩, y, hz, rfl⟩

theorem runOpt_map {γ : Type*} {f : γ → α → Except ε α}
    {F : γ → β → Except ε β} {x : Option γ}
    (h : ∀ z ∈ x, ∀ a, F z (φ a) = φ <$> f z a) (a : α) :
    runOpt (x.map F) (φ a) = φ <$> runOpt (x.map f) a := by
  cases x with
  | none => rfl
  | some z => exact h z rfl a

-- ===== parts

/-- A part of `β` that holds an `α`, where it is there at all. -/
structure PartialLens (ε : Type u) (β α : Type v) where
  get : β → Except ε α
  put : β → α → β
  get_put : ∀ {b a} a', get b = .ok a → get (put b a') = .ok a'
  put_put : ∀ {b a a'}, put (put b a) a' = put b a'
  put_get : ∀ {b a}, get b = .ok a → put b a = b

namespace PartialLens

variable {L : PartialLens ε β α} {b b' : β} {a : α}

/-- Run an operation on the part. -/
def modify (L : PartialLens ε β α) (f : α → Except ε α) (b : β) :
    Except ε β := do
  let a ← L.get b
  let a' ← f a
  .ok (L.put b a')

/-- An operation on the part goes through when the part is there and the
operation goes through on it. -/
theorem modify_eq_ok : L.modify f b = .ok b' ↔
      ∃ a a', L.get b = .ok a ∧ f a = .ok a' ∧ b' = L.put b a' := by
  unfold modify
  cases hg : L.get b with
  | error e => simp
  | ok a =>
    cases hf : f a with
    | error e => simp [hf]
    | ok a' => simp [hf, eq_comm]

section

variable (h : L.get b = .ok a)

include h

theorem modify_ok : L.modify .ok b = .ok b := by
  rw [modify_eq_ok]
  exact ⟨a, a, h, rfl, (L.put_get h).symm⟩

/-- A second operation after one on the part. -/
theorem modify_put {a' : α} :
    L.modify f (L.put b a') = .ok b' ↔ ∃ c, f a' = .ok c ∧ b' = L.put b c := by
  rw [modify_eq_ok]
  constructor
  · rintro ⟨x, y, hx, hf, rfl⟩
    rw [L.get_put a' h] at hx
    cases hx
    exact ⟨y, hf, L.put_put⟩
  · rintro ⟨c, hf, rfl⟩
    exact ⟨a', c, L.get_put a' h, hf, L.put_put.symm⟩

/-- What is put is what is read: two parts put into one state agree. -/
theorem put_injective {c d : α} (hcd : L.put b c = L.put b d) : c = d := by
  have hc := L.get_put c h
  rw [hcd, L.get_put d h] at hc
  exact (Except.ok.inj hc).symm

/-- A square inside a part is a square of the whole. -/
theorem converges_modify_iff :
    Converges (L.modify f) (L.modify g') (L.modify g) (L.modify f') b
      ↔ Converges f g' g f' a := by
  unfold Converges
  constructor
  · rintro ⟨y, hf, hg⟩
    obtain ⟨b1, hb1, hy1⟩ := bind_eq_ok.1 hf
    obtain ⟨b2, hb2, hy2⟩ := bind_eq_ok.1 hg
    obtain ⟨x1, a1, hx1, hf1, rfl⟩ := modify_eq_ok.1 hb1
    obtain ⟨x2, a2, hx2, hg2, rfl⟩ := modify_eq_ok.1 hb2
    rw [h] at hx1 hx2
    cases hx1
    cases hx2
    obtain ⟨c, hc, rfl⟩ := (modify_put h).1 hy1
    obtain ⟨d, hd, hcd⟩ := (modify_put h).1 hy2
    have := put_injective h hcd
    subst this
    exact ⟨c, bind_eq_ok.2 ⟨_, hf1, hc⟩, bind_eq_ok.2 ⟨_, hg2, hd⟩⟩
  · rintro ⟨y, hf, hg⟩
    obtain ⟨a1, hf1, hy1⟩ := bind_eq_ok.1 hf
    obtain ⟨a2, hg2, hy2⟩ := bind_eq_ok.1 hg
    refine ⟨L.put b y, bind_eq_ok.2 ⟨L.put b a1, ?_, ?_⟩,
      bind_eq_ok.2 ⟨L.put b a2, ?_, ?_⟩⟩
    · exact modify_eq_ok.2 ⟨a, a1, h, hf1, rfl⟩
    · exact (modify_put h).2 ⟨y, hy1, rfl⟩
    · exact modify_eq_ok.2 ⟨a, a2, h, hg2, rfl⟩
    · exact (modify_put h).2 ⟨y, hy2, rfl⟩

theorem modify_runOpt (g : Option (α → Except ε α)) :
    runOpt (g.map L.modify) b = L.modify (runOpt g) b := by
  cases g with
  | none => exact (modify_ok h).symm
  | some g => rfl

end

theorem get_of_modify (h : L.modify f b = .ok b') :
    ∃ a, L.get b' = .ok a := by
  obtain ⟨a, a', ha, -, rfl⟩ := modify_eq_ok.1 h
  exact ⟨a', L.get_put a' ha⟩

/-- `converges_modify_iff`, where the transformed operations may have been
discarded. -/
theorem converges_modify_opt_iff {f' g' : Option (α → Except ε α)}
    (h : L.get b = .ok a) :
    Converges (L.modify f) (runOpt (g'.map L.modify)) (L.modify g)
        (runOpt (f'.map L.modify)) b
      ↔ Converges f (runOpt g') g (runOpt f') a := by
  rw [← converges_modify_iff h]
  apply converges_congr rfl rfl
  · intro c hc
    obtain ⟨x, hx⟩ := get_of_modify hc
    exact modify_runOpt hx g'
  · intro c hc
    obtain ⟨x, hx⟩ := get_of_modify hc
    exact modify_runOpt hx f'

/-- Two parts that do not overlap. -/
structure Independent {γ : Type v} (L : PartialLens ε β α)
    (M : PartialLens ε β γ) : Prop where
  get_put_left : ∀ {b c}, L.get (M.put b c) = L.get b
  get_put_right : ∀ {b a}, M.get (L.put b a) = M.get b
  put_comm : ∀ {b a c}, M.put (L.put b a) c = L.put (M.put b c) a

/-- Operations on parts that do not overlap need no transformation. -/
theorem converges_of_independent {M : PartialLens ε β γ}
    (hLM : L.Independent M) {g : γ → Except ε γ} {b1 b2 : β}
    (hf : L.modify f b = .ok b1) (hg : M.modify g b = .ok b2) :
    Converges (L.modify f) (M.modify g) (M.modify g) (L.modify f) b := by
  obtain ⟨a, a', hga, hfa, rfl⟩ := modify_eq_ok.1 hf
  obtain ⟨c, c', hgc, hfc, rfl⟩ := modify_eq_ok.1 hg
  rw [converges_iff hf hg]
  refine ⟨M.put (L.put b a') c', ?_, ?_⟩
  · exact modify_eq_ok.2 ⟨c, c', by rw [hLM.get_put_right, hgc], hfc, rfl⟩
  · refine modify_eq_ok.2 ⟨a, a', by rw [hLM.get_put_left, hga], hfa, ?_⟩
    rw [hLM.put_comm]

/-- The element of a list at an index. -/
def element (e : ε) (i : ℕ) : PartialLens ε (List α) α where
  get l := match l[i]? with
    | some a => .ok a
    | none => .error e
  put l a := l.set i a
  get_put := by
    intro l a a' h
    have hi : i < l.length := by
      by_contra hi
      simp [List.getElem?_eq_none (Nat.le_of_not_lt hi)] at h
    simp [hi]
  put_put := by
    intro l a a'
    simp
  put_get := by
    intro l a h
    split at h
    · next x hx =>
        cases h
        obtain ⟨hi, rfl⟩ := List.getElem?_eq_some_iff.1 hx
        simp
    · cases h

end PartialLens

end Ot
