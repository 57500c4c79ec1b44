/-
Runs of a transition system given by a partial step function.

A state machine of the source is modelled as `step : S → A → Option S`:
the action `a` is possible in `s` when `step s a` is a state. What the
development proves about it is a fact about every state of every run, or
about every step of every run, and the rules for that are here.

# Conditions

`Run step ok s t` is a run from `s` to `t` each of whose steps met `ok`,
a condition on the action and the state it was taken in. Runs without a
condition are the ones with `ok` always true. `exec` follows a list of
actions, so that a run can be computed.
-/
import Mathlib.Logic.Basic

namespace Sys

variable {S A : Type*} {step : S → A → Option S} {ok : S → A → Prop}
  {s t : S} {as : List A}

/-- A run from the first state to the second, each step of which met the
condition. -/
inductive Run (step : S → A → Option S) (ok : S → A → Prop) (s : S) :
    S → Prop
  | refl : Run step ok s s
  | tail {t u : S} (a : A) : Run step ok s t → ok t a
      → step t a = some u → Run step ok s u

/-- A run follows another. -/
theorem Run.trans {u : S} (h : Run step ok s t) (h' : Run step ok t u) :
    Run step ok s u := by
  induction h' with
  | refl => exact h
  | tail a _ hok hstep ih => exact .tail a ih hok hstep

/-- An invariant that every step keeps holds in every state reached. -/
theorem Run.invariant {I : S → Prop} (h : Run step ok s t) (hinit : I s)
    (hkeep : ∀ t a u, I t → ok t a → step t a = some u → I u) : I t := by
  induction h with
  | refl => exact hinit
  | tail a _ hok hstep ih => exact hkeep _ a _ ih hok hstep

/-- A run under a condition is a run under any weaker one. -/
theorem Run.mono {ok' : S → A → Prop} (h : Run step ok s t)
    (hok : ∀ t a, ok t a → ok' t a) : Run step ok' s t := by
  induction h with
  | refl => exact .refl
  | tail a _ ha hstep ih => exact .tail a ih (hok _ a ha) hstep

/-- The state after a list of actions, if each is possible. -/
def exec (step : S → A → Option S) : S → List A → Option S
  | s, [] => some s
  | s, a :: as => (step s a).bind fun t => exec step t as

/-- An execution that ends in a state with a property, by computation. -/
theorem exists_exec {P : S → Prop} [DecidablePred P]
    (h : (exec step s as).any (fun t => decide (P t)) = true) :
    ∃ t, exec step s as = some t ∧ P t := by
  obtain ⟨t, ht, hP⟩ := (Option.any_eq_true _ _).1 h
  exact ⟨t, ht, of_decide_eq_true hP⟩

/-- The condition holds at each action of an execution. -/
def ExecOk (step : S → A → Option S) (ok : S → A → Prop) :
    S → List A → Prop
  | _, [] => True
  | s, a :: as => ok s a ∧ ∀ t ∈ step s a, ExecOk step ok t as

instance ExecOk.decidable (step : S → A → Option S) (ok : S → A → Prop)
    [∀ s a, Decidable (ok s a)] :
    (s : S) → (as : List A) → Decidable (ExecOk step ok s as)
  | _, [] => .isTrue trivial
  | s, a :: as =>
    have _ : DecidablePred fun t => ExecOk step ok t as :=
      fun t => ExecOk.decidable step ok t as
    inferInstanceAs (Decidable (ok s a ∧ ∀ t ∈ step s a,
      ExecOk step ok t as))

/-- A condition that the actions meet in any state. -/
theorem ExecOk.of_forall (h : ∀ a ∈ as, ∀ t, ok t a) :
    ExecOk step ok s as := by
  induction as generalizing s with
  | nil => trivial
  | cons a as ih =>
    refine ⟨h a List.mem_cons_self s, fun t _ => ih fun b hb => ?_⟩
    exact h b (List.mem_cons_of_mem a hb)

/-- An execution goes on. -/
theorem ExecOk.append {bs : List A} (h : exec step s as = some t)
    (hok : ExecOk step ok s as) (hok' : ExecOk step ok t bs) :
    ExecOk step ok s (as ++ bs) := by
  induction as generalizing s with
  | nil =>
    cases h
    exact hok'
  | cons a as ih =>
    obtain ⟨s', hs', h⟩ := Option.bind_eq_some_iff.1 h
    refine ⟨hok.1, fun u hu => ?_⟩
    cases hs'.symm.trans hu
    exact ih h (hok.2 _ hu)

/-- The state an execution ends in is reached by a run. -/
theorem run_of_exec (h : exec step s as = some t)
    (hok : ExecOk step ok s as) :
    Run step ok s t := by
  induction as generalizing s with
  | nil =>
    cases h
    exact .refl
  | cons a as ih =>
    obtain ⟨s', hs', h⟩ := Option.bind_eq_some_iff.1 h
    exact Run.trans (.tail a .refl hok.1 hs') (ih h (hok.2 s' hs'))

end Sys
