import Mathlib.Tactic.Common

/-!
# Labelled machines and their runs

A machine is a start state and a partial step function. An action that is not enabled in a
state gives `none`, so a run is a list of actions and can be evaluated.

**Conditions on runs.** `Reachable ok s` says that `s` is reached by a run in which every step
meets `ok`, a condition on the state before the step and the action. `Reachable anyStep` is
plain reachability.

**Rules.** `Reachable.invariant` is the induction over runs; `Reachable.invariant_of` is the same
with facts already proved of every reachable state at hand. `reachable_of_run` turns an
evaluated run into reachability.
-/

namespace Lts

/-- A start state and a partial step function. -/
structure Machine (σ α : Type*) where
  init : σ
  step : σ → α → Option σ

/-- The condition that every step meets. -/
def anyStep {σ α : Type*} (_ : σ) (_ : α) : Prop := True

instance {σ α : Type*} (s : σ) (a : α) : Decidable (anyStep s a) := isTrue trivial

namespace Machine

variable {σ α : Type*} {M : Machine σ α} {ok ok' : σ → α → Prop}

/-- The states reached by runs whose steps all meet `ok`. -/
inductive Reachable (M : Machine σ α) (ok : σ → α → Prop) : σ → Prop
  | init : Reachable M ok M.init
  | step {s s' : σ} {a : α} :
      Reachable M ok s → ok s a → M.step s a = some s' → Reachable M ok s'

/-- Run a list of actions from `s`, stopping at a step that is not enabled or not `ok`. -/
def runFrom (M : Machine σ α) (ok : σ → α → Prop) [∀ s a, Decidable (ok s a)] :
    σ → List α → Option σ
  | s, [] => some s
  | s, a :: as => if ok s a then (M.step s a).bind fun s' => M.runFrom ok s' as else none

/-! ## Induction over runs -/

theorem Reachable.invariant {P : σ → Prop} (h₀ : P M.init)
    (hstep : ∀ s a s', P s → ok s a → M.step s a = some s' → P s') {s : σ}
    (h : M.Reachable ok s) : P s := by
  induction h with
  | init => exact h₀
  | step _ hok hs ih => exact hstep _ _ _ ih hok hs

/-- An invariant whose step may use a fact `Q` of every reachable state. -/
theorem Reachable.invariant_of {P Q : σ → Prop} (hQ : ∀ s, M.Reachable ok s → Q s)
    (h₀ : P M.init) (hstep : ∀ s a s', Q s → P s → ok s a → M.step s a = some s' → P s')
    {s : σ} (h : M.Reachable ok s) : P s := by
  induction h with
  | init => exact h₀
  | step hr hok hs ih => exact hstep _ _ _ (hQ _ hr) ih hok hs

theorem Reachable.mono (hok : ∀ s a, ok s a → ok' s a) {s : σ} (h : M.Reachable ok s) :
    M.Reachable ok' s := by
  induction h with
  | init => exact .init
  | step _ h hs ih => exact ih.step (hok _ _ h) hs

/-! ## Evaluated runs -/

section Run

variable [∀ s a, Decidable (ok s a)]

theorem Reachable.run {s s' : σ} (h : M.Reachable ok s) {as : List α}
    (hr : M.runFrom ok s as = some s') : M.Reachable ok s' := by
  induction as generalizing s with
  | nil => cases hr; exact h
  | cons a as ih =>
    simp only [runFrom] at hr
    split_ifs at hr with ha
    obtain ⟨t, ht, hr⟩ := Option.bind_eq_some_iff.mp hr
    exact ih (h.step ha ht) hr

theorem reachable_of_run {s : σ} {as : List α} (hr : M.runFrom ok M.init as = some s) :
    M.Reachable ok s :=
  Reachable.init.run hr

end Run

/-- A run that ends in a state with `p` shows such a state reachable. -/
theorem exists_reachable_of_run (M : Machine σ α) (ok : σ → α → Prop) [∀ s a, Decidable (ok s a)]
    (p : σ → Prop) [DecidablePred p] (as : List α)
    (hr : (M.runFrom ok M.init as).any (fun s => decide (p s)) = true) :
    ∃ s, M.Reachable ok s ∧ p s := by
  obtain ⟨s, hs, hp⟩ := (Option.any_eq_true _ _).mp hr
  exact ⟨s, reachable_of_run hs, of_decide_eq_true hp⟩

end Machine

end Lts
