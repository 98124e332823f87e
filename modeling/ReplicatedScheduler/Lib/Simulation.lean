import ReplicatedScheduler.Lib.Machine

/-!
# Forward simulations

A machine simulates another when every step of the second, from a state it can reach, is matched
by some steps of the first, none included, that keep the states related.

**Theorem (`Simulation.reachable`).** Then every state that the second machine reaches is related
to a state that the first one reaches. So an invariant of the first machine, the simpler one, is
one of the second (`Simulation.invariant`).

Both machines may have conditions on their runs: the steps that match are to meet those of the first.
-/

namespace Lts

namespace Machine

variable {σ α τ β : Type*} {C : Machine σ α} {A : Machine τ β} {okC : σ → α → Prop}
  {okA : τ → β → Prop} {R : σ → τ → Prop}

/-- `t'` is reached from `t` by some steps that meet `ok`. -/
inductive Steps (A : Machine τ β) (ok : τ → β → Prop) : τ → τ → Prop
  | refl (t : τ) : Steps A ok t t
  | step {t t' t'' : τ} {b : β} :
      Steps A ok t t' → ok t' b → A.step t' b = some t'' → Steps A ok t t''

theorem Steps.single {t t' : τ} {b : β} (hok : okA t b) (h : A.step t b = some t') :
    A.Steps okA t t' :=
  .step (.refl t) hok h

theorem Steps.trans {t t' t'' : τ} (h : A.Steps okA t t') (h' : A.Steps okA t' t'') :
    A.Steps okA t t'' := by
  induction h' with
  | refl => exact h
  | step _ hok hs ih => exact .step ih hok hs

theorem Reachable.steps {t t' : τ} (h : A.Reachable okA t) (hs : A.Steps okA t t') :
    A.Reachable okA t' := by
  induction hs with
  | refl => exact h
  | step _ hok hs ih => exact ih.step hok hs

/-- `A` simulates `C` under `R`. -/
structure Simulation (C : Machine σ α) (A : Machine τ β) (okC : σ → α → Prop)
    (okA : τ → β → Prop) (R : σ → τ → Prop) : Prop where
  init : R C.init A.init
  step : ∀ s t a s', C.Reachable okC s → A.Reachable okA t → R s t → okC s a →
    C.step s a = some s' → ∃ t', A.Steps okA t t' ∧ R s' t'

theorem Simulation.reachable (h : Simulation C A okC okA R) {s : σ} (hs : C.Reachable okC s) :
    ∃ t, A.Reachable okA t ∧ R s t := by
  induction hs with
  | init => exact ⟨A.init, .init, h.init⟩
  | step hs hok hstep ih =>
    obtain ⟨t, ht, hR⟩ := ih
    obtain ⟨t', hsteps, hR'⟩ := h.step _ _ _ _ hs ht hR hok hstep
    exact ⟨t', ht.steps hsteps, hR'⟩

/-- What holds of every state of `A` holds of the related states of `C`. -/
theorem Simulation.invariant (h : Simulation C A okC okA R) {P : τ → Prop} {Q : σ → Prop}
    (hP : ∀ t, A.Reachable okA t → P t) (hQ : ∀ s t, R s t → P t → Q s) {s : σ}
    (hs : C.Reachable okC s) : Q s := by
  obtain ⟨t, ht, hR⟩ := h.reachable hs
  exact hQ s t hR (hP t ht)

end Machine

end Lts
