import Mathlib.Tactic.Common

/-!
# Runs that may exit

A run in `Except ε` gives a result, or it exits. `GoesOn P e why run` says what the result is like,
that the only exit is `e`, and for which reason: the exit is a case of the statement, so that a
proof that composes runs deals with it in the rules and not at each step.
-/

namespace Lib

universe u v

variable {ε : Type u} {α β : Type v} {P Q : α → Prop} {e : ε} {why why' : Prop} {run : Except ε α}

/-- The run gives a result with `P`, or it exits with `e` and there is the reason `why`. -/
def GoesOn (P : α → Prop) (e : ε) (why : Prop) (run : Except ε α) : Prop :=
  (∃ a, run = .ok a ∧ P a) ∨ (run = .error e ∧ why)

namespace GoesOn

theorem ok {a : α} (h : P a) : GoesOn P e why (.ok a) := Or.inl ⟨a, rfl, h⟩

theorem exit (h : why) : GoesOn P e why (.error e) := Or.inr ⟨rfl, h⟩

theorem imp (h : GoesOn P e why run) (hP : ∀ a, P a → Q a) (hwhy : why → why') :
    GoesOn Q e why' run :=
  Or.imp (Exists.imp fun a ha => ⟨ha.1, hP a ha.2⟩) (fun h => ⟨h.1, hwhy h.2⟩) h

theorem bind {Q : β → Prop} {f : α → Except ε β} (h : GoesOn P e why run)
    (hf : ∀ a, P a → GoesOn Q e why (f a)) : GoesOn Q e why (run >>= f) := by
  rcases h with ⟨a, rfl, ha⟩ | ⟨rfl, hwhy⟩
  · exact hf a ha
  · exact exit hwhy

/-- A loop, with an invariant of what it has run over. -/
theorem foldlM {γ : Type*} {I : List γ → α → Prop} {f : α → γ → Except ε α} {l : List γ} {a : α}
    (hstart : I [] a)
    (hstep : ∀ pre b post a, l = pre ++ b :: post → I pre a →
      GoesOn (I (pre ++ [b])) e why (f a b)) :
    GoesOn (I l) e why (l.foldlM f a) := by
  induction l generalizing I a with
  | nil => exact ok hstart
  | cons b l ih =>
    rw [List.foldlM_cons]
    refine (hstep [] b l a rfl hstart).bind fun a' ha' => ?_
    refine ih (I := fun pre => I (b :: pre)) ha' fun pre c post a'' hsplit => ?_
    exact hstep (b :: pre) c post a'' (by rw [hsplit, List.cons_append])

end GoesOn

end Lib
