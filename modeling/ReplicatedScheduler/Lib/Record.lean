import Mathlib.Data.Nat.Init
import Mathlib.Tactic.Common

/-!
# Records of a run

The states of one party at consecutive positions of a sequence, from a first position on. A record
grows at its end only, so what holds of the states at two consecutive positions goes on holding
(`Linked.push`).

**Rule.** A property is carried along a record, from any position of it on, by a step that each
link makes (`Linked.forward`).
-/

namespace Lib

/-- The states at the positions `first`, `first + 1` and so on. -/
structure Record (σ : Type*) where
  first : ℕ
  states : List σ
  deriving DecidableEq

namespace Record

variable {σ : Type*}

def empty : Record σ := ⟨0, []⟩

def start (p : ℕ) (s : σ) : Record σ := ⟨p, [s]⟩

/-- The position after the last. -/
def stop (r : Record σ) : ℕ := r.first + r.states.length

/-- The state at a position. -/
def get? (r : Record σ) (p : ℕ) : Option σ :=
  if r.first ≤ p then r.states[p - r.first]? else none

def push (r : Record σ) (s : σ) : Record σ := { r with states := r.states ++ [s] }

@[simp] theorem first_push (r : Record σ) (s : σ) : (r.push s).first = r.first := rfl

@[simp] theorem stop_push (r : Record σ) (s : σ) : (r.push s).stop = r.stop + 1 := by
  simp [stop, push, Nat.add_assoc]

@[simp] theorem stop_start (p : ℕ) (s : σ) : (start p s).stop = p + 1 := rfl

@[simp] theorem get?_empty (p : ℕ) : (empty : Record σ).get? p = none := by
  simp [get?, empty]

@[simp] theorem get?_start (p : ℕ) (s : σ) : (start p s).get? p = some s := by
  simp [get?, start]

theorem lt_of_get? {r : Record σ} {p : ℕ} {s : σ} (h : r.get? p = some s) :
    r.first ≤ p ∧ p < r.stop := by
  unfold get? at h
  split_ifs at h with hle
  obtain ⟨hlt, -⟩ := List.getElem?_eq_some_iff.mp h
  exact ⟨hle, by unfold stop; omega⟩

theorem exists_get? {r : Record σ} {p : ℕ} (hle : r.first ≤ p) (hlt : p < r.stop) :
    ∃ s, r.get? p = some s := by
  unfold stop at hlt
  rw [get?, if_pos hle]
  exact ⟨_, List.getElem?_eq_getElem (by omega)⟩

theorem get?_push (r : Record σ) (s : σ) (p : ℕ) :
    (r.push s).get? p = if p = r.stop then some s else r.get? p := by
  unfold get? push stop
  by_cases hle : r.first ≤ p
  · simp only [if_pos hle, List.getElem?_append]
    split_ifs with hlt heq heq
    · omega
    · rfl
    · rw [show p - r.first - r.states.length = 0 by omega]
      rfl
    · obtain ⟨k, hk⟩ : ∃ k, p - r.first - r.states.length = k + 1 :=
        ⟨p - r.first - r.states.length - 1, by omega⟩
      have hnone : r.states[p - r.first]? = none := List.getElem?_eq_none (by omega)
      rw [hk, hnone]
      rfl
  · simp only [if_neg hle]
    rw [if_neg (by omega)]

theorem get?_push_of_some {r : Record σ} {p : ℕ} {s : σ} (h : r.get? p = some s) (s' : σ) :
    (r.push s').get? p = some s := by
  rw [get?_push, if_neg (Nat.ne_of_lt (lt_of_get? h).2), h]

/-- A state of a record that grew is the new one or was there before. -/
theorem get?_of_push {r : Record σ} {p : ℕ} {s s' : σ} (h : (r.push s').get? p = some s) :
    (p = r.stop ∧ s = s') ∨ r.get? p = some s := by
  rw [get?_push] at h
  split_ifs at h with hp
  · exact Or.inl ⟨hp, (Option.some.inj h).symm⟩
  · exact Or.inr h

theorem get?_of_start {p q : ℕ} {s s' : σ} (h : (start p s').get? q = some s) :
    q = p ∧ s = s' := by
  obtain ⟨hle, hlt⟩ := lt_of_get? h
  obtain rfl : q = p := Nat.le_antisymm (Nat.le_of_lt_succ hlt) hle
  rw [get?_start] at h
  exact ⟨rfl, (Option.some.inj h).symm⟩

/-! ## Links -/

/-- The states at consecutive positions are related. -/
def Linked (R : ℕ → σ → σ → Prop) (r : Record σ) : Prop :=
  ∀ p s s', r.get? p = some s → r.get? (p + 1) = some s' → R p s s'

variable {R R' : ℕ → σ → σ → Prop} {r : Record σ}

theorem linked_empty : Linked R (empty : Record σ) := fun p s s' h => by
  rw [get?_empty] at h
  cases h

theorem linked_start (p : ℕ) (s : σ) : Linked R (start p s) := fun q t t' h h' => by
  have hq := (get?_of_start h).1
  have hq' := (get?_of_start h').1
  omega

theorem Linked.mono (h : Linked R r) (hR : ∀ p s s', R p s s' → R' p s s') : Linked R' r :=
  fun p s s' hs hs' => hR p s s' (h p s s' hs hs')

theorem Linked.push (h : Linked R r) {p : ℕ} {s s' : σ} (hp : p + 1 = r.stop)
    (hs : r.get? p = some s) (hR : R p s s') : Linked R (r.push s') := by
  intro q t t' ht ht'
  rcases get?_of_push ht' with ⟨hq, rfl⟩ | ht'
  · obtain rfl : q = p := by omega
    rw [get?_push_of_some hs] at ht
    cases ht
    exact hR
  · rw [get?_push, if_neg (by have := (lt_of_get? ht').2; omega)] at ht
    exact h q t t' ht ht'

/-- What holds at `a` holds up to `b` if every link on the way keeps it. -/
theorem Linked.forward (h : Linked R r) {P : ℕ → σ → Prop} {a b : ℕ} (ha : r.first ≤ a)
    (h₀ : ∀ s, r.get? a = some s → P a s)
    (hstep : ∀ p s s', a ≤ p → p < b → r.get? p = some s → r.get? (p + 1) = some s' → R p s s' →
      P p s → P (p + 1) s')
    {p : ℕ} (hap : a ≤ p) (hpb : p ≤ b) {s : σ} (hs : r.get? p = some s) : P p s := by
  induction p, hap using Nat.le_induction generalizing s with
  | base => exact h₀ s hs
  | succ p hap ih =>
    obtain ⟨s₀, hs₀⟩ := exists_get? (r := r) (p := p) (by omega)
      (Nat.lt_of_succ_lt (lt_of_get? hs).2)
    exact hstep p s₀ s hap hpb hs₀ hs (h p s₀ s hs₀ hs) (ih (by omega) hs₀)

end Record

end Lib
