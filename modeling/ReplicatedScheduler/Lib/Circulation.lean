import Mathlib.Algebra.Group.Fin.Basic
import Mathlib.Algebra.GroupWithZero.Nat
import Mathlib.Logic.Function.Basic
import Mathlib.Order.Lattice
import Mathlib.Order.MinMax
import Mathlib.Tactic.Common

/-!
# A bound carried round a ring

Parties pass a token round a ring. Each party has something that only grows (how far it has
received, say), and the token carries a bound on it. A party lowers the bound to its own value
when it has less; it raises the bound to its own value when it was the last to set it, or when
the bound is as far as anything goes.

The bound on the token can be too high: the party that raises it does not know about the others.
**Theorem (`Circulating.pass`).** The lower of the bounds that a party passed on in two rounds in
a row is never above any party's value, and it never goes down. That is the party's `stable`
bound.

What carries the proof is `turn`: either the bound on the token is not above what `k` passed on,
or nobody who passed it on before `k` in the current turn passed on more than `k`. A bound that
is raised by the party that set it was the same all the way since that party, so all before `k`
passed on the same; and a bound that is raised because it is as far as anything goes is above
all that was ever passed on.
-/

namespace Lib

variable {ι α : Type*} [LinearOrder α]

/-- What the token says when it is passed on. -/
structure Passing (ι α : Type*) where
  /-- As far as anything goes. -/
  top : α
  bound : α
  /-- The party that set the bound. -/
  setter : Option ι

namespace Passing

/-- A party has the token set its bound right. -/
def adjust [DecidableEq ι] (p : Passing ι α) (me : ι) (own : α) : Passing ι α :=
  if own < p.bound ∨ p.setter = some me ∨ p.bound = p.top then
    { p with bound := own, setter := some me }
  else p

variable [DecidableEq ι] (p : Passing ι α) (me : ι) (own : α)

theorem bound_adjust_le : (p.adjust me own).bound ≤ own := by
  unfold adjust
  split_ifs with h
  · exact le_refl _
  · exact not_lt.mp fun hlt => h (Or.inl hlt)

/-- The bound is lowered or left, or raised by the party that set it, or by one that finds it as
far as anything goes. -/
theorem adjust_cases : (p.adjust me own).bound ≤ p.bound ∨ p.setter = some me ∨
    p.bound = p.top := by
  unfold adjust
  split_ifs with h
  · rcases h with h | h | h
    · exact Or.inl (le_of_lt h)
    · exact Or.inr (Or.inl h)
    · exact Or.inr (Or.inr h)
  · exact Or.inl (le_refl _)

theorem bound_adjust :
    (p.adjust me own).bound = own ∨ (p.adjust me own).bound = p.bound := by
  unfold adjust
  split_ifs
  · exact Or.inl rfl
  · exact Or.inr rfl

theorem setter_adjust :
    (p.adjust me own).setter = some me ∨
      ((p.adjust me own).setter = p.setter ∧ (p.adjust me own).bound = p.bound) := by
  unfold adjust
  split_ifs
  · exact Or.inl rfl
  · exact Or.inr ⟨rfl, rfl⟩

end Passing

/-- What holds while the token goes round. `time` orders the parties by when they last passed
the token on, `last` is the bound that they passed on then, and `token` is what it says now. -/
structure Circulating (time : ι → ℕ) (last own stable : ι → α) (token : Passing ι α) : Prop where
  distinct : Function.Injective time
  /-- The bound was never set above what the party had. -/
  last_le : ∀ i, last i ≤ own i
  own_le : ∀ i, own i ≤ token.top
  turn : ∀ k, token.bound ≤ last k ∨ ∀ i, time i < time k → last i ≤ last k
  /-- Since the setter nobody has changed the bound. -/
  setter : ∀ i, token.setter = some i → ∀ k, time i ≤ time k → last k = token.bound
  stable_le : ∀ i k, stable i ≤ last k
  stable_le_bound : ∀ i, stable i ≤ token.bound
  stable_mono : ∀ i k, time i ≤ time k → stable i ≤ stable k

namespace Circulating

variable {time : ι → ℕ} {last own own' stable : ι → α} {token : Passing ι α}

/-- **No party's stable bound is above what any party has.** -/
theorem stable_le_own (h : Circulating time last own stable token) (i k : ι) :
    stable i ≤ own k :=
  le_trans (h.stable_le i k) (h.last_le k)

/-- What a party has may grow at any time. -/
theorem grow (h : Circulating time last own stable token) (hgrow : ∀ i, own i ≤ own' i)
    (htop : ∀ i, own' i ≤ token.top) : Circulating time last own' stable token :=
  { h with
    last_le := fun i => le_trans (h.last_le i) (hgrow i)
    own_le := htop }

/-- A bound that is raised was not below what any party passed on. -/
theorem last_le_of_raised (h : Circulating time last own stable token) {m : ι}
    (hm : ∀ i, time m ≤ time i) (hraise : token.setter = some m ∨ token.bound = token.top)
    (i : ι) : last i ≤ token.bound := by
  rcases hraise with hs | htop
  · exact le_of_eq (h.setter m hs i (hm i))
  · calc last i ≤ own i := h.last_le i
      _ ≤ token.top := h.own_le i
      _ = token.bound := htop.symm

variable [DecidableEq ι]

theorem stable_le_adjust (h : Circulating time last own stable token) {m : ι} {o : α}
    (ho : own m ≤ o) (i : ι) : stable i ≤ (token.adjust m o).bound := by
  rcases token.bound_adjust m o with hb | hb
  · rw [hb]
    exact le_trans (h.stable_le_own i m) ho
  · rw [hb]
    exact h.stable_le_bound i

/-- **The stable bound of the party that has the token never goes down.** -/
theorem stable_le_min (h : Circulating time last own stable token) {m : ι} {o : α}
    (ho : own m ≤ o) : stable m ≤ min (token.adjust m o).bound (last m) :=
  le_min (h.stable_le_adjust ho m) (h.stable_le m m)

/-- The turn of the next party keeps `turn` of the others. -/
theorem turn_adjust (h : Circulating time last own stable token) {m : ι}
    (hm : ∀ i, time m ≤ time i) (o : α) (k : ι) : (token.adjust m o).bound ≤ last k ∨
      ∀ i, time i < time k → last i ≤ last k := by
  rcases h.turn k with hle | hall
  · rcases token.adjust_cases m o with hlow | hraise
    · exact Or.inl (le_trans hlow hle)
    · exact Or.inr fun i _ => le_trans (h.last_le_of_raised hm hraise i) hle
  · exact Or.inr hall

/-- What `m` passed on a turn ago and what it passes on now are not both above what another
party passed on in between. -/
theorem min_le_last (h : Circulating time last own stable token) {m : ι}
    (hm : ∀ i, time m ≤ time i) (o : α) {k : ι} (hk : k ≠ m) :
    min (token.adjust m o).bound (last m) ≤ last k := by
  have hlt : time m < time k := by
    rcases Nat.lt_or_eq_of_le (hm k) with hlt | heq
    · exact hlt
    · exact absurd (h.distinct heq).symm hk
  rcases h.turn_adjust hm o k with hle | hall
  · exact le_trans (min_le_left _ _) hle
  · exact le_trans (min_le_right _ _) (hall m hlt)

/-- **One party's turn**: it gets to `o`, sets the bound, and passes the token on. -/
theorem pass (h : Circulating time last own stable token) {m : ι} (hm : ∀ i, time m ≤ time i)
    {o top : α} (ho : own m ≤ o) (htop : token.top ≤ top) (hotop : o ≤ top) {t : ℕ}
    (ht : ∀ i, time i < t) :
    Circulating (Function.update time m t)
      (Function.update last m (token.adjust m o).bound) (Function.update own m o)
      (Function.update stable m (min (token.adjust m o).bound (last m)))
      { token.adjust m o with top := top } := by
  refine ⟨?distinct, ?last_le, ?own_le, ?turn, ?setter, ?stable_le, ?stable_le_bound,
    ?stable_mono⟩
  case distinct =>
    intro i k hik
    by_cases hi : i = m <;> by_cases hk : k = m
    · rw [hi, hk]
    · rw [hi, Function.update_self, Function.update_of_ne hk] at hik
      exact absurd hik.symm (ht k).ne
    · rw [hk, Function.update_self, Function.update_of_ne hi] at hik
      exact absurd hik (ht i).ne
    · rw [Function.update_of_ne hi, Function.update_of_ne hk] at hik
      exact h.distinct hik
  case last_le =>
    intro i
    by_cases hi : i = m
    · rw [hi, Function.update_self, Function.update_self]
      exact token.bound_adjust_le m o
    · rw [Function.update_of_ne hi, Function.update_of_ne hi]
      exact h.last_le i
  case own_le =>
    intro i
    by_cases hi : i = m
    · rw [hi, Function.update_self]
      exact hotop
    · rw [Function.update_of_ne hi]
      exact le_trans (h.own_le i) htop
  case turn =>
    intro k
    by_cases hk : k = m
    · rw [hk, Function.update_self]
      exact Or.inl (le_refl _)
    · rw [Function.update_of_ne hk]
      refine (h.turn_adjust hm o k).imp_right fun hall i hi => ?_
      rw [Function.update_of_ne hk] at hi
      have him : i ≠ m := by
        rintro rfl
        rw [Function.update_self] at hi
        exact absurd hi (ht k).not_gt
      rw [Function.update_of_ne him] at hi ⊢
      exact hall i hi
  case setter =>
    intro i hi k hik
    by_cases hk : k = m
    · rw [hk, Function.update_self]
    · rw [Function.update_of_ne hk] at hik ⊢
      have him : i ≠ m := by
        rintro rfl
        rw [Function.update_self] at hik
        exact absurd hik (ht k).not_ge
      rw [Function.update_of_ne him] at hik
      rcases token.setter_adjust m o with hs | ⟨hs, hb⟩
      · exact absurd (Option.some.inj (hi.symm.trans hs)) him
      · exact (h.setter i (hs.symm.trans hi) k hik).trans hb.symm
  case stable_le =>
    intro i k
    by_cases hi : i = m <;> by_cases hk : k = m
    · rw [hi, hk, Function.update_self, Function.update_self]
      exact min_le_left _ _
    · rw [hi, Function.update_self, Function.update_of_ne hk]
      exact h.min_le_last hm o hk
    · rw [hk, Function.update_self, Function.update_of_ne hi]
      exact h.stable_le_adjust ho i
    · rw [Function.update_of_ne hi, Function.update_of_ne hk]
      exact h.stable_le i k
  case stable_le_bound =>
    intro i
    by_cases hi : i = m
    · rw [hi, Function.update_self]
      exact min_le_left _ _
    · rw [Function.update_of_ne hi]
      exact h.stable_le_adjust ho i
  case stable_mono =>
    intro i k hik
    by_cases hi : i = m <;> by_cases hk : k = m
    · rw [hi, hk]
    · rw [hi, Function.update_self, Function.update_of_ne hk] at hik
      exact absurd hik (ht k).not_ge
    · rw [hk, Function.update_self, Function.update_of_ne hi]
      exact le_min (h.stable_le_adjust ho i) (h.stable_le i m)
    · rw [Function.update_of_ne hi, Function.update_of_ne hk] at hik ⊢
      exact h.stable_mono i k hik

end Circulating

/-! ## Turns -/

section Turns

variable {n : ℕ} {v : Fin n → ℕ} {r : ℕ} {p : Fin n}

/-- It is the turn of `p` in round `r`, where `v` counts the turns that everybody has had. -/
def Turn (v : Fin n → ℕ) (r : ℕ) (p : Fin n) : Prop :=
  ∀ i, v i = if (i : ℕ) < p then r + 1 else r

theorem Turn.self (h : Turn v r p) : v p = r := by rw [h p, if_neg (Nat.lt_irrefl _)]

/-- When a party has had its last turn. -/
def turnTime (v : Fin n → ℕ) (i : Fin n) : ℕ := v i * n + i

theorem turnTime_update (v : Fin n → ℕ) (i : Fin n) (k : ℕ) :
    turnTime (Function.update v i k) = Function.update (turnTime v) i (k * n + i) := by
  funext j
  unfold turnTime
  by_cases hj : j = i
  · rw [hj, Function.update_self, Function.update_self]
  · rw [Function.update_of_ne hj, Function.update_of_ne hj]

theorem Turn.time_le (h : Turn v r p) (i : Fin n) : turnTime v p ≤ turnTime v i := by
  have hi := i.isLt
  have hp := p.isLt
  unfold turnTime
  rw [h.self, h i]
  split_ifs
  · rw [Nat.add_one_mul]
    omega
  · omega

theorem Turn.lt_time (h : Turn v r p) (i : Fin n) : turnTime v i < (v p + 1) * n + p := by
  have hi := i.isLt
  unfold turnTime
  rw [h.self, h i, Nat.add_one_mul]
  split_ifs
  · rw [Nat.add_one_mul]
    omega
  · omega

variable [NeZero n]

theorem val_add_one (i : Fin n) :
    ((i + 1 : Fin n) : ℕ) = if (i : ℕ) + 1 < n then (i : ℕ) + 1 else 0 := by
  have hlt := i.isLt
  rw [Fin.val_add, Fin.val_one', Nat.add_mod_mod]
  split_ifs with h
  · exact Nat.mod_eq_of_lt h
  · rw [show (i : ℕ) + 1 = n by omega, Nat.mod_self]

theorem val_sub_one (i : Fin n) :
    ((i - 1 : Fin n) : ℕ) = if (i : ℕ) = 0 then n - 1 else (i : ℕ) - 1 := by
  have hi := val_add_one (i - 1)
  have hlt := (i - 1).isLt
  rw [sub_add_cancel] at hi
  split_ifs at hi ⊢ <;> omega

theorem val_eq_zero {i : Fin n} : (i : ℕ) = 0 ↔ i = 0 := by
  rw [← Fin.val_zero n, Fin.ext_iff]

/-- How many turns the party before `i` is ahead of it when `i` is next: the first party begins a
round. -/
def lead (i : Fin n) : ℕ := if i = 0 then 0 else 1

namespace Turn

theorem prev_le (h : Turn v r p) (i : Fin n) : v (i - 1) ≤ v i + lead i := by
  rw [h, h, lead]
  simp only [val_sub_one, ← val_eq_zero]
  have hi := i.isLt
  have hp := p.isLt
  split_ifs <;> omega

theorem prev_self (h : Turn v r p) : v (p - 1) = v p + lead p := by
  rw [h, h, lead]
  simp only [val_sub_one, ← val_eq_zero]
  have hp := p.isLt
  split_ifs <;> omega

/-- Only the party whose turn it is finds the one before it ahead. -/
theorem eq_of_prev (h : Turn v r p) {i : Fin n} (hi : v (i - 1) = v i + lead i) : i = p := by
  rw [h, h, lead] at hi
  simp only [val_sub_one, ← val_eq_zero] at hi
  have hlt := i.isLt
  have hp := p.isLt
  refine Fin.ext ?_
  split_ifs at hi <;> omega

theorem next (h : Turn v r p) : ∃ r', Turn (Function.update v p (v p + 1)) r' (p + 1) := by
  have hp := p.isLt
  by_cases hlast : (p : ℕ) + 1 < n
  · refine ⟨r, fun i => ?_⟩
    rw [val_add_one, if_pos hlast]
    by_cases hi : i = p
    · rw [hi, Function.update_self, h.self, if_pos (Nat.lt_succ_self _)]
    · have hne : (i : ℕ) ≠ p := fun he => hi (Fin.ext he)
      rw [Function.update_of_ne hi, h i]
      split_ifs <;> omega
  · refine ⟨r + 1, fun i => ?_⟩
    rw [val_add_one, if_neg hlast, if_neg (Nat.not_lt_zero _)]
    by_cases hi : i = p
    · rw [hi, Function.update_self, h.self]
    · have hne : (i : ℕ) ≠ p := fun he => hi (Fin.ext he)
      have hlt := i.isLt
      rw [Function.update_of_ne hi, h i, if_pos (by omega)]

end Turn

end Turns

end Lib
