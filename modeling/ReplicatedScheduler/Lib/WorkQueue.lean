import Mathlib.Tactic.Common
import Mathlib.Data.List.Count
import Mathlib.Data.List.Nodup
import Mathlib.Logic.Function.Basic

/-!
# Work queues

What a task scheduler is for, over any type of items and of workers: a queue of items that wait,
and for each item the worker that has it, if any. Items are added at the end, handed out from
the front, finished, and given back to the front.

**The law.** An item is in the queue at most once (`Unique`): either it waits, once, or one
worker has it. `count` is the number of places an item is in. Adding an item adds one to its
count, finishing a held item takes one away, and handing out and giving back change no count.
-/

namespace Lib

/-- Items that wait, in order, and who has the items that were handed out. -/
@[ext] structure WorkQueue (τ κ : Type*) where
  waiting : List τ
  holder : τ → Option κ

namespace WorkQueue

variable {τ κ : Type*} [DecidableEq τ]

def add (q : WorkQueue τ κ) (t : τ) : WorkQueue τ κ := { q with waiting := q.waiting ++ [t] }

/-- Give the first item to `k`. -/
def handOut (q : WorkQueue τ κ) (k : κ) : WorkQueue τ κ :=
  match q.waiting with
  | [] => q
  | t :: ts => ⟨ts, Function.update q.holder t (some k)⟩

def finish (q : WorkQueue τ κ) (t : τ) : WorkQueue τ κ :=
  { q with holder := Function.update q.holder t none }

/-- Take an item from its holder to the front of the queue. -/
def giveBack (q : WorkQueue τ κ) (t : τ) : WorkQueue τ κ :=
  ⟨t :: q.waiting, Function.update q.holder t none⟩

/-- Take items from their holders to the front of the queue, one after another. -/
def giveBackAll (q : WorkQueue τ κ) (ts : List τ) : WorkQueue τ κ := ts.foldl giveBack q

/-- An item is in the queue: it waits or somebody has it. -/
def Has (q : WorkQueue τ κ) (t : τ) : Prop := t ∈ q.waiting ∨ q.holder t ≠ none

/-- The number of places an item is in. -/
def count (q : WorkQueue τ κ) (t : τ) : ℕ :=
  q.waiting.count t + if (q.holder t).isSome then 1 else 0

/-- Every item is in one place at most. -/
def Unique (q : WorkQueue τ κ) : Prop := ∀ t, q.count t ≤ 1

/-! ## Which items are in the queue -/

theorem count_eq_zero {q : WorkQueue τ κ} {t : τ} : q.count t = 0 ↔ ¬ q.Has t := by
  unfold count Has
  rw [Nat.add_eq_zero_iff, List.count_eq_zero, not_or, not_not]
  cases q.holder t <;> simp

omit [DecidableEq τ] in
theorem has_add {q : WorkQueue τ κ} {t t' : τ} : (q.add t).Has t' ↔ q.Has t' ∨ t' = t := by
  unfold Has add
  rw [List.mem_append, List.mem_singleton]
  exact or_right_comm

theorem has_of_handOut {q : WorkQueue τ κ} {k : κ} {t : τ} (h : (q.handOut k).Has t) : q.Has t := by
  unfold handOut at h
  cases hw : q.waiting with
  | nil =>
    rw [hw] at h
    exact h
  | cons a ts =>
    rw [hw] at h
    replace h : t ∈ ts ∨ Function.update q.holder a (some k) t ≠ none := h
    unfold Has
    rw [hw, List.mem_cons]
    by_cases hta : t = a
    · exact Or.inl (Or.inl hta)
    · rw [Function.update_of_ne hta] at h
      exact h.imp_left Or.inr

theorem has_of_finish {q : WorkQueue τ κ} {t t' : τ} (h : (q.finish t).Has t') : q.Has t' := by
  refine h.imp_right fun hne => ?_
  simp only [finish, Function.update_apply] at hne
  split_ifs at hne with htt
  · exact absurd rfl hne
  · exact hne

/-! ## Uniqueness -/

theorem Unique.nodup {q : WorkQueue τ κ} (h : q.Unique) : q.waiting.Nodup :=
  List.nodup_iff_count_le_one.mpr fun t => Nat.le_trans (Nat.le_add_right _ _) (h t)

/-- An item that waits is held by nobody. -/
theorem Unique.holder_eq_none {q : WorkQueue τ κ} (h : q.Unique) {t : τ} (ht : t ∈ q.waiting) :
    q.holder t = none := by
  have hpos : 0 < q.waiting.count t := List.count_pos_iff.mpr ht
  have hle := h t
  unfold count at hle
  cases hq : q.holder t with
  | none => rfl
  | some k =>
    rw [hq, Option.isSome_some, if_pos rfl] at hle
    omega

/-! ## Counts -/

theorem count_add (q : WorkQueue τ κ) (t t' : τ) :
    (q.add t).count t' = q.count t' + if t' = t then 1 else 0 := by
  unfold count add
  rw [List.count_append, List.count_singleton']
  simp only [eq_comm (a := t)]
  omega

theorem count_handOut {q : WorkQueue τ κ} (h : q.Unique) (k : κ) (t : τ) :
    (q.handOut k).count t = q.count t := by
  unfold handOut
  cases hw : q.waiting with
  | nil => rfl
  | cons a ts =>
    have hnone := h.holder_eq_none (t := a) (by rw [hw]; exact List.mem_cons_self)
    by_cases hta : t = a
    · subst hta
      simp [count, hw, hnone]
    · simp [count, hw, Function.update_of_ne hta, List.count_cons_of_ne (Ne.symm hta)]

theorem count_finish (q : WorkQueue τ κ) (t t' : τ) :
    (q.finish t).count t' + (if t' = t ∧ (q.holder t).isSome then 1 else 0) = q.count t' := by
  unfold count finish
  by_cases htt : t' = t
  · subst htt
    simp
  · simp [htt]

theorem count_giveBack {q : WorkQueue τ κ} {t : τ} (ht : q.holder t ≠ none) (t' : τ) :
    (q.giveBack t).count t' = q.count t' := by
  unfold count giveBack
  by_cases htt : t' = t
  · subst htt
    simp [Option.isSome_iff_ne_none.mpr ht]
  · simp [htt, List.count_cons_of_ne (Ne.symm htt)]

/-- A new item may be added. -/
theorem Unique.add {q : WorkQueue τ κ} (h : q.Unique) {t : τ} (ht : q.count t = 0) :
    (q.add t).Unique := fun t' => by
  rw [count_add]
  split_ifs with htt
  · subst htt
    omega
  · exact h t'

theorem Unique.handOut {q : WorkQueue τ κ} (h : q.Unique) (k : κ) : (q.handOut k).Unique :=
  fun t => by
    rw [count_handOut h]
    exact h t

theorem Unique.finish {q : WorkQueue τ κ} (h : q.Unique) (t : τ) : (q.finish t).Unique :=
  fun t' =>
  Nat.le_trans (Nat.le_add_right _ _) (count_finish q t t' ▸ h t')

theorem Unique.giveBack {q : WorkQueue τ κ} (h : q.Unique) {t : τ} (ht : q.holder t ≠ none) :
    (q.giveBack t).Unique := fun t' => by
  rw [count_giveBack ht]
  exact h t'

/-! ## Giving back several items -/

theorem holder_giveBackAll (q : WorkQueue τ κ) (ts : List τ) (t : τ) :
    (q.giveBackAll ts).holder t = if t ∈ ts then none else q.holder t := by
  induction ts generalizing q with
  | nil => rfl
  | cons a ts ih =>
    show ((q.giveBack a).giveBackAll ts).holder t = _
    simp only [ih, giveBack, Function.update_apply]
    by_cases hta : t = a <;> simp [hta]

theorem Unique.giveBackAll {q : WorkQueue τ κ} (h : q.Unique) {ts : List τ} (hnodup : ts.Nodup)
    (hheld : ∀ t ∈ ts, q.holder t ≠ none) : (q.giveBackAll ts).Unique := by
  induction ts generalizing q with
  | nil => exact h
  | cons a ts ih =>
    obtain ⟨ha, hnodup⟩ := List.nodup_cons.mp hnodup
    obtain ⟨hheld, hrest⟩ := List.forall_mem_cons.mp hheld
    refine ih (h.giveBack hheld) hnodup fun t ht => ?_
    have hta : t ≠ a := fun hta => ha (hta ▸ ht)
    show Function.update q.holder a none t ≠ none
    rw [Function.update_of_ne hta]
    exact hrest t ht

end WorkQueue

end Lib
