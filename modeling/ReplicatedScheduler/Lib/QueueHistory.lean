import ReplicatedScheduler.Lib.Replay
import ReplicatedScheduler.Lib.WorkQueue

/-!
# The history of a work queue

What happened to the items of a work queue, in order: an item is accepted, handed out, recovered
from the worker that had it. `Evolves es q` says that the queue `q` came about with history `es`.

**The order of service** (`Evolves.waiting_eq`). The items that wait are those that were recovered
and not handed out since, and then those that were never handed out since they were accepted
(`fresh`), in the order in which they were accepted.

**Its consequences.** An item is handed out only after every item accepted before it
(`Evolves.handedOut_of_accepted`). And while a recovered item waits, none is handed out for the
first time (`Evolves.not_returned`).
-/

namespace Lib

/-- What happens to an item. -/
inductive Event (τ : Type*)
  | accepted (t : τ)
  | handedOut (t : τ)
  | recovered (t : τ)
  deriving DecidableEq

namespace Event

variable {τ : Type*}

def item : Event τ → τ
  | .accepted t | .handedOut t | .recovered t => t

/-- The item has not been handed out since it was accepted. -/
def AwaitsFirst (es : List (Event τ)) (t : τ) : Prop :=
  ∃ e₁ e₂, es = e₁ ++ .accepted t :: e₂ ∧ .handedOut t ∉ e₂

/-- The item was handed out, and nothing happened to it since. -/
def IsOut (es : List (Event τ)) (t : τ) : Prop :=
  ∃ e₁ e₂, es = e₁ ++ .handedOut t :: e₂ ∧ ∀ e ∈ e₂, e.item ≠ t

/-- The item was handed out and then recovered, and nothing else happened to it since. -/
def Returned (es : List (Event τ)) (t : τ) : Prop :=
  ∃ e₁ e₂ e₃, es = e₁ ++ .handedOut t :: (e₂ ++ .recovered t :: e₃) ∧
    ∀ e ∈ e₂ ++ e₃, e.item ≠ t

theorem IsOut.append {es : List (Event τ)} {t : τ} (h : IsOut es t) {e : Event τ}
    (he : e.item ≠ t) : IsOut (es ++ [e]) t := by
  obtain ⟨e₁, e₂, rfl, hrest⟩ := h
  refine ⟨e₁, e₂ ++ [e], by simp, fun e' he' => ?_⟩
  rcases List.mem_append.mp he' with he' | he'
  · exact hrest e' he'
  · rw [List.mem_singleton.mp he']
    exact he

theorem Returned.append {es : List (Event τ)} {t : τ} (h : Returned es t) {e : Event τ}
    (he : e.item ≠ t) : Returned (es ++ [e]) t := by
  obtain ⟨e₁, e₂, e₃, rfl, hrest⟩ := h
  refine ⟨e₁, e₂, e₃ ++ [e], by simp, fun e' he' => ?_⟩
  rw [← List.append_assoc] at he'
  rcases List.mem_append.mp he' with he' | he'
  · exact hrest e' he'
  · rw [List.mem_singleton.mp he']
    exact he

theorem IsOut.recovered {es : List (Event τ)} {t : τ} (h : IsOut es t) :
    Returned (es ++ [.recovered t]) t := by
  obtain ⟨e₁, e₂, rfl, hrest⟩ := h
  exact ⟨e₁, e₂, [], by simp, by simpa using hrest⟩

/-- An item that was returned was handed out after it was last accepted. -/
theorem Returned.not_awaitsFirst {es : List (Event τ)} {t : τ} (h : Returned es t) :
    ¬ AwaitsFirst es t := by
  rintro ⟨e₁, e₂, rfl, hout⟩
  obtain ⟨d₁, d₂, d₃, hsplit, hrest⟩ := h
  have hnone : Event.accepted t ∉ d₂ ++ Event.recovered t :: d₃ := by
    intro hmem
    rcases List.mem_append.mp hmem with hmem | hmem
    · exact hrest _ (List.mem_append_left _ hmem) rfl
    · rcases List.mem_cons.mp hmem with heq | hmem
      · cases heq
      · exact hrest _ (List.mem_append_right _ hmem) rfl
  rcases List.append_eq_append_iff.mp hsplit with ⟨as, rfl, has⟩ | ⟨bs, rfl, hbs⟩
  · -- accepted first
    cases as with
    | nil => cases has
    | cons a as =>
      obtain ⟨-, rfl⟩ := List.cons.inj has
      exact hout (List.mem_append_right _ List.mem_cons_self)
  · cases bs with
    | nil => cases hbs
    | cons b bs =>
      obtain ⟨-, htail⟩ := List.cons.inj hbs
      rw [htail] at hnone
      exact hnone (List.mem_append_right _ List.mem_cons_self)

variable [DecidableEq τ]

/-- The items never handed out since they were accepted, in order of acceptance. -/
def fresh : List (Event τ) → List τ
  | [] => []
  | .accepted t :: es => if .handedOut t ∈ es then fresh es else t :: fresh es
  | .handedOut _ :: es | .recovered _ :: es => fresh es

theorem fresh_append (es es' : List (Event τ)) :
    fresh (es ++ es') = ((fresh es).filter fun t => .handedOut t ∉ es') ++ fresh es' := by
  induction es with
  | nil => rfl
  | cons e es ih =>
    cases e with
    | handedOut t | recovered t => exact ih
    | accepted t =>
      by_cases hes : .handedOut t ∈ es
      · simpa [fresh, hes] using ih
      · by_cases hes' : .handedOut t ∈ es'
        · simpa [fresh, hes, hes'] using ih
        · simpa [fresh, hes, hes'] using ih

theorem mem_fresh {es : List (Event τ)} {t : τ} : t ∈ fresh es ↔ AwaitsFirst es t := by
  constructor
  · intro h
    induction es with
    | nil => cases h
    | cons e es ih =>
      have hcons : t ∈ fresh es → AwaitsFirst (e :: es) t := by
        intro hmem
        obtain ⟨e₁, e₂, rfl, hout⟩ := ih hmem
        exact ⟨e :: e₁, e₂, rfl, hout⟩
      cases e with
      | handedOut a | recovered a => exact hcons h
      | accepted a =>
        simp only [fresh] at h
        split_ifs at h with ha
        · exact hcons h
        · rcases List.mem_cons.mp h with rfl | h
          · exact ⟨[], es, rfl, ha⟩
          · exact hcons h
  · rintro ⟨e₁, e₂, rfl, hout⟩
    rw [fresh_append, fresh, if_neg hout]
    exact List.mem_append_right _ List.mem_cons_self

end Event

namespace WorkQueue

open Event

variable {τ κ : Type*} [DecidableEq τ]

/-- A queue, from the empty one, with what happened to its items. Finishing an item is not
recorded. -/
inductive Evolves : List (Event τ) → WorkQueue τ κ → Prop
  | start : Evolves [] ⟨[], fun _ => none⟩
  | add {es : List (Event τ)} {q : WorkQueue τ κ} (h : Evolves es q) {t : τ} (ht : ¬ q.Has t) :
      Evolves (es ++ [.accepted t]) (q.add t)
  | handOut {es : List (Event τ)} {q : WorkQueue τ κ} (h : Evolves es q) {t : τ} {ts : List τ}
      (hw : q.waiting = t :: ts) (k : κ) : Evolves (es ++ [.handedOut t]) (q.handOut k)
  | giveBack {es : List (Event τ)} {q : WorkQueue τ κ} (h : Evolves es q) {t : τ}
      (ht : q.holder t ≠ none) : Evolves (es ++ [.recovered t]) (q.giveBack t)
  | finish {es : List (Event τ)} {q : WorkQueue τ κ} (h : Evolves es q) (t : τ) :
      Evolves es (q.finish t)

theorem Evolves.unique {es : List (Event τ)} {q : WorkQueue τ κ} (h : Evolves es q) :
    q.Unique := by
  induction h with
  | start => exact fun t => by simp [count]
  | add _ ht ih => exact ih.add (count_eq_zero.mpr ht)
  | handOut _ _ k ih => exact ih.handOut k
  | giveBack _ ht ih => exact ih.giveBack ht
  | finish _ t ih => exact ih.finish t

/-- What the history tells of the items that wait and of those that are held. -/
structure Ordered (es : List (Event τ)) (q : WorkQueue τ κ) : Prop where
  waiting : ∃ rs, q.waiting = rs ++ fresh es ∧ ∀ t ∈ rs, Returned es t
  held : ∀ t, q.holder t ≠ none → IsOut es t

theorem Ordered.add {es : List (Event τ)} {q : WorkQueue τ κ} (h : Ordered es q) {t : τ}
    (ht : ¬ q.Has t) : Ordered (es ++ [.accepted t]) (q.add t) where
  waiting := by
    obtain ⟨rs, hw, hrs⟩ := h.waiting
    refine ⟨rs, ?_, fun t' ht' => (hrs t' ht').append ?_⟩
    · show q.waiting ++ [t] = rs ++ fresh (es ++ [.accepted t])
      rw [fresh_append, hw, List.append_assoc]
      simp [fresh]
    · rintro rfl
      refine ht (Or.inl ?_)
      rw [hw]
      exact List.mem_append_left _ ht'
  held := fun t' ht' => by
    refine (h.held t' ht').append ?_
    rintro rfl
    exact ht (Or.inr ht')

theorem Ordered.handOut {es : List (Event τ)} {q : WorkQueue τ κ} (h : Ordered es q)
    (hunique : q.Unique) {t : τ} {ts : List τ} (hw : q.waiting = t :: ts) (k : κ) :
    Ordered (es ++ [.handedOut t]) (q.handOut k) := by
  have hq : q.handOut k = ⟨ts, Function.update q.holder t (some k)⟩ := by rw [WorkQueue.handOut, hw]
  have hnodup := hunique.nodup
  rw [hw] at hnodup
  obtain ⟨hnew, -⟩ := List.nodup_cons.mp hnodup
  have hfilter : ∀ l : List τ, t ∉ l →
      l.filter (fun t' => .handedOut t' ∉ [Event.handedOut t]) = l :=
    fun l hl => List.filter_eq_self.mpr fun t' ht' => by
      have htt : t' ≠ t := fun htt => hl (htt ▸ ht')
      simpa using htt
  obtain ⟨rs, hsplit, hrs⟩ := h.waiting
  rw [hw] at hsplit
  rw [hq]
  refine ⟨?_, fun t' ht' => ?_⟩
  · show ∃ rs, ts = rs ++ fresh (es ++ [.handedOut t]) ∧ _
    rw [fresh_append]
    cases rs with
    | nil =>
      -- the first of the fresh items
      rw [List.nil_append] at hsplit
      refine ⟨[], ?_, by simp⟩
      rw [← hsplit, List.filter_cons_of_neg (by simp), hfilter ts hnew]
      simp [fresh]
    | cons r rs =>
      obtain ⟨rfl, rfl⟩ := List.cons.inj hsplit
      refine ⟨rs, ?_, fun t' ht' => (hrs t' (List.mem_cons_of_mem _ ht')).append ?_⟩
      · rw [hfilter _ fun hmem => hnew (List.mem_append_right _ hmem)]
        simp [fresh]
      · rintro rfl
        exact hnew (List.mem_append_left _ ht')
  · by_cases htt : t' = t
    · subst htt
      exact ⟨es, [], rfl, by simp⟩
    · replace ht' : Function.update q.holder t (some k) t' ≠ none := ht'
      rw [Function.update_of_ne htt] at ht'
      exact (h.held t' ht').append (Ne.symm htt)

theorem Ordered.giveBack {es : List (Event τ)} {q : WorkQueue τ κ} (h : Ordered es q)
    (hunique : q.Unique) {t : τ} (ht : q.holder t ≠ none) :
    Ordered (es ++ [.recovered t]) (q.giveBack t) where
  waiting := by
    obtain ⟨rs, hw, hrs⟩ := h.waiting
    refine ⟨t :: rs, ?_, fun t' ht' => ?_⟩
    · show t :: q.waiting = t :: rs ++ fresh (es ++ [.recovered t])
      rw [fresh_append, hw]
      simp [fresh]
    · rcases List.mem_cons.mp ht' with rfl | ht'
      · exact (h.held t' ht).recovered
      · refine (hrs t' ht').append ?_
        rintro rfl
        exact ht (hunique.holder_eq_none (by rw [hw]; exact List.mem_append_left _ ht'))
  held := fun t' ht' => by
    replace ht' : Function.update q.holder t none t' ≠ none := ht'
    by_cases htt : t' = t
    · rw [htt, Function.update_self] at ht'
      exact absurd rfl ht'
    · rw [Function.update_of_ne htt] at ht'
      exact (h.held t' ht').append (Ne.symm htt)

theorem Ordered.finish {es : List (Event τ)} {q : WorkQueue τ κ} (h : Ordered es q) (t : τ) :
    Ordered es (q.finish t) where
  waiting := h.waiting
  held := fun t' ht' => by
    refine h.held t' fun hnone => ht' ?_
    show Function.update q.holder t none t' = none
    rw [Function.update_apply, hnone, ite_self]

theorem Evolves.ordered {es : List (Event τ)} {q : WorkQueue τ κ} (h : Evolves es q) :
    Ordered es q := by
  induction h with
  | start => exact ⟨⟨[], rfl, by simp⟩, fun t ht => absurd rfl ht⟩
  | add _ ht ih => exact ih.add ht
  | handOut h hw k ih => exact ih.handOut h.unique hw k
  | giveBack h ht ih => exact ih.giveBack h.unique ht
  | finish _ t ih => exact ih.finish t

/-- **Recovered items wait first, and then the fresh ones in order of acceptance.** -/
theorem Evolves.waiting_eq {es : List (Event τ)} {q : WorkQueue τ κ} (h : Evolves es q) :
    ∃ rs, q.waiting = rs ++ fresh es ∧ ∀ t ∈ rs, Returned es t :=
  h.ordered.waiting

/-- No item is handed out for the first time while a recovered one waits. -/
theorem Evolves.not_returned {es : List (Event τ)} {q : WorkQueue τ κ} (h : Evolves es q) {t : τ}
    {ts : List τ} (hw : q.waiting = t :: ts) (ht : AwaitsFirst es t) :
    ∀ t' ∈ q.waiting, ¬ Returned es t' := by
  obtain ⟨rs, hsplit, hrs⟩ := h.waiting_eq
  cases rs with
  | nil =>
    intro t' ht' hret
    rw [hsplit] at ht'
    exact hret.not_awaitsFirst (mem_fresh.mp ht')
  | cons r rs =>
    rw [hw] at hsplit
    obtain ⟨rfl, -⟩ := List.cons.inj hsplit
    exact absurd ht (hrs t List.mem_cons_self).not_awaitsFirst

/-- The item at the front was accepted before every item that awaits its first turn. -/
theorem Evolves.front {es : List (Event τ)} {q : WorkQueue τ κ} (h : Evolves es q) {b : τ}
    {ts : List τ} (hw : q.waiting = b :: ts) {a : τ} {e₁ e₂ e₃ : List (Event τ)}
    (hes : es = e₁ ++ .accepted a :: (e₂ ++ .accepted b :: e₃)) (hb : .handedOut b ∉ e₃) :
    .handedOut a ∈ e₂ ++ e₃ := by
  by_contra ha
  obtain ⟨rs, hsplit, -⟩ := h.waiting_eq
  have hnodup := h.unique.nodup
  have hfirst : fresh es = ((fresh (e₁ ++ .accepted a :: e₂)).filter fun t =>
      .handedOut t ∉ Event.accepted b :: e₃) ++ b :: fresh e₃ := by
    rw [hes, ← List.cons_append, ← List.append_assoc, fresh_append, fresh, if_neg hb]
  have hmem : a ∈ (fresh (e₁ ++ .accepted a :: e₂)).filter fun t =>
      .handedOut t ∉ Event.accepted b :: e₃ := by
    rw [List.mem_append, not_or] at ha
    refine List.mem_filter.mpr ⟨mem_fresh.mpr ⟨e₁, e₂, rfl, ha.1⟩, ?_⟩
    simpa using ha.2
  -- the front is `b`, and `b` stands behind `a` as well
  obtain ⟨x, pre, hpre⟩ := List.exists_cons_of_ne_nil
    (List.ne_nil_of_mem (List.mem_append_right rs hmem))
  rw [hfirst, ← List.append_assoc, hpre, hw] at hsplit
  obtain ⟨rfl, rfl⟩ := List.cons.inj hsplit
  rw [hw] at hnodup
  exact (List.nodup_cons.mp hnodup).1 (List.mem_append_right _ List.mem_cons_self)

/-- **An item is handed out only after every item that was accepted before it.** -/
theorem Evolves.handedOut_of_accepted {es : List (Event τ)} {q : WorkQueue τ κ}
    (h : Evolves es q) {a b : τ} {e₁ e₂ e₃ e₄ : List (Event τ)}
    (hes : es = e₁ ++ .accepted a :: (e₂ ++ .accepted b :: e₃) ++ .handedOut b :: e₄) :
    .handedOut a ∈ e₂ ++ e₃ := by
  induction h generalizing e₃ e₄ with
  | start => cases e₁ <;> cases hes
  | finish _ _ ih => exact ih hes
  | add _ _ ih =>
    rcases concat_eq_append_cons hes with ⟨-, heq, -⟩ | ⟨e₄, -, hes⟩
    · cases heq
    · exact ih hes
  | giveBack _ _ ih =>
    rcases concat_eq_append_cons hes with ⟨-, heq, -⟩ | ⟨e₄, -, hes⟩
    · cases heq
    · exact ih hes
  | @handOut es _ h t _ hw k ih =>
    rcases concat_eq_append_cons hes with ⟨hes, heq, -⟩ | ⟨e₄, -, hes⟩
    · obtain rfl := Event.handedOut.inj heq
      by_cases hout : .handedOut t ∈ e₃
      · -- handed out before, and so was `a` before that
        obtain ⟨f, g, rfl⟩ := List.append_of_mem hout
        have hes' : es = e₁ ++ .accepted a :: (e₂ ++ .accepted t :: f) ++ .handedOut t :: g := by
          rw [hes]
          simp
        rw [← List.append_assoc]
        exact List.mem_append_left _ (ih hes')
      · exact h.front hw hes hout
    · exact ih hes

end WorkQueue

end Lib
