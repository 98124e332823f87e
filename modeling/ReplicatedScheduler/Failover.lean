import ReplicatedScheduler.Lib.Replay
import ReplicatedScheduler.SchedulerImp

/-!
# Failing over a client

**Theorem (`failover_iff`).** `shiftTasksFromClient` fails over a client, in whatever order the map
is iterated over, if and only if no task of the client is followed by another entry.

The loop removes from the map that it iterates over, and the iterator is fail-fast. So at the
first task of the client the loop ends: normally when that entry is the last, and with a
`ConcurrentModificationException` when there is another, whoever has that one. The task has been
moved by then. Nothing is undone, and any further task of the client stays with it.
-/

namespace ReplicatedScheduler

open JavaLib Lib SchedulerImp

/-- Failing over client `c` from `s`, complete and atomic: `r` is the scheduler that is left and
the exception thrown, if any. -/
structure FailsOver (s : SchedulerImp) (c : SpreadGroup) (r : SchedulerImp × Option JavaException) :
    Prop where
  returns : r.2 = none
  /-- No entry of `c` is left, and those of other clients are the same. -/
  entries : ∀ e, e ∈ r.1.processingTasks.entries ↔ e ∈ s.processingTasks.entries ∧ e.2 ≠ c
  /-- The tasks of `c`, each once, are in front of those that waited. -/
  requeued : ∃ ts : List Task,
    ts.Perm ((s.processingTasks.entries.filter fun e => e.2 = c).map Prod.fst) ∧
      r.1.waitingTasks = ts ++ s.waitingTasks

/-- No entry of client `c` is followed by another entry. -/
def LastOnly (c : SpreadGroup) (es : List (Task × SpreadGroup)) : Prop :=
  ∀ pre t post, es = pre ++ (t, c) :: post → post = []

theorem lastOnly_of_forall_ne {c : SpreadGroup} {es : List (Task × SpreadGroup)}
    (h : ∀ e ∈ es, e.2 ≠ c) : LastOnly c es := by
  rintro pre t post rfl
  exact absurd rfl (h (t, c) (by simp))

theorem lastOnly_concat {c : SpreadGroup} {es : List (Task × SpreadGroup)}
    (h : ∀ e ∈ es, e.2 ≠ c) (e : Task × SpreadGroup) : LastOnly c (es ++ [e]) := by
  intro pre t post hsplit
  rcases concat_eq_append_cons hsplit with ⟨-, -, hnil⟩ | ⟨post, -, rfl⟩
  · exact hnil
  · exact absurd rfl (h (t, c) (by simp))

/-- A client without tasks. -/
theorem failsOver_self {s : SchedulerImp} {c : SpreadGroup}
    (h : ∀ e ∈ s.processingTasks.entries, e.2 ≠ c) : FailsOver s c (s, none) where
  returns := rfl
  entries := fun e => ⟨fun he => ⟨he, h e he⟩, And.left⟩
  requeued := by
    refine ⟨[], ?_, rfl⟩
    rw [List.filter_eq_nil_iff.mpr fun e he => by simpa using h e he]
    exact List.Perm.refl _

/-- A client with one task, which is shifted. -/
theorem failsOver_shiftTask {s : SchedulerImp} {c : SpreadGroup} {t : Task}
    {pre : List (Task × SpreadGroup)} (hes : (pre ++ [(t, c)]).Perm s.processingTasks.entries)
    (hpre : ∀ e ∈ pre, e.2 ≠ c) : FailsOver s c (s.shiftTask t, none) where
  returns := rfl
  entries := fun e => by
    have hmem : (t, c) ∈ s.processingTasks.entries := hes.mem_iff.mp (by simp)
    show e ∈ (s.processingTasks.remove t).entries ↔ _
    rw [HashMap.mem_entries_remove, and_comm]
    refine and_congr_right fun he => not_congr ⟨fun het => ?_, fun hec => ?_⟩
    · -- a task has one entry
      have hget := HashMap.get?_eq_some.mpr hmem
      rw [← het, HashMap.get?_eq_some.mpr he] at hget
      exact Option.some.inj hget
    · rcases List.mem_append.mp (hes.mem_iff.mpr he) with hin | hin
      · exact absurd hec (hpre e hin)
      · rw [List.mem_singleton.mp hin]
  requeued := by
    refine ⟨[t], ?_, rfl⟩
    have hfilter : ((pre ++ [(t, c)]).filter fun e => e.2 = c) = [(t, c)] := by
      rw [List.filter_append, List.filter_eq_nil_iff.mpr fun e he => by simpa using hpre e he]
      simp
    have hperm := (hes.filter fun e => decide (e.2 = c)).map Prod.fst
    rw [hfilter] at hperm
    exact hperm

/-- The loop in any iteration order of the map. -/
theorem failsOver_shiftLoop_iff {s : SchedulerImp} {c : SpreadGroup}
    {es : List (Task × SpreadGroup)} (hes : es.Perm s.processingTasks.entries) :
    FailsOver s c (shiftLoop (some c) es false s) ↔ LastOnly c es := by
  rcases shiftLoop_cases (some c) es s with ⟨hnone, h⟩ | ⟨pre, e, post, rfl, hpre, he, h⟩
  · have hne : ∀ e ∈ es, e.2 ≠ c := fun e he hec => hnone e he (congrArg some hec)
    rw [h]
    exact iff_of_true (failsOver_self fun e he => hne e (hes.mem_iff.mpr he))
      (lastOnly_of_forall_ne hne)
  · have hne : ∀ e ∈ pre, e.2 ≠ c := fun e he hec => hpre e he (congrArg some hec)
    obtain ⟨t, d⟩ := e
    obtain rfl : d = c := Option.some.inj he
    rw [h]
    constructor
    · intro hover
      have hpost : post = [] := by
        by_contra hpost
        have hreturns := hover.returns
        rw [if_neg hpost] at hreturns
        cases hreturns
      subst hpost
      exact lastOnly_concat hne (t, d)
    · intro hlast
      obtain rfl : post = [] := hlast pre t post rfl
      exact failsOver_shiftTask hes hne

/-- **Failing over a client is complete and atomic exactly when none of its tasks is followed by
another entry of the map.** In the order that the map has, and in any other. -/
theorem failover_iff (s : SchedulerImp) (c : SpreadGroup) :
    (FailsOver s c (s.shiftTasksFromClient (some c)) ↔ LastOnly c s.processingTasks.entries) ∧
      ∀ es, es.Perm s.processingTasks.entries →
        (FailsOver s c (shiftLoop (some c) es false s) ↔ LastOnly c es) :=
  ⟨failsOver_shiftLoop_iff (List.Perm.refl _), fun _ hes => failsOver_shiftLoop_iff hes⟩

/-- Client `c` has two tasks. The first is moved, and then the loop throws. -/
theorem failover_interrupted : ¬ ∀ (s : SchedulerImp) (c : SpreadGroup),
    FailsOver s c (s.shiftTasksFromClient (some c)) := by
  intro hall
  have h := (hall ⟨[], (HashMap.empty.put ⟨some (str "u")⟩ (str "c")).put ⟨some (str "v")⟩
    (str "c")⟩ (str "c")).returns
  exact absurd h (by decide +kernel)

end ReplicatedScheduler
