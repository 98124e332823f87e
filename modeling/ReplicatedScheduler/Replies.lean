import ReplicatedScheduler.Conservation
import ReplicatedScheduler.RemoteScheduler
import ReplicatedScheduler.Serialization

/-!
# Replies that tell the truth

**Theorem (`replies_truthful_iff`).** In every scheduler that a server comes to have, a request is
answered by one reply, to its sender and under its id, that is true of the scheduler before and
after it, if and only if its duplicate check meets no null url and it is not an `EndTaskReq` for a
task that is not being processed.

What a reply says (`Truth`) has the same form for the three requests: its flag tells whether the
operation was possible before, a positive reply has done it, and a negative one has changed
nothing. `newTask` and `getTask` throw when they refuse, and the handlers turn the exception into
a negative reply. `endTask` drops the result of `remove` and never throws, so its reply is always
positive, and the exception that the client declares is never thrown. A null url makes `newTask`
throw an exception that no handler catches, and there is no reply.
-/

namespace ReplicatedScheduler

open JavaLib Lib

/-! ## What replies say -/

/-- The reply `res` to `newTask(url)`. -/
structure NewTaskTruth (s s' : SchedulerImp) (url : Option JavaString) (res : Bool) : Prop where
  possible : res = true ↔ ∀ t ∈ s.tasks, t.url ≠ url
  done : res = true → s'.waitingTasks = s.waitingTasks ++ [⟨url⟩] ∧
    s'.processingTasks = s.processingTasks
  refused : res = false → s' = s

/-- The reply `res`, `status` to `getTask` of `client`. -/
structure GetTaskTruth (s s' : SchedulerImp) (client : SpreadGroup) (res : Option Task)
    (status : Bool) : Prop where
  possible : status = true ↔ s.waitingTasks ≠ []
  done : status = true → ∃ t, res = some t ∧ s.waitingTasks = t :: s'.waitingTasks ∧
    s'.processingTasks = s.processingTasks.put t client
  refused : status = false → s' = s

/-- The reply `res` to `endTask(t)`, and what the client's call does with it. -/
structure EndTaskTruth (s s' : SchedulerImp) (id : JavaInt) (t : Option Task) (res : Bool) :
    Prop where
  possible : res = true ↔ ∃ t' ∈ t, t' ∈ s.processingTasks.keys
  done : res = true → ∀ t' ∈ t, t' ∉ s'.waitingTasks ∧ t' ∉ s'.processingTasks.keys
  refused : res = false → s' = s
  thrown : Call.outcome (.endTaskRep id res) (.endTask t) =
      .throws ⟨.noSuchElementException, some (str "The task isn't marked as pending.")⟩ ↔
    ¬ ∃ t' ∈ t, t' ∈ s.processingTasks.keys

/-- What a reply to a request says of the scheduler before and after. -/
def Truth (s s' : SchedulerImp) (sender : SpreadGroup) : Req → Rep → Prop
  | .newTaskReq _ url, .newTaskRep _ res => NewTaskTruth s s' url res
  | .getTaskReq _, .getTaskRep _ res status => GetTaskTruth s s' sender res status
  | .endTaskReq _ t, .endTaskRep id res => EndTaskTruth s s' id t res
  | _, _ => False

/-- The main handlers answer a request by one reply, to its sender and under its id, and that reply
is true. -/
def Truthful (s : SchedulerImp) (sender : SpreadGroup) (r : Req) : Prop :=
  let h := mainHandler SchedulerImp.shiftTasksFromClient s sender (.req r)
  ∃ rep : Rep, h.sent = [.reply sender rep] ∧ rep.id = r.id ∧ Truth s h.scheduler sender r rep

/-- The task to end, if any, is being processed. -/
def Req.IsPending (s : SchedulerImp) : Req → Prop
  | .endTaskReq _ t => ∃ t' ∈ t, t' ∈ s.processingTasks.keys
  | _ => True

/-- The schedulers that servers come to have: by handling messages, from an empty scheduler or
from one that was received. -/
inductive SchedulerImp.Reached : SchedulerImp → Prop
  | empty : Reached empty
  | handle {s : SchedulerImp} (h : Reached s) (m : SpreadGroup × ServerMsg) : Reached (s.handle m)
  | copy {s : SchedulerImp} (h : Reached s) : Reached s.copy

theorem SchedulerImp.Reached.unique {s : SchedulerImp} (h : s.Reached) : s.ledger.Unique := by
  induction h with
  | empty => exact unique_empty
  | handle _ m ih => exact unique_handle ih m
  | copy _ ih =>
    rw [ledger_copy]
    exact ih

/-! ## The three requests -/

theorem truthful_newTaskReq_iff (s : SchedulerImp) (sender : SpreadGroup) (id : JavaInt)
    (url : Option JavaString) : Truthful s sender (.newTaskReq id url) ↔ ¬ s.MeetsNull url := by
  rw [s.meetsNull_iff]
  simp only [Truthful, mainHandler, onReq, onNewTaskReq]
  rcases s.newTask_cases url with ⟨hnew, h⟩ | ⟨-, ⟨t, ht, hurl⟩, h⟩ | ⟨-, h⟩
  · rw [h]
    refine iff_of_true ⟨_, rfl, rfl, ?_⟩ (by simp)
    exact {
      possible := iff_of_true rfl fun t ht => (hnew t ht).2
      done := fun _ => ⟨rfl, rfl⟩
      refused := fun hres => Bool.noConfusion hres }
  · rw [h]
    refine iff_of_true ⟨_, rfl, rfl, ?_⟩ (by simp)
    exact {
      possible := iff_of_false Bool.false_ne_true fun hall => hall t ht hurl
      done := fun hres => Bool.noConfusion hres
      refused := fun _ => rfl }
  · -- a null url was met, and nothing is sent
    rw [h]
    refine iff_of_false ?_ (not_not_intro rfl)
    rintro ⟨rep, hsent, -⟩
    cases hsent

theorem truthful_getTaskReq (s : SchedulerImp) (sender : SpreadGroup) (id : JavaInt) :
    Truthful s sender (.getTaskReq id) := by
  simp only [Truthful, mainHandler, onReq, onGetTaskReq]
  cases h : s.getTask with
  | ok p =>
    obtain ⟨t, s'⟩ := p
    have hw := (SchedulerImp.ledger_getTask h sender).1
    refine ⟨_, rfl, rfl, ?_⟩
    exact {
      possible := iff_of_true rfl fun hnil => by
        rw [hw] at hnil
        cases hnil
      done := fun _ => ⟨t, rfl, hw, by
        rw [← SchedulerImp.processingTasks_getTask h]
        rfl⟩
      refused := fun hres => Bool.noConfusion hres }
  | error e =>
    obtain ⟨hw, rfl⟩ := SchedulerImp.getTask_eq_error h
    refine ⟨_, rfl, rfl, ?_⟩
    exact {
      possible := iff_of_false Bool.false_ne_true (not_not_intro hw)
      done := fun hres => Bool.noConfusion hres
      refused := fun _ => rfl }

/-- A task that is being processed does not wait, so when it is ended it is gone. -/
theorem notMem_endTask {s : SchedulerImp} (h : s.ledger.Unique) {t : Task}
    (ht : t ∈ s.processingTasks.keys) :
    t ∉ s.waitingTasks ∧ t ∉ (s.processingTasks.remove t).keys := by
  refine ⟨fun hw => HashMap.get?_eq_none.mp (h.holder_eq_none hw) ht, ?_⟩
  rw [← HashMap.get?_eq_none, HashMap.get?_remove, if_pos rfl]

theorem truthful_endTaskReq_iff {s : SchedulerImp} (h : s.ledger.Unique) (sender : SpreadGroup)
    (id : JavaInt) (t : Option Task) :
    Truthful s sender (.endTaskReq id t) ↔ ∃ t' ∈ t, t' ∈ s.processingTasks.keys := by
  have hsent : (onReq s sender (.endTaskReq id t)).sent =
      [.reply sender (.endTaskRep id true)] := by
    cases t <;> rfl
  constructor
  · rintro ⟨rep, hrep, -, htruth⟩
    obtain ⟨-, rfl⟩ := Output.reply.inj (List.singleton_inj.mp (hsent.symm.trans hrep))
    have hpossible : EndTaskTruth s _ id t true := htruth
    exact hpossible.possible.mp rfl
  · intro hpending
    refine ⟨.endTaskRep id true, hsent, rfl, ?_⟩
    exact {
      possible := iff_of_true rfl hpending
      done := fun _ t' ht' => by
        obtain ⟨t, rfl, ht⟩ := hpending
        obtain rfl := Option.some.inj ht'
        exact notMem_endTask h ht
      refused := fun hres => Bool.noConfusion hres
      thrown := iff_of_false Outcome.noConfusion (not_not_intro hpending) }

/-- **A request is answered truly unless its duplicate check meets a null url, or it is an
`EndTaskReq` for a task that is not being processed.** -/
theorem replies_truthful_iff (s : SchedulerImp) (h : s.Reached) (sender : SpreadGroup) (r : Req) :
    Truthful s sender r ↔ ¬ r.MeetsNull s ∧ r.IsPending s := by
  cases r with
  | newTaskReq id url =>
    rw [truthful_newTaskReq_iff]
    exact (and_iff_left trivial).symm
  | getTaskReq id => exact iff_of_true (truthful_getTaskReq s sender id) ⟨not_false, trivial⟩
  | endTaskReq id t =>
    rw [truthful_endTaskReq_iff h.unique]
    exact (and_iff_right not_false).symm

/-- Client `c` gets a task, is reported failed, and ends the task, which waits again: it is told
that it has ended it. -/
theorem refusal_reported_as_success : ¬ ∀ s : SchedulerImp, s.Reached → ∀ sender r,
    Truthful s sender r := by
  intro hall
  have hreached : SchedulerImp.Reached (((SchedulerImp.empty.handle
      (str "d", .req (.newTaskReq 1 (some (str "u"))))).handle
      (str "c", .req (.getTaskReq 1))).handle (str "d", .clientFailure (some (str "c")))) :=
    ((SchedulerImp.Reached.empty.handle _).handle _).handle _
  have h := hall _ hreached (str "c") (.endTaskReq 3 (some ⟨some (str "u")⟩))
  rw [truthful_endTaskReq_iff hreached.unique] at h
  exact absurd h (by decide +kernel)

/-- The client ends its task before it is reported. -/
theorem replies_truthful_pending :
    let s := (SchedulerImp.empty.handle (str "d", .req (.newTaskReq 1 (some (str "u"))))).handle
      (str "c", .req (.getTaskReq 1))
    Truthful s (str "c") (.endTaskReq 3 (some ⟨some (str "u")⟩)) ∧
      ⟨some (str "u")⟩ ∈ s.processingTasks.keys :=
  have hmem : (⟨some (str "u")⟩ : Task) ∈ ((SchedulerImp.empty.handle
      (str "d", .req (.newTaskReq 1 (some (str "u"))))).handle
      (str "c", .req (.getTaskReq 1))).processingTasks.keys := by decide +kernel
  ⟨(replies_truthful_iff _ ((SchedulerImp.Reached.empty.handle _).handle _) _ _).mpr
    ⟨not_false, _, rfl, hmem⟩, hmem⟩

end ReplicatedScheduler
