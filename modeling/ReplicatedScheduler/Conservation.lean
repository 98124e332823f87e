import ReplicatedScheduler.MainHandlers

/-!
# No task is lost or duplicated on a server

**Theorem (`no_task_lost_or_duplicated`).** Let a server handle any sequence of messages from an
empty scheduler. For every url, the number of waiting tasks with it plus the number of keys of
`processing_tasks` with it is the number of times it was accepted minus the number of times a
task with it was removed by `endTask`, and is 0 or 1.

The proof is an induction over the messages with the invariant that every task is in one place
at most (`WorkQueue.Unique`). It is what makes the hand-over of `GetTaskReq` safe: the head of
the queue is nobody's task, so putting it in the map overwrites nothing. A client failure moves
one task or none, whatever happens to its loop afterwards.
-/

namespace ReplicatedScheduler

open JavaLib Lib

namespace SchedulerImp

/-- The scheduler after one message handled by the main handlers. -/
def handle (s : SchedulerImp) (m : SpreadGroup × ServerMsg) : SchedulerImp :=
  (mainHandler shiftTasksFromClient s m.1 m.2).scheduler

/-- The scheduler after a sequence of messages. -/
def handleAll (s : SchedulerImp) (ms : List (SpreadGroup × ServerMsg)) : SchedulerImp :=
  ms.foldl handle s

/-- The tasks with url `u` that wait, plus the tasks with url `u` that are being processed. -/
def held (s : SchedulerImp) (u : Option JavaString) : ℕ :=
  s.waitingTasks.countP (fun t => t.url = u) + s.processingTasks.keys.countP fun t => t.url = u

/-- 1 if handling `m` accepts `newTask(u)`. -/
def accepts (s : SchedulerImp) (u : Option JavaString) (m : SpreadGroup × ServerMsg) : ℕ :=
  match m.2 with
  | .req (.newTaskReq _ url) => if url = u ∧ (s.newTask url).toBool then 1 else 0
  | _ => 0

/-- 1 if handling `m` removes a task with url `u` by `endTask`. -/
def removes (s : SchedulerImp) (u : Option JavaString) (m : SpreadGroup × ServerMsg) : ℕ :=
  match m.2 with
  | .req (.endTaskReq _ (some t)) =>
    if t.url = u ∧ (s.processingTasks.get? t).isSome then 1 else 0
  | _ => 0

/-- The number of accepted `newTask(u)` calls along a run. -/
def accepted (s : SchedulerImp) (u : Option JavaString) : List (SpreadGroup × ServerMsg) → ℕ
  | [] => 0
  | m :: ms => s.accepts u m + (s.handle m).accepted u ms

/-- The number of `endTask` calls along a run that remove a task with url `u`. -/
def removed (s : SchedulerImp) (u : Option JavaString) : List (SpreadGroup × ServerMsg) → ℕ
  | [] => 0
  | m :: ms => s.removes u m + (s.handle m).removed u ms

/-! ## One message -/

theorem held_eq_count (s : SchedulerImp) (u : Option JavaString) :
    s.held u = s.ledger.count ⟨u⟩ := by
  have hurl : ∀ t : Task, decide (t.url = u) = (t == ⟨u⟩) := fun t => by
    cases t
    rw [Bool.eq_iff_iff, decide_eq_true_iff, beq_iff_eq, Task.mk.injEq]
  have hkeys : s.processingTasks.keys.count ⟨u⟩ =
      if (s.ledger.holder ⟨u⟩).isSome then 1 else 0 := by
    rw [s.processingTasks.nodup_keys.count]
    simp only [Option.isSome_iff_ne_none, ledger_holder, ne_eq, HashMap.get?_eq_none, not_not]
  simp only [held, hurl]
  rw [← List.count_eq_countP, ← List.count_eq_countP, hkeys]
  rfl

/-- A client failure gives one task back to the queue, or nothing. -/
theorem ledger_shiftTasksFromClient (s : SchedulerImp) (client : Option SpreadGroup) :
    (s.shiftTasksFromClient client).1.ledger = s.ledger ∨
      ∃ t, s.ledger.holder t ≠ none ∧
        (s.shiftTasksFromClient client).1.ledger = s.ledger.giveBack t := by
  rcases s.shiftTasksFromClient_cases client with ⟨-, h⟩ | ⟨pre, t, c, post, -, -, -, hget, h⟩
  · exact Or.inl (by rw [h])
  · refine Or.inr ⟨t, ?_, ?_⟩
    · rw [ledger_holder, hget]
      exact Option.some_ne_none c
    · rw [h]
      exact ledger_shiftTask s t

theorem unique_handle {s : SchedulerImp} (h : s.ledger.Unique) (m : SpreadGroup × ServerMsg) :
    (s.handle m).ledger.Unique := by
  obtain ⟨sender, m⟩ := m
  cases m with
  | req r => exact unique_onReq h sender r
  | stateReq => exact h
  | clientFailure client =>
    show (s.shiftTasksFromClient client).1.ledger.Unique
    rcases s.ledger_shiftTasksFromClient client with hs | ⟨t, ht, hs⟩
    · rw [hs]
      exact h
    · rw [hs]
      exact h.giveBack ht

/-- One message changes the count of a url by what it accepts and what it removes. -/
theorem count_handle {s : SchedulerImp} (h : s.ledger.Unique) (m : SpreadGroup × ServerMsg)
    (u : Option JavaString) :
    (s.handle m).ledger.count ⟨u⟩ + s.removes u m = s.ledger.count ⟨u⟩ + s.accepts u m := by
  obtain ⟨sender, m⟩ := m
  cases m with
  | stateReq => rfl
  | clientFailure client =>
    show (s.shiftTasksFromClient client).1.ledger.count ⟨u⟩ + 0 = s.ledger.count ⟨u⟩ + 0
    rcases s.ledger_shiftTasksFromClient client with hs | ⟨t, ht, hs⟩
    · rw [hs]
    · rw [hs, WorkQueue.count_giveBack ht]
  | req r =>
    show (onReq s sender r).scheduler.ledger.count ⟨u⟩ + _ = _
    rw [ledger_onReq]
    cases r with
    | newTaskReq id url =>
      have hiff : (s.newTask url).toBool = true ↔ s.IsNew url := by
        rcases s.newTask_cases url with ⟨hn, hs⟩ | ⟨hn, -, hs⟩ | ⟨hn, hs⟩ <;>
          simp [hs, hn, Except.toBool]
      simp only [Req.effect, ← s.isNew_iff, removes, accepts, hiff]
      by_cases hn : s.IsNew url
      · simp only [hn, if_true, and_true, WorkQueue.count_add, Task.mk.injEq, eq_comm (a := u)]
        rfl
      · simp [hn]
    | getTaskReq id => exact congrArg (· + 0) (WorkQueue.count_handOut h sender ⟨u⟩)
    | endTaskReq id t =>
      cases t with
      | none => rfl
      | some t =>
        have hfin := WorkQueue.count_finish s.ledger t ⟨u⟩
        have hut : (⟨u⟩ : Task) = t ↔ t.url = u := by
          cases t
          simp [eq_comm]
        simp only [hut, ledger_holder] at hfin
        exact hfin

/-- Only `endTask` makes a task disappear. -/
theorem mem_tasks_handle {s : SchedulerImp} (h : s.ledger.Unique)
    {m : SpreadGroup × ServerMsg} (hm : ∀ id t, m.2 ≠ .req (.endTaskReq id t)) {t : Task}
    (ht : t ∈ s.tasks) : t ∈ (s.handle m).tasks := by
  have hcount := count_handle h m t.url
  have hzero : s.removes t.url m = 0 := by
    obtain ⟨sender, m⟩ := m
    cases m with
    | stateReq | clientFailure => rfl
    | req r =>
      cases r with
      | newTaskReq | getTaskReq => rfl
      | endTaskReq id t' => exact absurd rfl (hm id t')
  have hmem : ∀ s : SchedulerImp, t ∈ s.tasks ↔ ¬ s.ledger.count ⟨t.url⟩ = 0 := fun s => by
    rw [mem_tasks, WorkQueue.count_eq_zero, not_not]
  rw [hmem] at ht ⊢
  omega

/-! ## All messages -/

theorem unique_handleAll {s : SchedulerImp} (h : s.ledger.Unique)
    (ms : List (SpreadGroup × ServerMsg)) : (s.handleAll ms).ledger.Unique := by
  induction ms generalizing s with
  | nil => exact h
  | cons m ms ih => exact ih (unique_handle h m)

theorem unique_empty : empty.ledger.Unique := fun t => by
  rw [ledger_empty]
  simp [WorkQueue.count]

theorem count_handleAll {s : SchedulerImp} (h : s.ledger.Unique) (u : Option JavaString)
    (ms : List (SpreadGroup × ServerMsg)) :
    (s.handleAll ms).ledger.count ⟨u⟩ + s.removed u ms = s.ledger.count ⟨u⟩ + s.accepted u ms := by
  induction ms generalizing s with
  | nil => rfl
  | cons m ms ih =>
    have hstep := count_handle h m u
    have hrest := ih (unique_handle h m)
    show ((s.handle m).handleAll ms).ledger.count ⟨u⟩ + (s.removes u m + (s.handle m).removed u ms) =
      s.ledger.count ⟨u⟩ + (s.accepts u m + (s.handle m).accepted u ms)
    omega

end SchedulerImp

open SchedulerImp

/-- **No task is lost or duplicated.** After any sequence of messages, the tasks held with a url
are those accepted and not yet removed by `endTask`, and at most one. So the waiting urls are
distinct and none of them is being processed; the task that the next `GetTaskReq` puts in the
map is no key of it; and a message other than `EndTaskReq` makes no task disappear. -/
theorem no_task_lost_or_duplicated (ms : List (SpreadGroup × ServerMsg)) :
    (∀ u, (empty.handleAll ms).held u + empty.removed u ms = empty.accepted u ms ∧
      (empty.handleAll ms).held u ≤ 1) ∧
    ((empty.handleAll ms).waitingTasks.map Task.url).Nodup ∧
    (∀ t ∈ (empty.handleAll ms).waitingTasks, ∀ t' ∈ (empty.handleAll ms).processingTasks.keys,
      t.url ≠ t'.url) ∧
    (∀ t, (empty.handleAll ms).waitingTasks.head? = some t →
      (empty.handleAll ms).processingTasks.get? t = none) ∧
    ∀ m : SpreadGroup × ServerMsg, (∀ id t, m.2 ≠ .req (.endTaskReq id t)) →
      ∀ t ∈ (empty.handleAll ms).tasks, t ∈ ((empty.handleAll ms).handle m).tasks := by
  have hunique := unique_handleAll unique_empty ms
  have hurl : Function.Injective Task.url := fun t t' h => by
    cases t
    cases t'
    exact congrArg _ h
  refine ⟨fun u => ?_, ?_, fun t ht t' ht' htt => ?_, fun t ht => ?_, fun m hm t ht => ?_⟩
  · have hcount := count_handleAll unique_empty u ms
    have hzero : empty.ledger.count ⟨u⟩ = 0 := by
      rw [ledger_empty]
      simp [WorkQueue.count]
    rw [held_eq_count]
    exact ⟨by omega, hunique _⟩
  · exact hunique.nodup.map hurl
  · obtain rfl := hurl htt
    exact HashMap.get?_eq_none.mp (hunique.holder_eq_none ht) ht'
  · exact hunique.holder_eq_none (List.mem_of_mem_head? ht)
  · exact mem_tasks_handle hunique hm ht

end ReplicatedScheduler
