import ReplicatedScheduler.Conservation
import ReplicatedScheduler.Lib.QueueHistory

/-!
# The order in which tasks are served

**Theorem (`served_in_order`).** Let a server handle any sequence of messages from an empty
scheduler. The tasks that wait are those returned by a client failure and not handed out again,
followed by those never handed out since they were accepted, in order of acceptance. So a task is
handed out only after all tasks accepted before it, and none is handed out for the first time
while a returned task waits.

What happened to the tasks (`SchedulerImp.history`) is read off from outside: an acceptance and a
hand-out from the replies, and a return from the tasks that wait after a `ClientFailure` and were
being processed before. Every message acts on the ledger as one operation of the work queue or
none, and its events are those of the operation (`evolves_handle`).
-/

namespace ReplicatedScheduler

open JavaLib Lib

/-- What the reply to a request tells of a task. -/
def Req.event : Req → Output → Option (Event Task)
  | .newTaskReq _ url, .reply _ (.newTaskRep _ true) => some (.accepted ⟨url⟩)
  | .getTaskReq _, .reply _ (.getTaskRep _ (some t) true) => some (.handedOut t)
  | _, _ => none

namespace SchedulerImp

/-- What happens to the tasks when a message is handled. -/
def events (s : SchedulerImp) (m : SpreadGroup × ServerMsg) : List (Event Task) :=
  match m.2 with
  | .req r => (mainHandler shiftTasksFromClient s m.1 m.2).sent.filterMap r.event
  | .clientFailure _ =>
    ((s.handle m).waitingTasks.filter fun t => t ∈ s.processingTasks.keys).map .recovered
  | .stateReq => []

/-- What happens to the tasks along a sequence of messages. -/
def history (s : SchedulerImp) : List (SpreadGroup × ServerMsg) → List (Event Task)
  | [] => []
  | m :: ms => s.events m ++ (s.handle m).history ms

/-! ## The events are those of the work queue -/

theorem evolves_req {es : List (Event Task)} {s : SchedulerImp} (h : s.ledger.Evolves es)
    (sender : SpreadGroup) (r : Req) :
    (s.handle (sender, .req r)).ledger.Evolves (es ++ s.events (sender, .req r)) := by
  have hsame : s.ledger.Evolves (es ++ []) := by
    rw [List.append_nil]
    exact h
  cases r with
  | newTaskReq id url =>
    simp only [handle, events, mainHandler, onReq, onNewTaskReq]
    rcases s.newTask_cases url with ⟨hnew, hs⟩ | ⟨-, -, hs⟩ | ⟨-, hs⟩
    · rw [hs]
      exact h.add (WorkQueue.count_eq_zero.mp (count_eq_zero_of_isNew hnew))
    · rw [hs]
      exact hsame
    · rw [hs]
      exact hsame
  | getTaskReq id =>
    simp only [handle, events, mainHandler, onReq, onGetTaskReq]
    cases hs : s.getTask with
    | ok p =>
      obtain ⟨hw, hledger⟩ := ledger_getTask hs sender
      show (p.2.processTask sender p.1).ledger.Evolves (es ++ [.handedOut p.1])
      rw [hledger]
      exact h.handOut hw sender
    | error e =>
      obtain ⟨-, rfl⟩ := getTask_eq_error hs
      exact hsame
  | endTaskReq id t =>
    cases t with
    | none => exact hsame
    | some t =>
      have hfinish := hsame.finish t
      rw [← ledger_remove] at hfinish
      exact hfinish

/-- A task that waits is not being processed. -/
theorem filter_waiting_eq_nil {s : SchedulerImp} (h : s.ledger.Unique) :
    s.waitingTasks.filter (fun t => t ∈ s.processingTasks.keys) = [] :=
  List.filter_eq_nil_iff.mpr fun t ht => by
    simpa using HashMap.get?_eq_none.mp (h.holder_eq_none ht)

theorem evolves_clientFailure {es : List (Event Task)} {s : SchedulerImp}
    (h : s.ledger.Evolves es) (sender : SpreadGroup) (client : Option SpreadGroup) :
    (s.handle (sender, .clientFailure client)).ledger.Evolves
      (es ++ s.events (sender, .clientFailure client)) := by
  simp only [events, handle, mainHandler]
  rcases s.shiftTasksFromClient_cases client with ⟨-, h'⟩ | ⟨pre, t, c, post, -, -, -, hget, h'⟩
  · rw [h', filter_waiting_eq_nil h.unique]
    simpa using h
  · have hheld : s.ledger.holder t ≠ none := by
      rw [ledger_holder, hget]
      exact Option.some_ne_none c
    have hmem : t ∈ s.processingTasks.keys := HashMap.mem_keys.mpr ⟨c, hget⟩
    have hmoved :
        (s.shiftTask t).waitingTasks.filter (fun t => t ∈ s.processingTasks.keys) = [t] := by
      show (t :: s.waitingTasks).filter _ = [t]
      rw [List.filter_cons_of_pos (by simpa using hmem), filter_waiting_eq_nil h.unique]
    rw [h', hmoved, ledger_shiftTask]
    exact h.giveBack hheld

theorem evolves_handle {es : List (Event Task)} {s : SchedulerImp} (h : s.ledger.Evolves es)
    (m : SpreadGroup × ServerMsg) : (s.handle m).ledger.Evolves (es ++ s.events m) := by
  obtain ⟨sender, m⟩ := m
  cases m with
  | req r => exact evolves_req h sender r
  | clientFailure client => exact evolves_clientFailure h sender client
  | stateReq =>
    show s.ledger.Evolves (es ++ [])
    rw [List.append_nil]
    exact h

theorem evolves_handleAll {es : List (Event Task)} {s : SchedulerImp} (h : s.ledger.Evolves es)
    (ms : List (SpreadGroup × ServerMsg)) :
    (s.handleAll ms).ledger.Evolves (es ++ s.history ms) := by
  induction ms generalizing es s with
  | nil => simpa [history, handleAll] using h
  | cons m ms ih =>
    have hrest := ih (evolves_handle h m)
    rw [List.append_assoc] at hrest
    exact hrest

theorem evolves_empty (ms : List (SpreadGroup × ServerMsg)) :
    (empty.handleAll ms).ledger.Evolves (empty.history ms) := by
  have hstart : empty.ledger.Evolves [] := by
    rw [ledger_empty]
    exact .start
  exact evolves_handleAll hstart ms

/-- A message that hands a task out hands out the first. -/
theorem waiting_of_handedOut {s : SchedulerImp} {m : SpreadGroup × ServerMsg} {t : Task}
    (h : .handedOut t ∈ s.events m) : ∃ ts, s.waitingTasks = t :: ts := by
  obtain ⟨sender, m⟩ := m
  cases m with
  | stateReq => cases h
  | clientFailure client =>
    obtain ⟨t', -, heq⟩ := List.mem_map.mp h
    cases heq
  | req r =>
    simp only [events, mainHandler, onReq] at h
    cases r with
    | newTaskReq id url =>
      simp only [onNewTaskReq] at h
      rcases s.newTask_cases url with ⟨-, hs⟩ | ⟨-, -, hs⟩ | ⟨-, hs⟩
      · rw [hs] at h
        cases List.mem_singleton.mp h
      · rw [hs] at h
        cases h
      · rw [hs] at h
        cases h
    | getTaskReq id =>
      simp only [onGetTaskReq] at h
      cases hs : s.getTask with
      | ok p =>
        rw [hs] at h
        obtain rfl : t = p.1 := by simpa [Req.event] using h
        exact ⟨_, (ledger_getTask hs sender).1⟩
      | error e =>
        obtain ⟨-, rfl⟩ := getTask_eq_error hs
        rw [hs] at h
        cases h
    | endTaskReq id t =>
      obtain ⟨out, -, hout⟩ := List.mem_filterMap.mp h
      cases hout

end SchedulerImp

open SchedulerImp Event

/-- **Tasks are served in order, returned ones first.** -/
theorem served_in_order (ms : List (SpreadGroup × ServerMsg)) :
    (∃ rs, (empty.handleAll ms).waitingTasks = rs ++ fresh (empty.history ms) ∧
      ∀ t ∈ rs, Returned (empty.history ms) t) ∧
    (∀ a b e₁ e₂ e₃ e₄, empty.history ms =
        e₁ ++ .accepted a :: (e₂ ++ .accepted b :: e₃) ++ .handedOut b :: e₄ →
      .handedOut a ∈ e₂ ++ e₃) ∧
    ∀ m t, .handedOut t ∈ (empty.handleAll ms).events m → AwaitsFirst (empty.history ms) t →
      ∀ t' ∈ (empty.handleAll ms).waitingTasks, ¬ Returned (empty.history ms) t' := by
  have h := evolves_empty ms
  refine ⟨h.waiting_eq, fun a b e₁ e₂ e₃ e₄ hes => h.handedOut_of_accepted hes, ?_⟩
  intro m t hout hfirst
  obtain ⟨ts, hw⟩ := waiting_of_handedOut hout
  exact h.not_returned hw hfirst

end ReplicatedScheduler
