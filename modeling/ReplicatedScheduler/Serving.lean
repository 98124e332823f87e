import ReplicatedScheduler.MainHandlers

/-!
# Serving requests, live and from the buffer

A server handles requests one after another, by the main handlers (`serve`) or, when it has
received its state, by `processBuffer`.

**Theorem (`every_request_answered_iff`).** From an empty scheduler, every request is answered,
once, to its sender, if and only if no `newTask` request comes in a state in which its duplicate
check meets a task with a null url; in particular if none carries a null url
(`answered_of_nullFree`).

**Theorem (`replay_is_serving`).** Without null urls, `processBuffer` ends normally and leaves and
sends what the main handlers leave and send.

A null url makes the duplicate checks throw, and nothing else. An exception ends the handler of
one request when serving, and the whole loop of `processBuffer`. So the two differ only after a
null url.
-/

namespace ReplicatedScheduler

open JavaLib Lib

/-! ## Requests one after another -/

/-- The main handlers on one request after another: the scheduler that is left, and all that was
sent. An exception that escapes a handler does not keep the next one from running. -/
def serve (s : SchedulerImp) : List RequestInfo → SchedulerImp × List Output
  | [] => (s, [])
  | ri :: rs =>
    let h := mainHandler SchedulerImp.shiftTasksFromClient s ri.sender (.req ri.msg)
    let rest := serve h.scheduler rs
    (rest.1, h.sent ++ rest.2)

/-- The handler of a request ends normally after one reply, to the sender and for this request. -/
def Answered (s : SchedulerImp) (ri : RequestInfo) : Prop :=
  let h := mainHandler SchedulerImp.shiftTasksFromClient s ri.sender (.req ri.msg)
  h.escaped = none ∧
    ∃ rep : Rep, Answers ri (ri.sender, rep) ∧ h.sent = [.reply ri.sender rep]

/-- A request is answered unless its duplicate check meets a null url. -/
theorem answered_iff (s : SchedulerImp) (ri : RequestInfo) :
    Answered s ri ↔ ¬ ri.msg.MeetsNull s := by
  rcases onReq_cases s ri.sender ri.msg with ⟨hnull, hrep, hesc⟩ | ⟨hnull, -, -, hesc⟩
  · exact iff_of_true ⟨hesc, hrep⟩ hnull
  · refine iff_of_false ?_ (not_not_intro hnull)
    intro h
    obtain ⟨hesc', -⟩ := h
    rw [show (onReq s ri.sender ri.msg).escaped = none from hesc'] at hesc
    cases hesc

/-- **A request sequence is served in full unless a duplicate check meets a null url.** -/
theorem every_request_answered_iff (rs : List RequestInfo) :
    (∀ pre ri post, rs = pre ++ ri :: post → Answered (serve SchedulerImp.empty pre).1 ri) ↔
      ∀ pre ri post, rs = pre ++ ri :: post →
        ¬ ri.msg.MeetsNull (serve SchedulerImp.empty pre).1 := by
  simp only [answered_iff]

/-- `newTask(null)` is accepted, and then the `newTask` of another client is not answered. -/
theorem request_unanswered : ¬ ∀ (rs : List RequestInfo) pre ri post, rs = pre ++ ri :: post →
    Answered (serve SchedulerImp.empty pre).1 ri := by
  intro hall
  have h := hall [⟨str "c", .newTaskReq 1 none⟩, ⟨str "d", .newTaskReq 1 (some (str "u"))⟩]
    [⟨str "c", .newTaskReq 1 none⟩] ⟨str "d", .newTaskReq 1 (some (str "u"))⟩ [] rfl
  rw [answered_iff] at h
  exact h (by decide +kernel)

/-! ## Null urls -/

/-- No task that the scheduler holds has a null url. -/
def SchedulerImp.NullFree (s : SchedulerImp) : Prop := ∀ t ∈ s.tasks, t.url ≠ none

/-- A request that asks to store no null url. -/
def Req.NullFree : Req → Prop
  | .newTaskReq _ url => url ≠ none
  | _ => True

theorem Req.not_meetsNull {s : SchedulerImp} (h : s.NullFree) (r : Req) : ¬ r.MeetsNull s := by
  cases r with
  | newTaskReq id url =>
    intro hmeets
    obtain ⟨t, ht, hnull⟩ := hmeets
    exact h t (List.mem_of_find?_eq_some ht) hnull
  | getTaskReq | endTaskReq => exact not_false

/-- Only `newTask` brings a task that was not held before, and it has the url of the request. -/
theorem nullFree_onReq {s : SchedulerImp} (h : s.NullFree) (sender : SpreadGroup) {r : Req}
    (hr : r.NullFree) : (onReq s sender r).scheduler.NullFree := by
  intro t ht
  rw [SchedulerImp.mem_tasks, ledger_onReq] at ht
  have hold : ∀ t, s.ledger.Has t → t.url ≠ none := fun t ht =>
    h t (SchedulerImp.mem_tasks.mpr ht)
  cases r with
  | newTaskReq id url =>
    simp only [Req.effect] at ht
    split_ifs at ht with hnew
    · rcases WorkQueue.has_add.mp ht with ht | rfl
      · exact hold t ht
      · exact hr
    · exact hold t ht
  | getTaskReq id => exact hold t (WorkQueue.has_of_handOut ht)
  | endTaskReq id t' =>
    cases t' with
    | none => exact hold t ht
    | some t' => exact hold t (WorkQueue.has_of_finish ht)

/-- What is served without null urls has none. -/
theorem nullFree_serve {s : SchedulerImp} (h : s.NullFree) {rs : List RequestInfo}
    (hrs : ∀ ri ∈ rs, ri.msg.NullFree) : (serve s rs).1.NullFree := by
  induction rs generalizing s with
  | nil => exact h
  | cons ri rs ih =>
    obtain ⟨hri, hrs⟩ := List.forall_mem_cons.mp hrs
    exact ih (nullFree_onReq h ri.sender hri) hrs

/-- Requests without null urls are all answered. -/
theorem answered_of_nullFree {rs : List RequestInfo} (hrs : ∀ ri ∈ rs, ri.msg.NullFree)
    {pre post : List RequestInfo} {ri : RequestInfo} (hsplit : rs = pre ++ ri :: post) :
    Answered (serve SchedulerImp.empty pre).1 ri := by
  subst hsplit
  have hempty : SchedulerImp.empty.NullFree := fun t ht => absurd ht List.not_mem_nil
  have hpre := nullFree_serve hempty fun ri hri => hrs ri (List.mem_append_left _ hri)
  exact (answered_iff _ ri).mpr (Req.not_meetsNull hpre ri.msg)

/-! ## Replaying is serving -/

/-- Without null urls the loop over the buffer is the handlers on one request after another. -/
theorem processBuffer_eq_serve {s : SchedulerImp} (h : s.NullFree) {buffer : List RequestInfo}
    (hbuffer : ∀ ri ∈ buffer, ri.msg.NullFree) :
    processBuffer s buffer = ⟨(serve s buffer).1, (serve s buffer).2, none⟩ := by
  induction buffer generalizing s with
  | nil => rfl
  | cons ri buffer ih =>
    obtain ⟨hri, hbuffer⟩ := List.forall_mem_cons.mp hbuffer
    have hesc : (onReq s ri.sender ri.msg).escaped = none :=
      ((answered_iff s ri).mpr (Req.not_meetsNull h ri.msg)).1
    have hrest := ih (nullFree_onReq h ri.sender hri) hbuffer
    simp only [processBuffer, bufferedRequest_eq, hesc, hrest]
    rfl

/-- **Replaying the buffer is serving its requests.** From a scheduler without null urls and for
requests without null urls, `processBuffer` ends normally, leaves the same scheduler and sends the
same replies to the same clients in the same order. -/
theorem replay_is_serving (s : SchedulerImp) (buffer : List RequestInfo)
    (hs : ∀ t ∈ s.tasks, t.url ≠ none)
    (hbuffer : ∀ ri ∈ buffer, ∀ id, ri.msg ≠ .newTaskReq id none) :
    (processBuffer s buffer).escaped = none ∧
      (processBuffer s buffer).scheduler = (serve s buffer).1 ∧
      replies (processBuffer s buffer).sent = replies (serve s buffer).2 := by
  have hfree : ∀ ri ∈ buffer, ri.msg.NullFree := by
    intro ri hri
    cases hmsg : ri.msg with
    | newTaskReq id url =>
      rintro rfl
      exact hbuffer ri hri id hmsg
    | getTaskReq id => trivial
    | endTaskReq id t => trivial
  rw [processBuffer_eq_serve hs hfree]
  exact ⟨rfl, rfl, rfl⟩

/-- A task that waits is handed out, ended, and a second one is refused as a duplicate. -/
theorem replay_is_serving_mixed :
    let s : SchedulerImp := ⟨[⟨some (str "u")⟩, ⟨some (str "v")⟩], HashMap.empty⟩
    let buffer : List RequestInfo := [⟨str "c", .getTaskReq 1⟩,
      ⟨str "d", .newTaskReq 1 (some (str "v"))⟩, ⟨str "c", .endTaskReq 3 (some ⟨some (str "u")⟩)⟩]
    (processBuffer s buffer).escaped = none ∧
      (processBuffer s buffer).scheduler = (serve s buffer).1 ∧
      replies (processBuffer s buffer).sent = replies (serve s buffer).2 :=
  replay_is_serving _ _ (by decide) (by
    intro ri hri id
    simp only [List.mem_cons, List.not_mem_nil, or_false] at hri
    rcases hri with rfl | rfl | rfl <;> simp)

end ReplicatedScheduler
