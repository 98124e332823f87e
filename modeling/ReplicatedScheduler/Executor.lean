import ReplicatedScheduler.ServerHandlers
import ReplicatedScheduler.Lib.Machine

/-!
# The jobs of a server

A server's `SingleThreadContext` runs jobs one at a time, first in first out. Each message
delivered to the server is a job, run by the handlers registered when its turn comes. The
registration of the main handlers is a job too, queued behind the messages that came before.

`Executor` is a server with its queue and a record of the run, which no handler reads. Its
machine, `Executor.machine`, delivers any message at any time.

**Theorem (`initialisedOnce_iff`).** Once a server has called `registerMainHandlers`, no later
message replaces its scheduler or runs `processBuffer` again exactly if no late `StateRep` is
among the messages it has run (`LateStateRep`): one that comes after a view of one member, but
before any other `StateRep` and before any view of one member that a join caused. A view of one
member that a leave or a disconnect caused leaves `state_sender` null, and null is what the
guard of both branches asks for.
-/

namespace ReplicatedScheduler

open JavaLib Lib Lts

inductive Job
  | message (sender : SpreadGroup) (msg : Msg)
  | registerMain
  deriving DecidableEq

/-- A server with its queue of jobs. The fields from `delivered` on record the run. -/
structure Executor where
  server : ServerHandlers
  queue : List Job
  /-- The messages delivered so far. -/
  delivered : List (SpreadGroup × Msg)
  /-- The messages run so far. -/
  history : List (SpreadGroup × Msg)
  /-- The messages sent so far. -/
  sent : List Output
  /-- `registerMainHandlers` has been called. -/
  registered : Bool
  /-- The senders of the `StateReq`s run since then. -/
  statesDue : List SpreadGroup
  /-- The times since then that the scheduler was replaced and the buffer processed. -/
  reinstalls : ℕ
  /-- The scheduler at the call of `registerMainHandlers`. -/
  base : SchedulerImp
  /-- The messages that the main handlers ran. -/
  accepted : List (SpreadGroup × ServerMsg)

namespace Executor

/-- A server that has just joined. -/
def start (privateGroup : SpreadGroup) : Executor :=
  ⟨ServerHandlers.start privateGroup, [], [], [], [], false, [], 0, SchedulerImp.empty, []⟩

/-- The job of one message. -/
def runMessage (shift : Shift) (x : Executor) (sender : SpreadGroup) (msg : Msg) : Executor :=
  let r := x.server.handle shift sender msg
  { server := r.server
    queue := if r.registers then x.queue ++ [.registerMain] else x.queue
    delivered := x.delivered
    history := x.history ++ [(sender, msg)]
    sent := x.sent ++ r.sent
    registered := x.registered || r.registers
    statesDue := if x.registered ∧ msg = .server .stateReq then x.statesDue ++ [sender]
      else x.statesDue
    reinstalls := if x.registered ∧ r.installs then x.reinstalls + 1 else x.reinstalls
    base := if x.registered then x.base else r.server.scheduler
    accepted := match msg with
      | .server m => if x.server.serving then x.accepted ++ [(sender, m)] else x.accepted
      | _ => x.accepted }

inductive Action
  | deliver (sender : SpreadGroup) (msg : Msg)
  | run
  deriving DecidableEq

def step (shift : Shift) (x : Executor) : Action → Option Executor
  | .deliver sender msg =>
    some { x with
      queue := x.queue ++ [.message sender msg]
      delivered := x.delivered ++ [(sender, msg)] }
  | .run =>
    match x.queue with
    | [] => none
    | .message sender msg :: queue => some (runMessage shift { x with queue := queue } sender msg)
    | .registerMain :: queue =>
      some { x with queue := queue, server := x.server.registerMainHandlers }

/-- A server from its join on. -/
def machine (shift : Shift) (privateGroup : SpreadGroup) : Machine Executor Action :=
  ⟨start privateGroup, step shift⟩

/-- Delivering a message only queues it; a job is a message or the registration. -/
theorem step_cases {shift : Shift} {x x' : Executor} {a : Action} (h : step shift x a = some x') :
    (∃ sender msg, a = .deliver sender msg ∧
        x' = { x with queue := x.queue ++ [.message sender msg],
                      delivered := x.delivered ++ [(sender, msg)] }) ∨
      (∃ sender msg queue, a = .run ∧ x.queue = .message sender msg :: queue ∧
        x' = runMessage shift { x with queue := queue } sender msg) ∨
      ∃ queue, a = .run ∧ x.queue = .registerMain :: queue ∧
        x' = { x with queue := queue, server := x.server.registerMainHandlers } := by
  cases a with
  | deliver sender msg => exact Or.inl ⟨sender, msg, rfl, by simpa [step] using h.symm⟩
  | run =>
    cases hq : x.queue with
    | nil => simp [step, hq] at h
    | cons j queue =>
      cases j with
      | message sender msg =>
        exact Or.inr (Or.inl ⟨sender, msg, queue, rfl, rfl, by simpa [step, hq] using h.symm⟩)
      | registerMain => exact Or.inr (Or.inr ⟨queue, rfl, rfl, by simpa [step, hq] using h.symm⟩)

/-- The message of a job. -/
def Job.message? : Job → Option (SpreadGroup × Msg)
  | .message sender msg => some (sender, msg)
  | .registerMain => none

/-- The messages run are those delivered, in order, less those still queued. -/
theorem delivered_eq {shift : Shift} {privateGroup : SpreadGroup} {x : Executor}
    (h : (machine shift privateGroup).Reachable anyStep x) :
    x.delivered = x.history ++ x.queue.filterMap Job.message? := by
  refine h.invariant (P := fun x => x.delivered = x.history ++ x.queue.filterMap Job.message?) rfl ?_
  intro x a x' hx _ hstep
  rcases step_cases hstep with ⟨sender, msg, -, rfl⟩ | ⟨sender, msg, queue, -, hq, rfl⟩ |
    ⟨queue, -, hq, rfl⟩
  · simp [hx, Job.message?]
  · show x.delivered = _
    rw [hx, hq]
    simp only [runMessage]
    split_ifs <;> simp [Job.message?]
  · show x.delivered = _
    rw [hx, hq]
    rfl

end Executor

/-! ## When a server is initialised once -/

/-- A message after which `state_sender` is not null. -/
def Msg.Settles : Msg → Prop
  | .stateRep _ => True
  | msg => msg.AloneByJoin

instance (msg : Msg) : Decidable msg.Settles := by
  unfold Msg.Settles
  split <;> infer_instance

theorem settles_membership {info : MembershipInfo} :
    (Msg.membership info).Settles ↔ (Msg.membership info).AloneByJoin := Iff.rfl

theorem not_settles_server {m : ServerMsg} : ¬ (Msg.server m).Settles := id

/-- Among the messages, a `StateRep` comes after a view of one member and before anything that
settles the sender of the state. -/
def LateStateRep (ms : List (SpreadGroup × Msg)) : Prop :=
  ∃ pre sender scheduler post, ms = pre ++ (sender, .stateRep scheduler) :: post ∧
    (∃ m ∈ pre, m.2.Alone) ∧ ∀ m ∈ pre, ¬ m.2.Settles

theorem lateStateRep_append {ms : List (SpreadGroup × Msg)} {m : SpreadGroup × Msg} :
    LateStateRep (ms ++ [m]) ↔ LateStateRep ms ∨
      (∃ scheduler, m.2 = .stateRep scheduler) ∧ (∃ m ∈ ms, m.2.Alone) ∧ ∀ m ∈ ms, ¬ m.2.Settles := by
  constructor
  · rintro ⟨pre, sender, scheduler, post, h, halone, hsettles⟩
    rcases List.eq_nil_or_concat post with rfl | ⟨post, last, rfl⟩
    · obtain ⟨rfl, hm⟩ := List.append_inj' h rfl
      cases hm
      exact Or.inr ⟨⟨scheduler, rfl⟩, halone, hsettles⟩
    · rw [List.concat_eq_append, ← List.cons_append, ← List.append_assoc] at h
      obtain ⟨rfl, -⟩ := List.append_inj' h rfl
      exact Or.inl ⟨pre, sender, scheduler, post, rfl, halone, hsettles⟩
  · rintro (⟨pre, sender, scheduler, post, rfl, halone, hsettles⟩ |
      ⟨⟨scheduler, hm⟩, halone, hsettles⟩)
    · exact ⟨pre, sender, scheduler, post ++ [m], by simp, halone, hsettles⟩
    · refine ⟨ms, m.1, scheduler, [], ?_, halone, hsettles⟩
      rw [← hm]

namespace Executor

variable {shift : Shift} {privateGroup : SpreadGroup}

/-- From the call of `registerMainHandlers` on, the scheduler was never replaced and the buffer
never processed again, and the scheduler reflects everything accepted since. -/
def InitialisedOnce (shift : Shift) (x : Executor) : Prop :=
  x.reinstalls = 0 ∧ x.server.scheduler =
    x.accepted.foldl (fun s m => (mainHandler shift s m.1 m.2).scheduler) x.base

instance (shift : Shift) (x : Executor) : Decidable (x.InitialisedOnce shift) :=
  inferInstanceAs (Decidable (_ ∧ _))

/-- How the guard `state_sender` and the record of the run depend on the messages run. -/
structure Guarded (shift : Shift) (x : Executor) : Prop where
  sender : x.server.stateSender = none ↔ ∀ m ∈ x.history, ¬ m.2.Settles
  registered : x.server.stateSender = none →
    (x.registered = true ↔ ∃ m ∈ x.history, m.2.Alone)
  queued : .registerMain ∈ x.queue → x.registered = true
  serving : x.server.serving = true → x.registered = true
  fresh : x.registered = false → x.accepted = [] ∧ x.base = x.server.scheduler
  reinstalls : x.reinstalls = 0 ↔ ¬ LateStateRep x.history
  reflected : x.reinstalls = 0 → x.server.scheduler =
    x.accepted.foldl (fun s m => (mainHandler shift s m.1 m.2).scheduler) x.base

theorem guarded_start : Guarded shift (start privateGroup) where
  sender := by simp [start, ServerHandlers.start]
  registered := by simp [start]
  queued := by simp [start]
  serving := by simp [start, ServerHandlers.start]
  fresh := by simp [start, ServerHandlers.start]
  reinstalls := by simp [start, LateStateRep]
  reflected := by simp [start, ServerHandlers.start]

theorem Guarded.tail {x : Executor} (h : Guarded shift x) {j : Job} {queue : List Job}
    (hq : x.queue = j :: queue) : Guarded shift { x with queue := queue } :=
  { h with queued := fun hmem => h.queued (by rw [hq]; exact List.mem_cons_of_mem _ hmem) }

theorem Guarded.runMembership {x : Executor} (h : Guarded shift x) (sender : SpreadGroup)
    (info : MembershipInfo) : Guarded shift (runMessage shift x sender (.membership info)) := by
  have hlate : LateStateRep (x.history ++ [(sender, .membership info)]) ↔ LateStateRep x.history := by
    rw [lateStateRep_append]
    simp
  have hreflected : x.reinstalls = 0 → x.server.scheduler =
      x.accepted.foldl (fun s m => (mainHandler shift s m.1 m.2).scheduler)
        (if x.registered then x.base else x.server.scheduler) := fun h0 => by
    split_ifs with hreg
    · exact h.reflected h0
    · rw [(h.fresh (by simpa using hreg)).1]
      rfl
  rcases x.server.onMembershipInfo_cases info with ⟨halone, hnone, hr⟩ | ⟨hnot, hs, hreg, hinst, -⟩
  · constructor <;> simp only [runMessage, ServerHandlers.handle, hr, List.forall_mem_append]
    · rw [List.forall_mem_singleton, settles_membership, Msg.AloneByJoin]
      simp only [halone.2, true_and, ne_eq, not_not]
      exact ⟨fun hj => ⟨h.sender.mp hnone, hj⟩, fun hall => hall.2⟩
    · simp [halone]
    · simp
    · simp
    · simp
    · simpa [hlate] using h.reinstalls
    · simpa using hreflected
  · constructor <;> simp only [runMessage, ServerHandlers.handle, hs, hreg, hinst]
    · rw [h.sender, List.forall_mem_append]
      refine ⟨fun hold => ⟨hold, ?_⟩, fun hall => hall.1⟩
      rw [List.forall_mem_singleton]
      exact fun hset => hnot ⟨(settles_membership.mp hset).alone, h.sender.mpr hold⟩
    · intro hnone
      have hnalone : ¬ (Msg.membership info).Alone := fun ha => hnot ⟨ha, hnone⟩
      simpa [or_and_right, exists_or, hnalone] using h.registered hnone
    · simpa using h.queued
    · simpa using h.serving
    · intro hfalse
      have hreg' : x.registered = false := by simpa using hfalse
      simpa [hreg'] using (h.fresh hreg').1
    · simpa [hlate] using h.reinstalls
    · simpa using hreflected

theorem Guarded.runStateRep {x : Executor} (h : Guarded shift x) (sender : SpreadGroup)
    (scheduler : SchedulerImp) :
    Guarded shift (runMessage shift x sender (.stateRep scheduler)) := by
  have hsettles : ¬ ∀ m ∈ x.history ++ [(sender, Msg.stateRep scheduler)], ¬ m.2.Settles :=
    fun hall => hall (sender, .stateRep scheduler) (by simp) trivial
  have hlate : LateStateRep (x.history ++ [(sender, .stateRep scheduler)]) ↔
      LateStateRep x.history ∨ x.server.stateSender = none ∧ x.registered = true := by
    rw [lateStateRep_append, h.sender]
    constructor
    · exact Or.imp_right fun hm => ⟨hm.2.2, (h.registered (h.sender.mpr hm.2.2)).mpr hm.2.1⟩
    · exact Or.imp_right fun hm =>
        ⟨⟨scheduler, rfl⟩, (h.registered (h.sender.mpr hm.1)).mp hm.2, hm.1⟩
  rcases x.server.onStateRep_cases sender scheduler with ⟨hnone, hr⟩ | ⟨hsome, hr⟩
  · constructor <;> simp only [runMessage, ServerHandlers.handle, hr]
    · simpa using hsettles
    · simp
    · intro hmem
      split_ifs at hmem with hreg
      · simp [hreg]
      · simp [h.queued hmem]
    · intro hserv
      simp [h.serving hserv]
    · intro hfalse
      rw [Bool.or_eq_false_iff] at hfalse
      simp [hfalse.1, (h.fresh hfalse.1).1]
    · rw [hlate]
      by_cases hreg : x.registered = true
      · simp [hreg, hnone]
      · simpa [hreg] using h.reinstalls
    · intro hzero
      by_cases hreg : x.registered = true
      · simp [hreg] at hzero
      · rw [(h.fresh (by simpa using hreg)).1]
        simp [hreg]
  · constructor <;> simp only [runMessage, ServerHandlers.handle, hr]
    · simpa [hsome] using hsettles
    · exact fun hnone => absurd hnone hsome
    · simpa using h.queued
    · simpa using h.serving
    · intro hfalse
      have hreg : x.registered = false := by simpa using hfalse
      simpa [hreg] using (h.fresh hreg).1
    · simpa [hlate, hsome] using h.reinstalls
    · intro hzero
      by_cases hreg : x.registered = true
      · simpa [hreg] using h.reflected (by simpa using hzero)
      · rw [(h.fresh (by simpa using hreg)).1]
        simp [hreg]

theorem Guarded.runServerMsg {x : Executor} (h : Guarded shift x) (sender : SpreadGroup)
    (m : ServerMsg) : Guarded shift (runMessage shift x sender (.server m)) := by
  have hlate : LateStateRep (x.history ++ [(sender, .server m)]) ↔ LateStateRep x.history := by
    rw [lateStateRep_append]
    simp
  obtain ⟨hreg, hinst, hsender, hserving⟩ := x.server.onServerMsg_flags shift sender m
  have hsched : x.reinstalls = 0 → (x.server.onServerMsg shift sender m).server.scheduler =
      (if x.server.serving then x.accepted ++ [(sender, m)] else x.accepted).foldl
        (fun s m => (mainHandler shift s m.1 m.2).scheduler) x.base := fun hzero => by
    rcases x.server.onServerMsg_cases shift sender m with ⟨hs, hr, -⟩ | ⟨hs, ⟨r, -, hr⟩, -⟩ |
      ⟨hs, -, hr, -⟩
    · simp [hr, hs, h.reflected hzero]
    · simp [hr, hs, h.reflected hzero]
    · simp [hr, hs, h.reflected hzero]
  constructor <;>
    simp only [runMessage, ServerHandlers.handle, hreg, hinst, hsender, hserving]
  · rw [h.sender, List.forall_mem_append]
    simp [not_settles_server]
  · intro hnone
    simpa [or_and_right, exists_or, Msg.Alone] using h.registered hnone
  · simpa using h.queued
  · simpa using h.serving
  · intro hfalse
    have hreg' : x.registered = false := by simpa using hfalse
    have hserv : x.server.serving = false := by
      by_contra hne
      rw [Bool.not_eq_false] at hne
      exact absurd (h.serving hne) (by simp [hreg'])
    simpa [hreg', hserv] using (h.fresh hreg').1
  · simpa [hlate] using h.reinstalls
  · intro hzero
    by_cases hreg' : x.registered = true
    · simpa [hreg'] using hsched (by simpa using hzero)
    · have hserv : x.server.serving = false := by
        by_contra hne
        rw [Bool.not_eq_false] at hne
        exact hreg' (h.serving hne)
      rw [(h.fresh (by simpa using hreg')).1]
      simp [hreg', hserv]

theorem guarded_step {x x' : Executor} {a : Action} (h : Guarded shift x)
    (hstep : step shift x a = some x') : Guarded shift x' := by
  rcases step_cases hstep with ⟨sender, msg, -, rfl⟩ | ⟨sender, msg, queue, -, hq, rfl⟩ |
    ⟨queue, -, hq, rfl⟩
  · exact { h with queued := fun hmem => h.queued (by simpa using hmem) }
  · cases msg with
    | membership info => exact (h.tail hq).runMembership sender info
    | stateRep scheduler => exact (h.tail hq).runStateRep sender scheduler
    | server m => exact (h.tail hq).runServerMsg sender m
  · have hreg : x.registered = true := h.queued (by rw [hq]; exact List.mem_cons_self)
    exact {
      sender := h.sender
      registered := h.registered
      queued := fun _ => hreg
      serving := fun _ => hreg
      fresh := fun hfalse => absurd hreg (by simp [show x.registered = false from hfalse])
      reinstalls := h.reinstalls
      reflected := h.reflected }

theorem guarded_of_reachable {x : Executor}
    (h : (machine shift privateGroup).Reachable anyStep x) : Guarded shift x :=
  h.invariant (P := Guarded shift) guarded_start fun _ _ _ hx _ hstep => guarded_step hx hstep

end Executor

open Executor

/-- **A server is initialised only once, unless a late `StateRep` finds `state_sender` null.** -/
theorem initialisedOnce_iff (privateGroup : SpreadGroup) (x : Executor)
    (h : (Executor.machine SchedulerImp.shiftTasksFromClient privateGroup).Reachable anyStep x) :
    x.InitialisedOnce SchedulerImp.shiftTasksFromClient ↔ ¬ LateStateRep x.history := by
  have hg := guarded_of_reachable h
  rw [← hg.reinstalls]
  exact ⟨fun hx => hx.1, fun hx => ⟨hx, hg.reflected hx⟩⟩

/-- The only server of its group for a moment, `b` has its state replaced by the `StateRep` of
`a`, sent before `a` crashed, and the task it accepted in between is gone. -/
theorem late_stateRep_replaces_scheduler : ¬ ∀ x,
    (Executor.machine SchedulerImp.shiftTasksFromClient (str "b")).Reachable anyStep x →
      x.InitialisedOnce SchedulerImp.shiftTasksFromClient := by
  intro hall
  obtain ⟨x, hx, hnot⟩ := Machine.exists_reachable_of_run
    (Executor.machine SchedulerImp.shiftTasksFromClient (str "b")) anyStep
    (fun x => ¬ x.InitialisedOnce SchedulerImp.shiftTasksFromClient)
    [.deliver (str "servers") (.membership ⟨true, .join (str "b"), [str "a", str "b"]⟩), .run,
      .deliver (str "servers") (.membership ⟨true, .disconnect (str "a"), [str "b"]⟩), .run, .run,
      .deliver (str "c") (.server (.req (.newTaskReq 1 (some (str "u"))))), .run,
      .deliver (str "a") (.stateRep SchedulerImp.empty), .run] (by decide +kernel)
  exact hnot (hall x hx)

/-- A joiner that gets the state and then a second `StateRep`, in time. -/
theorem initialisedOnce_iff_second_stateRep : ∃ x,
    (Executor.machine SchedulerImp.shiftTasksFromClient (str "b")).Reachable anyStep x ∧
      (x.history.length = 3 ∧ x.registered = true) ∧
      (x.InitialisedOnce SchedulerImp.shiftTasksFromClient ↔ ¬ LateStateRep x.history) := by
  obtain ⟨x, hx, hrun⟩ := Machine.exists_reachable_of_run
    (Executor.machine SchedulerImp.shiftTasksFromClient (str "b")) anyStep
    (fun x => x.history.length = 3 ∧ x.registered = true)
    [.deliver (str "servers") (.membership ⟨true, .join (str "b"), [str "a", str "b"]⟩), .run,
      .deliver (str "a") (.stateRep SchedulerImp.empty), .run, .run,
      .deliver (str "a") (.stateRep SchedulerImp.empty), .run] (by decide +kernel)
  exact ⟨x, hx, hrun, initialisedOnce_iff (str "b") x hx⟩

end ReplicatedScheduler
