import ReplicatedScheduler.Executor

/-!
# From buffering to serving

What becomes of the requests delivered to a server while it starts.

**Theorem (`nothing_lost_of_quiet`).** In a run whose jobs all meet `Quiet`, once the server has
called `registerMainHandlers`, every request it has run since its join was replayed from the
buffer or run by a main handler, in order, its scheduler is what these have made of the state that
it started from, each of them was answered once, and every `StateReq` it has run since then was
answered with a `StateRep`.

`Quiet` leaves out four situations. A request or `StateReq` runs between the call of
`registerMainHandlers` and the job that it queues: the buffer has been drained, and the handlers
are still those that buffer. A view of one member starts the server while its buffer holds
requests: that branch does not process the buffer. A duplicate check meets a null url: the
handler throws and sends no reply. A `StateRep` comes after the server has started and finds
`state_sender` null: its scheduler replaces the one that has what was accepted since.
-/

namespace ReplicatedScheduler

open JavaLib Lib Lts

/-- The request that a message is, if any. -/
def ServerMsg.request (sender : SpreadGroup) : ServerMsg → Option RequestInfo
  | .req r => some ⟨sender, r⟩
  | _ => none

def Msg.request (sender : SpreadGroup) : Msg → Option RequestInfo
  | .server m => m.request sender
  | _ => none

/-- The requests among the messages run. -/
def requests (ms : List (SpreadGroup × Msg)) : List RequestInfo :=
  ms.filterMap fun m => m.2.request m.1

/-- The requests among the messages that the main handlers ran. -/
def requestsServed (ms : List (SpreadGroup × ServerMsg)) : List RequestInfo :=
  ms.filterMap fun m => m.2.request m.1

namespace Executor

/-- Every message that the server has run is accounted for. -/
structure Accounted (x : Executor) : Prop where
  /-- Every request was replayed from the buffer or run by a main handler. -/
  applied : requests x.history = x.server.buffer ++ requestsServed x.accepted
  /-- The buffer was replayed on the state that the server started from. -/
  replayed : ∃ s, (s = SchedulerImp.empty ∨ ∃ sender, (sender, .stateRep s) ∈ x.history) ∧
    x.base = (processBuffer s x.server.buffer).scheduler
  /-- Every request was answered, once. -/
  answered : List.Forall₂ Answers (requests x.history) (replies x.sent)
  /-- Every `StateReq` since the call of `registerMainHandlers` was answered. -/
  states : stateReps x.sent = x.statesDue

/-- No request was lost on the way from buffering to serving. -/
structure NothingLost (shift : Shift) (x : Executor) : Prop extends Accounted x where
  /-- The scheduler is what the main handlers have made of the state that they started on. -/
  reflected : x.server.scheduler =
    x.accepted.foldl (fun s m => (mainHandler shift s m.1 m.2).scheduler) x.base

/-- Main handlers for requests and `StateReq`s are in place or not yet called for. -/
def Settled (x : Executor) : Prop := x.registered = true → x.server.serving = true

instance (x : Executor) : Decidable x.Settled := inferInstanceAs (Decidable (_ → _))

/-- The condition on the next job. -/
def QuietJob (x : Executor) : Job → Prop
  | .message _ (.server (.req r)) =>
    x.Settled ∧ (x.server.serving = true → ¬ r.MeetsNull x.server.scheduler)
  | .message _ (.server .stateReq) => x.Settled
  | .message _ (.membership info) =>
    (Msg.membership info).Alone → x.server.stateSender = none → x.server.buffer = []
  | .message _ (.stateRep _) => x.registered = true → x.server.stateSender ≠ none
  | _ => True

/-- The condition on a step: a delivery is always possible. -/
def Quiet (x : Executor) : Action → Prop
  | .deliver _ _ => True
  | .run => ∀ j ∈ x.queue.head?, x.QuietJob j

instance (x : Executor) (j : Job) : Decidable (x.QuietJob j) := by
  unfold QuietJob
  split <;> infer_instance

instance (x : Executor) (a : Action) : Decidable (x.Quiet a) := by
  unfold Quiet
  split <;> infer_instance

/-! ## The invariant -/

/-- Before the call of `registerMainHandlers` requests are buffered; from it on all is accounted
for. -/
structure Handover (x : Executor) : Prop where
  buffering : x.registered = false → x.server.stateSender = none →
    requests x.history = x.server.buffer ∧ replies x.sent = [] ∧
      x.server.scheduler = SchedulerImp.empty
  noStates : x.registered = false → stateReps x.sent = [] ∧ x.statesDue = []
  accounted : x.registered = true → x.Accounted
  ready : x.registered = true → x.server.serving = true ∨ .registerMain ∈ x.queue
  alone : x.registered = true → x.server.stateSender = none → x.server.buffer = []

variable {shift : Shift} {privateGroup : SpreadGroup}

theorem handover_start : Handover (start privateGroup) where
  buffering := fun _ _ => ⟨rfl, rfl, rfl⟩
  noStates := fun _ => ⟨rfl, rfl⟩
  accounted := by simp [start]
  ready := by simp [start]
  alone := by simp [start]

theorem Handover.tail {x : Executor} (h : Handover x) {sender : SpreadGroup} {msg : Msg}
    {queue : List Job} (hq : x.queue = .message sender msg :: queue) :
    Handover { x with queue := queue } :=
  { h with
    accounted := fun hreg => { h.accounted hreg with }
    ready := fun hreg => by simpa [hq] using h.ready hreg }

/-! ## What each job adds to the record -/

@[simp] theorem requests_membership (ms : List (SpreadGroup × Msg)) (sender : SpreadGroup)
    (info : MembershipInfo) : requests (ms ++ [(sender, .membership info)]) = requests ms := by
  simp [requests, Msg.request]

@[simp] theorem requests_stateRep (ms : List (SpreadGroup × Msg)) (sender : SpreadGroup)
    (s : SchedulerImp) : requests (ms ++ [(sender, .stateRep s)]) = requests ms := by
  simp [requests, Msg.request]

@[simp] theorem requests_req (ms : List (SpreadGroup × Msg)) (sender : SpreadGroup) (r : Req) :
    requests (ms ++ [(sender, .server (.req r))]) = requests ms ++ [⟨sender, r⟩] := by
  simp [requests, Msg.request, ServerMsg.request]

@[simp] theorem replies_append (sent sent' : List Output) :
    replies (sent ++ sent') = replies sent ++ replies sent' := List.filterMap_append

@[simp] theorem stateReps_append (sent sent' : List Output) :
    stateReps (sent ++ sent') = stateReps sent ++ stateReps sent' := List.filterMap_append

theorem replies_processed (sender : SpreadGroup) {s : SchedulerImp} {r : Req}
    (h : ¬ r.MeetsNull s) :
    ∃ rep, replies (onReq s sender r).sent = [rep] ∧ Answers ⟨sender, r⟩ rep ∧
      stateReps (onReq s sender r).sent = [] := by
  rcases onReq_cases s sender r with ⟨-, ⟨rep, hrep, hsent⟩, -⟩ | ⟨hnull, -⟩
  · exact ⟨(sender, rep), by rw [hsent]; rfl, hrep, by rw [hsent]; rfl⟩
  · exact absurd hnull h

/-- A job that adds no request, no answer and no `StateReq` to the record. -/
theorem Accounted.frame {x x' : Executor} (h : x.Accounted)
    (hrequests : requests x'.history = requests x.history)
    (hhistory : x.history ⊆ x'.history)
    (hbuffer : x'.server.buffer = x.server.buffer)
    (hserved : requestsServed x'.accepted = requestsServed x.accepted)
    (hbase : x'.base = x.base)
    (hreplies : replies x'.sent = replies x.sent)
    (hstates : stateReps x'.sent = stateReps x.sent)
    (hdue : x'.statesDue = x.statesDue) : x'.Accounted where
  applied := by rw [hrequests, hbuffer, hserved, h.applied]
  replayed := by
    obtain ⟨s, hs, hbase'⟩ := h.replayed
    refine ⟨s, hs.imp_right fun ⟨sender, hmem⟩ => ⟨sender, hhistory hmem⟩, ?_⟩
    rw [hbase, hbuffer, hbase']
  answered := by
    rw [hrequests, hreplies]
    exact h.answered
  states := by rw [hstates, hdue, h.states]

/-! ## One job -/

theorem Handover.runMembership {x : Executor} (h : Handover x) (hg : Guarded shift x)
    {sender : SpreadGroup} {info : MembershipInfo}
    (hquiet : x.QuietJob (.message sender (.membership info))) :
    Handover (runMessage shift x sender (.membership info)) := by
  rcases x.server.onMembershipInfo_cases info with ⟨halone, hnone, hr⟩ | ⟨hnot, hs, hreg, -, hsent⟩
  · have hbuffer : x.server.buffer = [] := hquiet halone hnone
    constructor <;> simp only [runMessage, ServerHandlers.handle, hr, Bool.or_true]
    · simp
    · simp
    · intro _
      cases hreg : x.registered with
      | true =>
        exact (h.accounted hreg).frame (by simp) (by simp) rfl rfl (by simp) (by simp) (by simp)
          (by simp)
      | false =>
        obtain ⟨hrequests, hreplies, hempty⟩ := h.buffering hreg hnone
        obtain ⟨hstates, hdue⟩ := h.noStates hreg
        rw [hbuffer] at hrequests
        exact {
          applied := by simp [hrequests, hbuffer, (hg.fresh hreg).1, requestsServed]
          replayed := ⟨SchedulerImp.empty, Or.inl rfl, by simp [hempty, hbuffer, processBuffer]⟩
          answered := by simp [hrequests, hreplies]
          states := by simp [hstates, hdue] }
    · simp
    · exact fun _ _ => hbuffer
  · have hreplies : replies (x.server.onMembershipInfo info).sent = [] := by
      rcases hsent with hsent | hsent <;> rw [hsent] <;> rfl
    have hstates : stateReps (x.server.onMembershipInfo info).sent = [] := by
      rcases hsent with hsent | hsent <;> rw [hsent] <;> rfl
    constructor <;> simp only [runMessage, ServerHandlers.handle, hs, hreg, Bool.or_false]
    · simpa [hreplies] using h.buffering
    · simpa [hstates] using h.noStates
    · intro hr
      exact (h.accounted hr).frame (by simp) (by simp) rfl rfl (by simp [hr]) (by simp [hreplies])
        (by simp [hstates]) (by simp)
    · simpa using h.ready
    · exact h.alone

theorem Handover.runStateRep {x : Executor} (h : Handover x) (hg : Guarded shift x)
    (sender : SpreadGroup) (s : SchedulerImp) :
    Handover (runMessage shift x sender (.stateRep s)) := by
  rcases x.server.onStateRep_cases sender s with ⟨hnone, hr⟩ | ⟨hsome, hr⟩
  · constructor <;> simp only [runMessage, ServerHandlers.handle, hr]
    · simp
    · intro hfalse
      rw [Bool.or_eq_false_iff] at hfalse
      obtain ⟨hstates, hdue⟩ := h.noStates hfalse.1
      exact ⟨by simp [hstates, stateReps_processBuffer], by simp [hdue]⟩
    · intro htrue
      cases hreg : x.registered with
      | true =>
        have hbuffer := h.alone hreg hnone
        exact (h.accounted hreg).frame (by simp) (by simp) rfl rfl (by simp)
          (by simp [hbuffer, processBuffer, replies]) (by simp [stateReps_processBuffer]) (by simp)
      | false =>
        obtain ⟨hrequests, hreplies, -⟩ := h.buffering hreg hnone
        obtain ⟨hstates, hdue⟩ := h.noStates hreg
        have hesc : (processBuffer s x.server.buffer).escaped = none := by
          simpa [hreg] using htrue
        exact {
          applied := by simp [hrequests, (hg.fresh hreg).1, requestsServed]
          replayed := ⟨s, Or.inr ⟨sender, by simp⟩, by simp⟩
          answered := by simpa [hrequests, hreplies] using answers_processBuffer hesc
          states := by simp [hstates, hdue, stateReps_processBuffer] }
    · intro htrue
      split_ifs with hesc
      · simp
      · exact h.ready (by simpa [hesc] using htrue)
    · simp
  · constructor <;> simp only [runMessage, ServerHandlers.handle, hr, Bool.or_false]
    · simpa using h.buffering
    · simpa using h.noStates
    · intro hreg
      exact (h.accounted hreg).frame (by simp) (by simp) rfl rfl (by simp [hreg]) (by simp)
        (by simp) (by simp)
    · simpa using h.ready
    · exact h.alone

theorem Handover.runReq {x : Executor} (h : Handover x) (hg : Guarded shift x)
    {sender : SpreadGroup} {r : Req} (hquiet : x.QuietJob (.message sender (.server (.req r)))) :
    Handover (runMessage shift x sender (.server (.req r))) := by
  obtain ⟨hsettled, hnull⟩ := hquiet
  cases hserv : x.server.serving with
  | true =>
    have hreg := hg.serving hserv
    obtain ⟨rep, hreplies, hanswers, hstates⟩ := replies_processed sender (hnull hserv)
    have hnone : x.server.stateSender = none → x.server.buffer = [] := h.alone hreg
    obtain ⟨happlied, hreplayed, hanswered, hdue⟩ := h.accounted hreg
    constructor <;>
      simp only [runMessage, ServerHandlers.handle, ServerHandlers.onServerMsg, hserv, hreg,
        mainHandler, if_true, Bool.true_or]
    · simp
    · simp
    · intro _
      exact {
        applied := by simp [happlied, requestsServed, ServerMsg.request]
        replayed := by
          obtain ⟨s, hs, hbase⟩ := hreplayed
          exact ⟨s, hs.imp_right (Exists.imp fun _ hmem => by simp [hmem]), hbase⟩
        answered := by
          simp only [requests_req, replies_append, hreplies]
          exact List.rel_append hanswered (.cons hanswers .nil)
        states := by simp [hstates, hdue] }
    · simp
    · exact fun _ => hnone
  | false =>
    have hreg : x.registered = false := by
      by_contra hne
      rw [Bool.not_eq_false] at hne
      exact absurd (hsettled hne) (by simp [hserv])
    constructor <;>
      simp only [runMessage, ServerHandlers.handle, ServerHandlers.onServerMsg, hserv, hreg]
    · simpa using h.buffering hreg
    · simpa using h.noStates hreg
    · simp
    · simp
    · simp

theorem Handover.runClientFailure {x : Executor} (h : Handover x) (hg : Guarded shift x)
    (sender : SpreadGroup) (client : Option SpreadGroup) :
    Handover (runMessage shift x sender (.server (.clientFailure client))) := by
  have hrequests : requests (x.history ++ [(sender, .server (.clientFailure client))]) =
      requests x.history := by simp [requests, Msg.request, ServerMsg.request]
  cases hserv : x.server.serving with
  | true =>
    have hreg := hg.serving hserv
    have hnone : x.server.stateSender = none → x.server.buffer = [] := h.alone hreg
    constructor <;>
      simp only [runMessage, ServerHandlers.handle, ServerHandlers.onServerMsg, hserv, hreg,
        mainHandler, if_true, Bool.true_or]
    · simp
    · simp
    · intro _
      exact (h.accounted hreg).frame hrequests (by simp) rfl
        (by simp [requestsServed, ServerMsg.request]) rfl (by simp) (by simp) (by simp)
    · simp
    · exact fun _ => hnone
  | false =>
    constructor <;>
      simp only [runMessage, ServerHandlers.handle, ServerHandlers.onServerMsg, hserv, hrequests,
        Bool.false_eq_true, if_false, Bool.or_false]
    · simpa using h.buffering
    · simpa using h.noStates
    · intro hreg
      exact (h.accounted hreg).frame hrequests (by simp) rfl rfl (by simp [hreg]) (by simp)
        (by simp) (by simp)
    · simpa [hserv] using h.ready
    · exact h.alone

theorem Handover.runStateReq {x : Executor} (h : Handover x) (hg : Guarded shift x)
    {sender : SpreadGroup} (hsettled : x.Settled) :
    Handover (runMessage shift x sender (.server .stateReq)) := by
  have hrequests : requests (x.history ++ [(sender, .server .stateReq)]) = requests x.history := by
    simp [requests, Msg.request, ServerMsg.request]
  cases hserv : x.server.serving with
  | true =>
    have hreg := hg.serving hserv
    have hnone : x.server.stateSender = none → x.server.buffer = [] := h.alone hreg
    obtain ⟨happlied, ⟨s, hs, hbase⟩, hanswered, hdue⟩ := h.accounted hreg
    constructor <;>
      simp only [runMessage, ServerHandlers.handle, ServerHandlers.onServerMsg, hserv, hreg,
        mainHandler, if_true, Bool.true_or]
    · simp
    · simp
    · intro _
      exact {
        applied := by
          rw [hrequests, happlied]
          simp [requestsServed, ServerMsg.request]
        replayed := ⟨s, hs.imp_right (Exists.imp fun _ hmem => by simp [hmem]), hbase⟩
        answered := by
          rw [hrequests]
          simpa [replies] using hanswered
        states := by
          rw [stateReps_append, hdue]
          rfl }
    · simp
    · exact fun _ => hnone
  | false =>
    have hreg : x.registered = false := by
      by_contra hne
      rw [Bool.not_eq_false] at hne
      exact absurd (hsettled hne) (by simp [hserv])
    constructor <;>
      simp only [runMessage, ServerHandlers.handle, ServerHandlers.onServerMsg, hserv, hreg,
        hrequests]
    · simpa using h.buffering hreg
    · simpa using h.noStates hreg
    · simp
    · simp
    · simp

/-! ## All jobs -/

theorem handover_step {x x' : Executor} {a : Action} (hg : Guarded shift x) (h : Handover x)
    (hquiet : x.Quiet a) (hstep : step shift x a = some x') : Handover x' := by
  rcases step_cases hstep with ⟨sender, msg, -, rfl⟩ | ⟨sender, msg, queue, rfl, hq, rfl⟩ |
    ⟨queue, -, hq, rfl⟩
  · exact { h with
      accounted := fun hreg => { h.accounted hreg with }
      ready := fun hreg => (h.ready hreg).imp_right fun hmem => List.mem_append_left _ hmem }
  · have hjob : x.QuietJob (.message sender msg) := hquiet _ (by rw [hq]; rfl)
    cases msg with
    | membership info => exact (h.tail hq).runMembership (hg.tail hq) hjob
    | stateRep s => exact (h.tail hq).runStateRep (hg.tail hq) sender s
    | server m =>
      cases m with
      | req r => exact (h.tail hq).runReq (hg.tail hq) hjob
      | clientFailure client => exact (h.tail hq).runClientFailure (hg.tail hq) sender client
      | stateReq => exact (h.tail hq).runStateReq (hg.tail hq) hjob
  · exact { h with
      accounted := fun hreg => { h.accounted hreg with }
      ready := fun _ => Or.inl rfl }

theorem handover_of_reachable {x : Executor}
    (h : (machine shift privateGroup).Reachable Quiet x) : Handover x :=
  h.invariant_of (P := Handover)
    (fun _ hx => guarded_of_reachable (hx.mono fun _ _ _ => trivial)) handover_start
    fun _ _ _ hg hx hquiet hstep => handover_step hg hx hquiet hstep

/-! ## The scheduler stays -/

/-- A quiet job does not replace the scheduler of a server that has started. -/
theorem QuietJob.not_installs {x : Executor} {sender : SpreadGroup} {msg : Msg}
    (h : x.QuietJob (.message sender msg)) (hreg : x.registered = true) :
    (x.server.handle shift sender msg).installs = false := by
  cases msg with
  | membership info =>
    rcases x.server.onMembershipInfo_cases info with ⟨-, -, hr⟩ | ⟨-, -, -, hinst, -⟩
    · rw [ServerHandlers.handle, hr]
    · exact hinst
  | stateRep s =>
    rcases x.server.onStateRep_cases sender s with ⟨hnone, -⟩ | ⟨-, hr⟩
    · exact absurd hnone (h hreg)
    · rw [ServerHandlers.handle, hr]
  | server m => exact (x.server.onServerMsg_flags shift sender m).2.1

theorem reinstalls_step {x x' : Executor} {a : Action} (h : x.reinstalls = 0)
    (hquiet : x.Quiet a) (hstep : step shift x a = some x') : x'.reinstalls = 0 := by
  rcases step_cases hstep with ⟨sender, msg, -, rfl⟩ | ⟨sender, msg, queue, rfl, hq, rfl⟩ |
    ⟨queue, -, -, rfl⟩
  · exact h
  · have hjob : x.QuietJob (.message sender msg) := hquiet _ (by rw [hq]; rfl)
    show (if x.registered = true ∧ _ then _ else x.reinstalls) = 0
    rw [if_neg fun hinst => Bool.noConfusion ((hjob.not_installs hinst.1).symm.trans hinst.2)]
    exact h
  · exact h

theorem reflected_of_reachable {x : Executor}
    (h : (machine shift privateGroup).Reachable Quiet x) :
    x.server.scheduler =
      x.accepted.foldl (fun s m => (mainHandler shift s m.1 m.2).scheduler) x.base := by
  have hguarded : Guarded shift x := guarded_of_reachable (h.mono fun _ _ _ => trivial)
  have honce : x.reinstalls = 0 := h.invariant (P := fun x => x.reinstalls = 0) rfl
    fun _ _ _ hx hquiet hstep => reinstalls_step hx hquiet hstep
  exact hguarded.reflected honce

end Executor

open Executor

/-- **No request is lost from buffering to serving**, in a run whose jobs are quiet. -/
theorem nothing_lost_of_quiet (privateGroup : SpreadGroup) (x : Executor)
    (h : (Executor.machine SchedulerImp.shiftTasksFromClient privateGroup).Reachable Quiet x)
    (hqueue : x.queue = []) (hreg : x.registered = true) :
    x.history = x.delivered ∧ x.NothingLost SchedulerImp.shiftTasksFromClient := by
  refine ⟨?_, (handover_of_reachable h).accounted hreg, reflected_of_reachable h⟩
  rw [delivered_eq (h.mono fun _ _ _ => trivial), hqueue]
  simp

/-- A request that runs between the `StateRep` and the registration it queues is added to a
buffer that has been drained. -/
theorem request_lost_before_registration : ¬ ∀ x,
    (Executor.machine SchedulerImp.shiftTasksFromClient (str "b")).Reachable anyStep x →
      x.queue = [] → x.registered = true →
        x.history = x.delivered ∧ x.NothingLost SchedulerImp.shiftTasksFromClient := by
  intro hall
  obtain ⟨x, hx, hqueue, hreg, hlost⟩ := Machine.exists_reachable_of_run
    (Executor.machine SchedulerImp.shiftTasksFromClient (str "b")) anyStep
    (fun x => x.queue = [] ∧ x.registered = true ∧
      (requests x.history).length ≠ (replies x.sent).length)
    [.deliver (str "servers") (.membership ⟨true, .join (str "b"), [str "a", str "b"]⟩), .run,
      .deliver (str "a") (.stateRep SchedulerImp.empty),
      .deliver (str "c") (.server (.req (.newTaskReq 1 (some (str "u"))))), .run, .run, .run]
    (by decide +kernel)
  exact hlost (hall x hx hqueue hreg).2.answered.length_eq

/-- A joiner that buffers a request, installs the state, registers and serves another request. -/
theorem nothing_lost_of_buffered_request : ∃ x,
    (Executor.machine SchedulerImp.shiftTasksFromClient (str "b")).Reachable Quiet x ∧
      (x.queue = [] ∧ (requests x.history).length = 2 ∧ x.registered = true) ∧
        x.history = x.delivered ∧ x.NothingLost SchedulerImp.shiftTasksFromClient := by
  obtain ⟨x, hx, hrun⟩ := Machine.exists_reachable_of_run
    (Executor.machine SchedulerImp.shiftTasksFromClient (str "b")) Quiet
    (fun x => x.queue = [] ∧ (requests x.history).length = 2 ∧ x.registered = true)
    [.deliver (str "servers") (.membership ⟨true, .join (str "b"), [str "a", str "b"]⟩), .run,
      .deliver (str "c") (.server (.req (.newTaskReq 1 (some (str "u"))))), .run,
      .deliver (str "a") (.stateRep SchedulerImp.empty), .run, .run,
      .deliver (str "c") (.server (.req (.getTaskReq 2))), .run]
    (by decide +kernel)
  exact ⟨x, hx, hrun, nothing_lost_of_quiet (str "b") x hx hrun.1 hrun.2.2⟩

end ReplicatedScheduler
