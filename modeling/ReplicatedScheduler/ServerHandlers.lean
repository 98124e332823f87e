import ReplicatedScheduler.MainHandlers

/-!
# A server and its handlers

`ServerHandlers` as the source has it: the scheduler, the buffer of requests that came before the
state, and `state_sender`, the guard of both ways to initialise.

**Handlers.** From the start a server has handlers for membership messages, for `StateRep`, and
for the three requests, which it buffers. `registerMainHandlers` replaces the request handlers and
adds those for `ClientFailure` and `StateReq`; a message without a handler is dropped.

`registerMainHandlers` only queues the registration, as a job of its own. A handler's result
says that it did (`registers`); when the job runs is the business of the machine that runs the
handlers.
-/

namespace ReplicatedScheduler

open JavaLib Lib

/-! ## Membership messages -/

/-- What caused a membership message of Spread, with the private group it is about. -/
inductive Cause
  | join (joined : SpreadGroup)
  | leave (left : SpreadGroup)
  | disconnect (disconnected : SpreadGroup)
  | network
  deriving DecidableEq, Repr

/-- `spread.MembershipInfo`. A message that is not regular is a transition or a self-leave. -/
structure MembershipInfo where
  regular : Bool
  cause : Cause
  members : List SpreadGroup
  deriving DecidableEq, Repr

namespace MembershipInfo

def getMembers (msg : MembershipInfo) : Option (List SpreadGroup) :=
  if msg.regular then some msg.members else none

def isCausedByJoin (msg : MembershipInfo) : Bool :=
  match msg.cause with
  | .join _ => true
  | _ => false

/-- The private group of the member who joined, null unless a join caused the message. -/
def getJoined (msg : MembershipInfo) : Option SpreadGroup :=
  match msg.regular, msg.cause with
  | true, .join joined => some joined
  | _, _ => none

end MembershipInfo

/-- The messages delivered to a server. -/
inductive Msg
  | membership (info : MembershipInfo)
  | stateRep (scheduler : SchedulerImp)
  | server (m : ServerMsg)
  deriving DecidableEq

/-! ## The server -/

structure ServerHandlers where
  privateGroup : SpreadGroup
  scheduler : SchedulerImp
  stateSender : Option SpreadGroup
  buffer : List RequestInfo
  /-- The main handlers are registered. -/
  serving : Bool
  deriving DecidableEq

/-- What the job of one message leaves behind. -/
structure JobResult where
  server : ServerHandlers
  sent : List Output
  /-- `registerMainHandlers` was called. -/
  registers : Bool
  /-- The scheduler was replaced and the buffer processed. -/
  installs : Bool
  escaped : Option JavaException

namespace ServerHandlers

/-- A new server. -/
def start (privateGroup : SpreadGroup) : ServerHandlers :=
  ⟨privateGroup, SchedulerImp.empty, none, [], false⟩

/-- The job that `registerMainHandlers` queues. -/
def registerMainHandlers (s : ServerHandlers) : ServerHandlers := { s with serving := true }

def onMembershipInfo (s : ServerHandlers) (msg : MembershipInfo) : JobResult :=
  match msg.getMembers with
  | none => ⟨s, [], false, false, some ⟨.nullPointerException, none⟩⟩
  | some members =>
    if members.length = 1 ∧ s.stateSender = none then
      ⟨{ s with stateSender := msg.getJoined }, [], true, false, none⟩
    else if msg.isCausedByJoin ∧ msg.getJoined = some s.privateGroup then
      ⟨s, [.stateReq], false, false, none⟩
    else ⟨s, [], false, false, none⟩

/-- An exception that escapes `processBuffer` leaves the server without main handlers. -/
def onStateRep (s : ServerHandlers) (sender : SpreadGroup) (scheduler : SchedulerImp) :
    JobResult :=
  if s.stateSender = none then
    let h := processBuffer scheduler s.buffer
    ⟨{ s with stateSender := some sender, scheduler := h.scheduler }, h.sent,
      h.escaped.isNone, true, h.escaped⟩
  else ⟨s, [], false, false, none⟩

/-- A request, `ClientFailure` or `StateReq`. Before the main handlers are registered requests
are buffered and the rest has no handler. -/
def onServerMsg (shift : Shift) (s : ServerHandlers) (sender : SpreadGroup) (m : ServerMsg) :
    JobResult :=
  if s.serving then
    let h := mainHandler shift s.scheduler sender m
    ⟨{ s with scheduler := h.scheduler }, h.sent, false, false, h.escaped⟩
  else
    match m with
    | .req r => ⟨{ s with buffer := s.buffer ++ [⟨sender, r⟩] }, [], false, false, none⟩
    | _ => ⟨s, [], false, false, none⟩

/-- Run the handler registered for a message. -/
def handle (shift : Shift) (s : ServerHandlers) (sender : SpreadGroup) : Msg → JobResult
  | .membership info => s.onMembershipInfo info
  | .stateRep scheduler => s.onStateRep sender scheduler
  | .server m => s.onServerMsg shift sender m

end ServerHandlers

/-! ## Messages that start a server -/

/-- A regular view of one member, which makes an uninitialised server serve by itself. -/
def Msg.Alone : Msg → Prop
  | .membership info => info.regular = true ∧ info.members.length = 1
  | _ => False

instance (msg : Msg) : Decidable msg.Alone := by
  unfold Msg.Alone
  split <;> infer_instance

/-- A view of one member that is caused by its join, as the first view of a group is. -/
def Msg.AloneByJoin : Msg → Prop
  | .membership info => info.members.length = 1 ∧ info.getJoined ≠ none
  | _ => False

instance (msg : Msg) : Decidable msg.AloneByJoin := by
  unfold Msg.AloneByJoin
  split <;> infer_instance

theorem Msg.AloneByJoin.alone {msg : Msg} (h : msg.AloneByJoin) : msg.Alone := by
  cases msg with
  | membership info =>
    obtain ⟨hlen, hj⟩ := h
    refine ⟨?_, hlen⟩
    by_contra hreg
    rw [Bool.not_eq_true] at hreg
    exact hj (by simp [MembershipInfo.getJoined, hreg])
  | stateRep | server => exact h

namespace ServerHandlers

variable (shift : Shift) (s : ServerHandlers) (sender : SpreadGroup)

/-- What a membership message does. -/
theorem onMembershipInfo_cases (info : MembershipInfo) :
    ((Msg.membership info).Alone ∧ s.stateSender = none ∧ s.onMembershipInfo info =
        ⟨{ s with stateSender := info.getJoined }, [], true, false, none⟩) ∨
      (¬ ((Msg.membership info).Alone ∧ s.stateSender = none) ∧
        (s.onMembershipInfo info).server = s ∧
        (s.onMembershipInfo info).registers = false ∧
        (s.onMembershipInfo info).installs = false ∧
        ((s.onMembershipInfo info).sent = [] ∨ (s.onMembershipInfo info).sent = [.stateReq])) := by
  cases hreg : info.regular with
  | false =>
    refine Or.inr ⟨fun h => ?_, ?_⟩
    · rw [Msg.Alone, hreg] at h
      exact absurd h.1.1 (by decide)
    · simp [onMembershipInfo, MembershipInfo.getMembers, hreg]
  | true =>
    by_cases h : info.members.length = 1 ∧ s.stateSender = none
    · exact Or.inl ⟨⟨hreg, h.1⟩, h.2, by simp [onMembershipInfo, MembershipInfo.getMembers, hreg, h]⟩
    · refine Or.inr ⟨fun ha => h ⟨ha.1.2, ha.2⟩, ?_⟩
      by_cases hj : info.isCausedByJoin ∧ info.getJoined = some s.privateGroup <;>
        simp only [onMembershipInfo, MembershipInfo.getMembers, hreg, if_true, if_neg h, hj] <;>
        simp

/-- What a `StateRep` does: the first one is installed, and the buffer processed on it. -/
theorem onStateRep_cases (scheduler : SchedulerImp) :
    (s.stateSender = none ∧ s.onStateRep sender scheduler =
        ⟨{ s with stateSender := some sender,
                  scheduler := (processBuffer scheduler s.buffer).scheduler },
          (processBuffer scheduler s.buffer).sent,
          (processBuffer scheduler s.buffer).escaped.isNone, true,
          (processBuffer scheduler s.buffer).escaped⟩) ∨
      (s.stateSender ≠ none ∧ s.onStateRep sender scheduler = ⟨s, [], false, false, none⟩) := by
  by_cases h : s.stateSender = none
  · exact Or.inl ⟨h, by rw [onStateRep, if_pos h]⟩
  · exact Or.inr ⟨h, by rw [onStateRep, if_neg h]⟩

/-- What a request, `ClientFailure` or `StateReq` does: it is served, buffered or dropped. -/
theorem onServerMsg_cases (m : ServerMsg) :
    (s.serving = true ∧ (s.onServerMsg shift sender m).server =
        { s with scheduler := (mainHandler shift s.scheduler sender m).scheduler } ∧
        (s.onServerMsg shift sender m).sent = (mainHandler shift s.scheduler sender m).sent) ∨
      (s.serving = false ∧ (∃ r, m = .req r ∧ (s.onServerMsg shift sender m).server =
        { s with buffer := s.buffer ++ [⟨sender, r⟩] }) ∧
        (s.onServerMsg shift sender m).sent = []) ∨
      (s.serving = false ∧ (∀ r, m ≠ .req r) ∧ (s.onServerMsg shift sender m).server = s ∧
        (s.onServerMsg shift sender m).sent = []) := by
  cases h : s.serving with
  | true => exact Or.inl ⟨rfl, by simp [onServerMsg, h]⟩
  | false => cases m <;> simp [onServerMsg, h]

/-- A request, `ClientFailure` or `StateReq` neither initialises a server nor sends it anew. -/
theorem onServerMsg_flags (m : ServerMsg) :
    (s.onServerMsg shift sender m).registers = false ∧
      (s.onServerMsg shift sender m).installs = false ∧
      (s.onServerMsg shift sender m).server.stateSender = s.stateSender ∧
      (s.onServerMsg shift sender m).server.serving = s.serving := by
  cases h : s.serving with
  | true => simp [onServerMsg, h]
  | false => cases m <;> simp [onServerMsg, h]

end ServerHandlers

end ReplicatedScheduler
