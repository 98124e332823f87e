import ReplicatedScheduler.SchedulerImp

/-!
# Requests, replies and their handlers

The messages between clients and servers, what a serving server does with each
(`registerMainHandlers`), and the replay of buffered requests (`processBuffer`).

A handler gives the scheduler it leaves behind, the messages it sends in order, and the
exception that escapes it, if any. An exception ends the handler where it stands.

**Replaying and serving.** `processBuffer` has its own copy of the three request handlers. The
copies agree (`bufferedRequest_eq`).

**On the ledger** (`ledger_onReq`), a request is one operation of the work queue, whatever the
iteration order of the map.
-/

namespace ReplicatedScheduler

open JavaLib Lib

/-! ## Messages -/

/-- The three requests. A url, and the task to end, may be null. -/
inductive Req
  | newTaskReq (id : JavaInt) (url : Option JavaString)
  | getTaskReq (id : JavaInt)
  | endTaskReq (id : JavaInt) (t : Option Task)
  deriving DecidableEq, Repr

/-- The three replies. -/
inductive Rep
  | newTaskRep (id : JavaInt) (res : Bool)
  | getTaskRep (id : JavaInt) (res : Option Task) (status : Bool)
  | endTaskRep (id : JavaInt) (res : Bool)
  deriving DecidableEq, Repr

def Req.id : Req → JavaInt
  | .newTaskReq id _ | .getTaskReq id | .endTaskReq id _ => id

def Rep.id : Rep → JavaInt
  | .newTaskRep id _ | .getTaskRep id _ _ | .endTaskRep id _ => id

/-- A request with the private group of its sender. -/
structure RequestInfo where
  sender : SpreadGroup
  msg : Req
  deriving DecidableEq, Repr

/-- The messages that a serving server has a handler for. -/
inductive ServerMsg
  | req (r : Req)
  | clientFailure (client : Option SpreadGroup)
  | stateReq
  deriving DecidableEq, Repr

/-- What a server sends: a reply or its state to a private group, or a `StateReq` to the group
`servers`. -/
inductive Output
  | reply (dest : SpreadGroup) (rep : Rep)
  | stateRep (dest : SpreadGroup) (scheduler : SchedulerImp)
  | stateReq
  deriving DecidableEq

/-- What a handler leaves behind. -/
structure Handled where
  scheduler : SchedulerImp
  sent : List Output
  escaped : Option JavaException
  deriving DecidableEq

/-! ## The main handlers -/

def onNewTaskReq (s : SchedulerImp) (sender : SpreadGroup) (id : JavaInt)
    (url : Option JavaString) : Handled :=
  match s.newTask url with
  | .ok s' => ⟨s', [.reply sender (.newTaskRep id true)], none⟩
  | .error e =>
    if e.cls = .repeatedTaskException then ⟨s, [.reply sender (.newTaskRep id false)], none⟩
    else ⟨s, [], some e⟩

def onGetTaskReq (s : SchedulerImp) (sender : SpreadGroup) (id : JavaInt) : Handled :=
  match s.getTask with
  | .ok (task, s') =>
    ⟨s'.processTask sender task, [.reply sender (.getTaskRep id (some task) true)], none⟩
  | .error e =>
    if e.cls = .noSuchElementException then
      ⟨s, [.reply sender (.getTaskRep id none false)], none⟩
    else ⟨s, [], some e⟩

def onEndTaskReq (s : SchedulerImp) (sender : SpreadGroup) (id : JavaInt) (t : Option Task) :
    Handled :=
  match s.endTask t with
  | .ok s' => ⟨s', [.reply sender (.endTaskRep id true)], none⟩
  | .error e =>
    if e.cls = .noSuchElementException then ⟨s, [.reply sender (.endTaskRep id false)], none⟩
    else ⟨s, [], some e⟩

def onReq (s : SchedulerImp) (sender : SpreadGroup) : Req → Handled
  | .newTaskReq id url => onNewTaskReq s sender id url
  | .getTaskReq id => onGetTaskReq s sender id
  | .endTaskReq id t => onEndTaskReq s sender id t

/-- How tasks are shifted from a failed client: `shiftTasksFromClient`, or the same loop over
entries that stay valid. -/
abbrev Shift := SchedulerImp → Option SpreadGroup → SchedulerImp × Option JavaException

/-- `registerMainHandlers`. -/
def mainHandler (shift : Shift) (s : SchedulerImp) (sender : SpreadGroup) : ServerMsg → Handled
  | .req r => onReq s sender r
  | .clientFailure client => ⟨(shift s client).1, [], (shift s client).2⟩
  | .stateReq => ⟨s, [.stateRep sender s], none⟩

/-! ## Replaying the buffer -/

/-- One iteration of `processBuffer`. -/
def bufferedRequest (s : SchedulerImp) (ri : RequestInfo) : Handled :=
  match ri.msg with
  | .newTaskReq id url =>
    match s.newTask url with
    | .ok s' => ⟨s', [.reply ri.sender (.newTaskRep id true)], none⟩
    | .error e =>
      if e.cls = .repeatedTaskException then
        ⟨s, [.reply ri.sender (.newTaskRep id false)], none⟩
      else ⟨s, [], some e⟩
  | .getTaskReq id =>
    match s.getTask with
    | .ok (task, s') =>
      ⟨s'.processTask ri.sender task, [.reply ri.sender (.getTaskRep id (some task) true)], none⟩
    | .error e =>
      if e.cls = .noSuchElementException then
        ⟨s, [.reply ri.sender (.getTaskRep id none false)], none⟩
      else ⟨s, [], some e⟩
  | .endTaskReq id t =>
    match s.endTask t with
    | .ok s' => ⟨s', [.reply ri.sender (.endTaskRep id true)], none⟩
    | .error e =>
      if e.cls = .noSuchElementException then
        ⟨s, [.reply ri.sender (.endTaskRep id false)], none⟩
      else ⟨s, [], some e⟩

/-- `processBuffer`: an exception that escapes an iteration ends the loop. -/
def processBuffer (s : SchedulerImp) : List RequestInfo → Handled
  | [] => ⟨s, [], none⟩
  | ri :: buffer =>
    let h := bufferedRequest s ri
    match h.escaped with
    | some e => ⟨h.scheduler, h.sent, some e⟩
    | none =>
      let rest := processBuffer h.scheduler buffer
      ⟨rest.scheduler, h.sent ++ rest.sent, rest.escaped⟩

/-- The copies of the handlers in `processBuffer` are the main handlers. -/
theorem bufferedRequest_eq (s : SchedulerImp) (ri : RequestInfo) :
    bufferedRequest s ri = onReq s ri.sender ri.msg := by
  unfold bufferedRequest
  cases ri.msg <;> rfl

/-! ## What a request does -/

/-- A reply to a request: to its sender and under its id. -/
def Answers (ri : RequestInfo) (reply : SpreadGroup × Rep) : Prop :=
  reply.1 = ri.sender ∧ reply.2.id = ri.msg.id

/-- The replies among the messages sent. -/
def replies (sent : List Output) : List (SpreadGroup × Rep) :=
  sent.filterMap fun
    | .reply dest rep => some (dest, rep)
    | _ => none

/-- The servers that a state was sent to. -/
def stateReps (sent : List Output) : List SpreadGroup :=
  sent.filterMap fun
    | .stateRep dest _ => some dest
    | _ => none

/-- The duplicate check of a request meets a null url first. -/
def Req.MeetsNull (s : SchedulerImp) : Req → Prop
  | .newTaskReq _ url => s.MeetsNull url
  | _ => False

instance (s : SchedulerImp) (r : Req) : Decidable (r.MeetsNull s) := by
  unfold Req.MeetsNull
  split <;> infer_instance

/-- A request whose handler ends normally is answered; one whose handler throws is not answered
and changes nothing. -/
theorem onReq_cases (s : SchedulerImp) (sender : SpreadGroup) (r : Req) :
    (¬ r.MeetsNull s ∧ (∃ rep : Rep, Answers ⟨sender, r⟩ (sender, rep) ∧
        (onReq s sender r).sent = [.reply sender rep]) ∧ (onReq s sender r).escaped = none) ∨
      (r.MeetsNull s ∧ (onReq s sender r).sent = [] ∧ (onReq s sender r).scheduler = s ∧
        (onReq s sender r).escaped = some ⟨.nullPointerException, none⟩) := by
  cases r with
  | newTaskReq id url =>
    simp only [Req.MeetsNull, s.meetsNull_iff, onReq, onNewTaskReq]
    rcases s.newTask_cases url with ⟨-, h⟩ | ⟨-, -, h⟩ | ⟨-, h⟩
    · exact Or.inl ⟨by simp [h], ⟨.newTaskRep id true, ⟨rfl, rfl⟩, by simp [h]⟩, by simp [h]⟩
    · exact Or.inl ⟨by simp [h], ⟨.newTaskRep id false, ⟨rfl, rfl⟩, by simp [h]⟩, by simp [h]⟩
    · exact Or.inr (by simp [h])
  | getTaskReq id =>
    refine Or.inl ⟨not_false, ?_⟩
    cases h : s.getTask with
    | ok p =>
      exact ⟨⟨.getTaskRep id (some p.1) true, ⟨rfl, rfl⟩, by simp [onReq, onGetTaskReq, h]⟩,
        by simp [onReq, onGetTaskReq, h]⟩
    | error e =>
      obtain ⟨-, rfl⟩ := SchedulerImp.getTask_eq_error h
      exact ⟨⟨.getTaskRep id none false, ⟨rfl, rfl⟩, by simp [onReq, onGetTaskReq, h]⟩,
        by simp [onReq, onGetTaskReq, h]⟩
  | endTaskReq id t =>
    refine Or.inl ⟨not_false, ⟨.endTaskRep id true, ⟨rfl, rfl⟩, ?_⟩, ?_⟩ <;>
      cases t <;> simp [onReq, onEndTaskReq, SchedulerImp.endTask]

/-- When the whole buffer is processed, every request of it is answered, in order. -/
theorem answers_processBuffer {s : SchedulerImp} {buffer : List RequestInfo}
    (h : (processBuffer s buffer).escaped = none) :
    List.Forall₂ Answers buffer (replies (processBuffer s buffer).sent) := by
  induction buffer generalizing s with
  | nil => exact .nil
  | cons ri buffer ih =>
    rcases onReq_cases s ri.sender ri.msg with ⟨-, ⟨rep, hrep, hsent⟩, hesc⟩ | ⟨-, -, -, hesc⟩
    · simp only [processBuffer, bufferedRequest_eq, hesc, hsent] at h ⊢
      exact .cons hrep (ih h)
    · simp [processBuffer, bufferedRequest_eq, hesc] at h

/-- Processing the buffer sends no state. -/
theorem stateReps_processBuffer (s : SchedulerImp) (buffer : List RequestInfo) :
    stateReps (processBuffer s buffer).sent = [] := by
  induction buffer generalizing s with
  | nil => rfl
  | cons ri buffer ih =>
    rcases onReq_cases s ri.sender ri.msg with ⟨-, ⟨rep, -, hsent⟩, hesc⟩ | ⟨-, hsent, -, hesc⟩
    · simp only [processBuffer, bufferedRequest_eq, hesc, hsent]
      exact ih _
    · simp [processBuffer, bufferedRequest_eq, hesc, hsent, stateReps]

/-! ## Requests on the ledger -/

/-- A url that may be added: nothing in the queue has it, or has a null url. -/
def NewIn (q : WorkQueue Task SpreadGroup) (url : Option JavaString) : Prop :=
  ∀ t, q.Has t → t.url ≠ none ∧ t.url ≠ url

theorem SchedulerImp.isNew_iff (s : SchedulerImp) (url : Option JavaString) :
    s.IsNew url ↔ NewIn s.ledger url := by
  simp only [SchedulerImp.IsNew, NewIn, SchedulerImp.mem_tasks]

open Classical in
/-- What a request does to the work queue. -/
noncomputable def Req.effect (sender : SpreadGroup) (q : WorkQueue Task SpreadGroup) :
    Req → WorkQueue Task SpreadGroup
  | .newTaskReq _ url => if NewIn q url then q.add ⟨url⟩ else q
  | .getTaskReq _ => q.handOut sender
  | .endTaskReq _ none => q
  | .endTaskReq _ (some t) => q.finish t

/-- **Requests act on the ledger alone.** -/
theorem ledger_onReq (s : SchedulerImp) (sender : SpreadGroup) (r : Req) :
    (onReq s sender r).scheduler.ledger = r.effect sender s.ledger := by
  cases r with
  | newTaskReq id url =>
    simp only [Req.effect, ← s.isNew_iff]
    rcases s.newTask_cases url with ⟨hnew, h⟩ | ⟨hnew, -, h⟩ | ⟨hnew, h⟩
    · rw [if_pos hnew, ← s.ledger_addTask]
      simp [onReq, onNewTaskReq, h]
    · rw [if_neg hnew]
      simp [onReq, onNewTaskReq, h]
    · rw [if_neg hnew]
      simp [onReq, onNewTaskReq, h]
  | getTaskReq id =>
    unfold Req.effect
    cases h : s.getTask with
    | ok p =>
      rw [← (SchedulerImp.ledger_getTask h sender).2]
      simp [onReq, onGetTaskReq, h]
    | error e =>
      obtain ⟨hw, rfl⟩ := SchedulerImp.getTask_eq_error h
      simp [onReq, onGetTaskReq, h, WorkQueue.handOut, hw]
  | endTaskReq id t =>
    cases t with
    | none => rfl
    | some t => exact s.ledger_remove t

/-- A request keeps every task in one place at most. -/
theorem unique_onReq {s : SchedulerImp} (h : s.ledger.Unique) (sender : SpreadGroup) (r : Req) :
    (onReq s sender r).scheduler.ledger.Unique := by
  rw [ledger_onReq]
  cases r with
  | newTaskReq id url =>
    simp only [Req.effect, ← s.isNew_iff]
    split_ifs with hnew
    · exact h.add (SchedulerImp.count_eq_zero_of_isNew hnew)
    · exact h
  | getTaskReq id => exact h.handOut sender
  | endTaskReq id t =>
    cases t with
    | none => exact h
    | some t => exact h.finish t

end ReplicatedScheduler
