import ReplicatedScheduler.ServerGroup
import ReplicatedScheduler.Lib.Record

/-!
# The group of servers, registration apart

The group of `ServerGroup` with the two things that client failures depend on: the registration of
the main handlers is a step of its own, some time after the `StateRep` was handled, and all tasks
of a failed client are shifted.

Between the two steps a server has its state and its old handlers. It goes on buffering requests,
into a buffer that was processed already, and drops `ClientFailure`s and `StateReq`s.

The machine `PeerGroup.machine` records the scheduler of every server at each position of the
agreed order, from its installation or start on, and the `StateRep` that it installed. No handler
reads the record.
-/

namespace ReplicatedScheduler

open JavaLib Lib Lts

/-- A server of the group. The fields `installed`, `since` and `record` record the run. -/
structure Peer where
  handlers : ServerHandlers
  /-- The position of the view that its own join caused. -/
  joined : ℕ
  /-- The position of the next message that it delivers. -/
  next : ℕ
  alive : Bool
  /-- A registration of the main handlers is queued. -/
  registering : Bool
  installed : Option StateReply
  /-- The position from which on the main handlers are in place. -/
  since : Option ℕ
  record : Record SchedulerImp

namespace Peer

/-- A server that joins at position `p`. -/
def start (g : SpreadGroup) (p : ℕ) : Peer :=
  ⟨ServerHandlers.start g, p, p, true, false, none, none, Record.empty⟩

/-- The server has its state: the main handlers are registered or about to be. -/
def started (m : Peer) : Bool := m.registering || m.handlers.serving

/-- Run the handler of a message. -/
def handle (m : Peer) (a : Agreed) : JobResult :=
  m.handlers.handle SchedulerImp.shiftAllTasksFromClient a.delivery.1 a.delivery.2

/-- The server after it has delivered a message of the agreed order. -/
def deliver (m : Peer) (a : Agreed) : Peer :=
  let r := m.handle a
  { m with
    handlers := r.server
    next := m.next + 1
    registering := m.registering || r.registers
    record :=
      if m.started then m.record.push r.server.scheduler
      else if r.registers then Record.start (m.next + 1) r.server.scheduler
      else m.record }

/-- The server after it has received a `StateRep`. -/
def receive (m : Peer) (rep : StateReply) : Peer :=
  let r := m.handlers.onStateRep rep.sender rep.scheduler
  { m with
    handlers := r.server
    registering := m.registering || r.registers
    installed := if r.registers then some rep else m.installed
    record := if r.registers then Record.start m.next r.server.scheduler else m.record }

/-- The server after the queued registration. -/
def register (m : Peer) : Peer :=
  { m with
    handlers := m.handlers.registerMainHandlers
    registering := false
    since := m.since.or (some m.next) }

end Peer

structure PeerGroup where
  log : List Agreed
  members : List SpreadGroup
  /-- Everyone who ever joined. -/
  known : List SpreadGroup
  servers : SpreadGroup → Option Peer
  /-- The senders of `StateReq`s that are not ordered yet. -/
  requested : List SpreadGroup
  inFlight : List StateReply

namespace PeerGroup

/-- Nobody has joined. -/
def start : PeerGroup := ⟨[], [], [], fun _ => none, [], []⟩

inductive Action
  | join (g : SpreadGroup)
  | crash (g : SpreadGroup)
  /-- A client's message to the group takes its place in the order. -/
  | request (sender : SpreadGroup) (r : Req)
  | clientFailure (sender : SpreadGroup) (client : Option SpreadGroup)
  /-- The `i`th `StateReq` takes its place in the order. -/
  | order (i : ℕ)
  /-- The `i`th `StateReq` is lost with its sender. -/
  | lose (i : ℕ)
  /-- A server handles the next message of the order. -/
  | deliver (g : SpreadGroup)
  /-- The `i`th `StateRep` reaches its server. -/
  | receive (i : ℕ)
  /-- A server runs the queued registration. -/
  | register (g : SpreadGroup)
  deriving DecidableEq

/-- Server `g` becomes `m`. -/
def setServer (x : PeerGroup) (g : SpreadGroup) (m : Peer) : PeerGroup :=
  { x with servers := Function.update x.servers g (some m) }

/-- A message takes its place in the order. -/
def append (x : PeerGroup) (a : Agreed) : PeerGroup := { x with log := x.log ++ [a] }

/-- The group after a join. -/
def afterJoin (x : PeerGroup) (g : SpreadGroup) : PeerGroup :=
  { (x.append (.view ⟨true, .join g, x.members ++ [g]⟩)).setServer g
      (Peer.start g x.log.length) with
    members := x.members ++ [g]
    known := x.known ++ [g] }

/-- The group after a crash. -/
def afterCrash (x : PeerGroup) (g : SpreadGroup) (m : Peer) : PeerGroup :=
  { (x.append (.view ⟨true, .disconnect g, x.members.erase g⟩)).setServer g
      { m with alive := false } with
    members := x.members.erase g }

/-- The group after server `g` has delivered `a`. -/
def afterDeliver (x : PeerGroup) (g : SpreadGroup) (m : Peer) (a : Agreed) : PeerGroup :=
  { x.setServer g (m.deliver a) with
    requested := x.requested ++ stateReqs g (m.handle a).sent
    inFlight := x.inFlight ++ stateReplies g m.next (m.handle a).sent }

/-- The group after the `i`th `StateRep` has reached its server. -/
def afterReceive (x : PeerGroup) (i : ℕ) (rep : StateReply) (m : Peer) : PeerGroup :=
  { x.setServer rep.dest (m.receive rep) with inFlight := x.inFlight.eraseIdx i }

def step (x : PeerGroup) : Action → Option PeerGroup
  | .join g => if x.servers g = none then some (x.afterJoin g) else none
  | .crash g =>
    match x.servers g with
    | some m => if m.alive then some (x.afterCrash g m) else none
    | none => none
  | .request sender r => some (x.append (.server sender (.req r)))
  | .clientFailure sender client => some (x.append (.server sender (.clientFailure client)))
  | .order i =>
    x.requested[i]?.map fun g =>
      { x.append (.server g .stateReq) with requested := x.requested.eraseIdx i }
  | .lose i =>
    match x.requested[i]? with
    | some g =>
      if ∀ m ∈ x.servers g, m.alive = false then
        some { x with requested := x.requested.eraseIdx i }
      else none
    | none => none
  | .deliver g =>
    match x.servers g with
    | some m => if m.alive then x.log[m.next]?.map (x.afterDeliver g m) else none
    | none => none
  | .receive i =>
    match x.inFlight[i]? with
    | some rep =>
      match x.servers rep.dest with
      | some m => if m.alive then some (x.afterReceive i rep m) else none
      | none => none
    | none => none
  | .register g =>
    match x.servers g with
    | some m => if m.alive ∧ m.registering then some (x.setServer g m.register) else none
    | none => none

def machine : Machine PeerGroup Action := ⟨start, step⟩

/-- The steps, one rule for each. -/
inductive Step (x : PeerGroup) : Action → PeerGroup → Prop
  | join (g : SpreadGroup) (h : x.servers g = none) : Step x (.join g) (x.afterJoin g)
  | crash (g : SpreadGroup) (m : Peer) (h : x.servers g = some m) :
      Step x (.crash g) (x.afterCrash g m)
  | request (sender : SpreadGroup) (r : Req) :
      Step x (.request sender r) (x.append (.server sender (.req r)))
  | clientFailure (sender : SpreadGroup) (client : Option SpreadGroup) :
      Step x (.clientFailure sender client) (x.append (.server sender (.clientFailure client)))
  | order (i : ℕ) (g : SpreadGroup) (h : x.requested[i]? = some g) :
      Step x (.order i) { x.append (.server g .stateReq) with
        requested := x.requested.eraseIdx i }
  | lose (i : ℕ) : Step x (.lose i) { x with requested := x.requested.eraseIdx i }
  | deliver (g : SpreadGroup) (m : Peer) (a : Agreed) (h : x.servers g = some m)
      (ha : x.log[m.next]? = some a) : Step x (.deliver g) (x.afterDeliver g m a)
  | receive (i : ℕ) (rep : StateReply) (m : Peer) (hrep : x.inFlight[i]? = some rep)
      (h : x.servers rep.dest = some m) : Step x (.receive i) (x.afterReceive i rep m)
  | register (g : SpreadGroup) (m : Peer) (h : x.servers g = some m)
      (hreg : m.registering = true) : Step x (.register g) (x.setServer g m.register)

theorem step_cases {x x' : PeerGroup} {a : Action} (h : x.step a = some x') : Step x a x' := by
  cases a with
  | join g =>
    simp only [step] at h
    split_ifs at h with hg
    cases h
    exact .join g hg
  | crash g =>
    simp only [step] at h
    split at h
    · next m hm =>
      split_ifs at h
      cases h
      exact .crash g m hm
    · cases h
  | request sender r =>
    cases h
    exact .request sender r
  | clientFailure sender client =>
    cases h
    exact .clientFailure sender client
  | order i =>
    obtain ⟨g, hg, rfl⟩ := Option.map_eq_some_iff.mp h
    exact .order i g hg
  | lose i =>
    simp only [step] at h
    split at h
    · split_ifs at h
      cases h
      exact .lose i
    · cases h
  | deliver g =>
    simp only [step] at h
    split at h
    · next m hm =>
      split_ifs at h
      obtain ⟨a, ha, rfl⟩ := Option.map_eq_some_iff.mp h
      exact .deliver g m a hm ha
    · cases h
  | receive i =>
    simp only [step] at h
    split at h
    · next rep hrep =>
      split at h
      · next m hm =>
        split_ifs at h
        cases h
        exact .receive i rep m hrep hm
      · cases h
    · cases h
  | register g =>
    simp only [step] at h
    split at h
    · next m hm =>
      split_ifs at h with hreg
      cases h
      exact .register g m hm hreg.2
    · cases h

/-- A server after a step that changes server `g` only. -/
theorem servers_setServer {x : PeerGroup} {g d : SpreadGroup} {m m' : Peer}
    (h : (x.setServer g m).servers d = some m') :
    (d = g ∧ m' = m) ∨ (d ≠ g ∧ x.servers d = some m') := ServerGroup.servers_update h

theorem setServer_self (x : PeerGroup) (g : SpreadGroup) (m : Peer) :
    (x.setServer g m).servers g = some m := Function.update_self ..

theorem setServer_of_ne {x : PeerGroup} {g d : SpreadGroup} {m : Peer} (hne : d ≠ g) (m' : Peer)
    (h : x.servers d = some m) : (x.setServer g m').servers d = some m :=
  ServerGroup.servers_update_of_ne hne h m'

end PeerGroup

/-! ## What a server does -/

/-- The scheduler after a message of the order, at a server with the main handlers. -/
def Agreed.apply (s : SchedulerImp) : Agreed → SchedulerImp
  | .view _ => s
  | .server sender m => (mainHandler SchedulerImp.shiftAllTasksFromClient s sender m).scheduler

namespace Peer

/-- A server handles a message if its main handlers are in place. -/
theorem scheduler_deliver (m : Peer) (a : Agreed) : (m.deliver a).handlers.scheduler =
    if m.handlers.serving then a.apply m.handlers.scheduler else m.handlers.scheduler := by
  cases a with
  | view info =>
    show (m.handlers.onMembershipInfo info).server.scheduler = _
    rw [Agreed.apply, ite_self]
    rcases m.handlers.onMembershipInfo_cases info with ⟨-, -, hr⟩ | ⟨-, hr, -⟩
    · rw [hr]
    · rw [hr]
  | server sender msg =>
    show (m.handlers.onServerMsg SchedulerImp.shiftAllTasksFromClient sender
      msg).server.scheduler = _
    rcases m.handlers.onServerMsg_cases SchedulerImp.shiftAllTasksFromClient sender msg with
      ⟨hserv, hr, -⟩ | ⟨hserv, ⟨r, -, hr⟩, -⟩ | ⟨hserv, -, hr, -⟩
    · rw [hr, if_pos hserv]
      rfl
    · rw [hr, hserv]
      rfl
    · rw [hr, hserv]
      rfl

/-- A server goes on serving, or waiting to. -/
theorem serving_deliver (m : Peer) (a : Agreed) :
    (m.deliver a).handlers.serving = m.handlers.serving := by
  cases a with
  | view info =>
    show (m.handlers.onMembershipInfo info).server.serving = _
    rcases m.handlers.onMembershipInfo_cases info with ⟨-, -, hr⟩ | ⟨-, hr, -⟩
    · rw [hr]
    · rw [hr]
  | server sender msg =>
    exact (m.handlers.onServerMsg_flags SchedulerImp.shiftAllTasksFromClient sender msg).2.2.2

theorem started_deliver {m : Peer} (h : m.started = true) (a : Agreed) :
    (m.deliver a).started = true ∧
      (m.deliver a).record = m.record.push (m.deliver a).handlers.scheduler := by
  refine ⟨?_, if_pos h⟩
  show ((m.registering || (m.handle a).registers) || (m.deliver a).handlers.serving) = true
  rw [serving_deliver]
  rcases (Bool.or_eq_true _ _).mp h with hreg | hserv
  · rw [hreg, Bool.true_or, Bool.true_or]
  · rw [hserv, Bool.or_true]

/-- A `StateRep` is installed by a server without state sender, unless its buffer ends in an
exception, and otherwise ignored. -/
theorem receive_cases {m : Peer} (rep : StateReply) :
    (m.handlers.stateSender = none ∧
        (processBuffer rep.scheduler m.handlers.buffer).escaped = none ∧
        m.receive rep = { m with
          handlers := { m.handlers with
            stateSender := some rep.sender
            scheduler := (processBuffer rep.scheduler m.handlers.buffer).scheduler }
          registering := true
          installed := some rep
          record := Record.start m.next
            (processBuffer rep.scheduler m.handlers.buffer).scheduler }) ∨
      (m.handlers.stateSender = none ∧ m.receive rep = { m with
        handlers := { m.handlers with
          stateSender := some rep.sender
          scheduler := (processBuffer rep.scheduler m.handlers.buffer).scheduler } }) ∨
      (m.handlers.stateSender ≠ none ∧ m.receive rep = m) := by
  rcases m.handlers.onStateRep_cases rep.sender rep.scheduler with ⟨hnone, hr⟩ | ⟨hsome, hr⟩
  · cases hesc : (processBuffer rep.scheduler m.handlers.buffer).escaped with
    | none => exact Or.inl ⟨hnone, rfl, by simp [receive, hr, hesc]⟩
    | some e => exact Or.inr (Or.inl ⟨hnone, by simp [receive, hr, hesc]⟩)
  · exact Or.inr (Or.inr ⟨hsome, by simp [receive, hr]⟩)

end Peer

end ReplicatedScheduler
