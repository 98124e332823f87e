import ReplicatedScheduler.ServerHandlers
import ReplicatedScheduler.Serialization
import ReplicatedScheduler.Lib.Machine
import ReplicatedScheduler.Lib.Replay

/-!
# The group of servers

Servers join the group `servers` and crash. All of them deliver views, requests,
`ClientFailure`s and `StateReq`s in one agreed order, each server from its own join on and at its
own pace. A `StateRep` carries a copy of the sender's scheduler and arrives at any later time.

**One step.** `registerMainHandlers` and the registration that it queues are one step here.
`Executor` has them apart.

The machine `ServerGroup.machine` records, for every server that serves, its scheduler at each
position of the agreed order, and the server whose state it installed. No handler reads the
record. A private group is never used for a second server.
-/

namespace ReplicatedScheduler

open JavaLib Lib Lts

/-- A message of the agreed order. -/
inductive Agreed
  | view (info : MembershipInfo)
  | server (sender : SpreadGroup) (m : ServerMsg)
  deriving DecidableEq

/-- A message as it is delivered. The handler of views does not look at their sender. -/
def Agreed.delivery : Agreed → SpreadGroup × Msg
  | .view info => (str "servers", .membership info)
  | .server sender m => (sender, .server m)

/-- A server of the group. The fields `donor` and `past` record the run. -/
structure Member where
  handlers : ServerHandlers
  /-- The position of the view that its own join caused. -/
  joined : ℕ
  /-- The position of the next message that it delivers. -/
  next : ℕ
  alive : Bool
  /-- The server whose state it installed. -/
  donor : Option SpreadGroup
  /-- Its scheduler before each position, from its installation or start on. -/
  past : List (ℕ × SchedulerImp)
  deriving DecidableEq

/-- A `StateRep` in flight, with the position of the `StateReq` that it answers. -/
structure StateReply where
  dest : SpreadGroup
  sender : SpreadGroup
  scheduler : SchedulerImp
  position : ℕ
  deriving DecidableEq

structure ServerGroup where
  log : List Agreed
  members : List SpreadGroup
  servers : SpreadGroup → Option Member
  /-- The senders of `StateReq`s that are not ordered yet. -/
  requested : List SpreadGroup
  inFlight : List StateReply

/-- Run the handler of a message, and the registration if it is called for. -/
def ServerHandlers.handleRegister (s : ServerHandlers) (sender : SpreadGroup) (msg : Msg) :
    ServerHandlers :=
  let r := s.handle SchedulerImp.shiftTasksFromClient sender msg
  if r.registers then r.server.registerMainHandlers else r.server

/-- The member after it has delivered a message of the agreed order. -/
def Member.deliver (m : Member) (a : Agreed) : Member :=
  let handlers := m.handlers.handleRegister a.delivery.1 a.delivery.2
  { m with
    handlers := handlers
    next := m.next + 1
    past := if handlers.serving then m.past ++ [(m.next + 1, handlers.scheduler)] else m.past }

/-- The messages that the member sends when it delivers a message. -/
def Member.sends (m : Member) (a : Agreed) : List Output :=
  (m.handlers.handle SchedulerImp.shiftTasksFromClient a.delivery.1 a.delivery.2).sent

/-- The member after it has received a `StateRep`. -/
def Member.receive (m : Member) (rep : StateReply) : Member :=
  let r := m.handlers.onStateRep rep.sender rep.scheduler
  let handlers := m.handlers.handleRegister rep.sender (.stateRep rep.scheduler)
  { m with
    handlers := handlers
    donor := if r.registers then some rep.sender else m.donor
    past := if r.registers then [(m.next, handlers.scheduler)] else m.past }

/-! ## What a member does -/

namespace Member

/-- A view starts a server that is alone and has no state, and otherwise changes nothing. -/
theorem deliver_view (m : Member) (info : MembershipInfo) :
    ((Msg.membership info).Alone ∧ m.handlers.stateSender = none ∧
        (m.deliver (.view info)).handlers =
          { m.handlers with stateSender := info.getJoined, serving := true } ∧
        m.sends (.view info) = []) ∨
      (¬ ((Msg.membership info).Alone ∧ m.handlers.stateSender = none) ∧
        (m.deliver (.view info)).handlers = m.handlers ∧
        (m.sends (.view info) = [] ∨ m.sends (.view info) = [.stateReq])) := by
  rcases m.handlers.onMembershipInfo_cases info with ⟨halone, hnone, hr⟩ |
    ⟨hnot, hs, hreg, -, hsent⟩
  · refine Or.inl ⟨halone, hnone, ?_, ?_⟩
    · simp [deliver, ServerHandlers.handleRegister, Agreed.delivery, ServerHandlers.handle, hr,
        ServerHandlers.registerMainHandlers]
    · simp [sends, Agreed.delivery, ServerHandlers.handle, hr]
  · refine Or.inr ⟨hnot, ?_, hsent⟩
    simp [deliver, ServerHandlers.handleRegister, Agreed.delivery, ServerHandlers.handle, hreg, hs]

/-- A server that serves runs the main handler. -/
theorem deliver_serving {m : Member} (h : m.handlers.serving = true) (sender : SpreadGroup)
    (msg : ServerMsg) :
    (m.deliver (.server sender msg)).handlers = { m.handlers with
        scheduler :=
          (mainHandler SchedulerImp.shiftTasksFromClient m.handlers.scheduler sender msg).scheduler } ∧
      m.sends (.server sender msg) =
        (mainHandler SchedulerImp.shiftTasksFromClient m.handlers.scheduler sender msg).sent := by
  simp [deliver, sends, ServerHandlers.handleRegister, Agreed.delivery, ServerHandlers.handle,
    ServerHandlers.onServerMsg, h]

/-- A server that waits for the state buffers requests and drops the rest. -/
theorem deliver_waiting {m : Member} (h : m.handlers.serving = false) (sender : SpreadGroup)
    (msg : ServerMsg) :
    (m.deliver (.server sender msg)).handlers = { m.handlers with
        buffer := match msg with
          | .req r => m.handlers.buffer ++ [⟨sender, r⟩]
          | _ => m.handlers.buffer } ∧
      m.sends (.server sender msg) = [] := by
  have hsame : m.handlers = { m.handlers with serving := false } := by rw [← h]
  cases msg <;>
    simp [deliver, sends, ServerHandlers.handleRegister, Agreed.delivery, ServerHandlers.handle,
      ServerHandlers.onServerMsg, h, ← hsame]

/-- A server goes on serving. -/
theorem serving_deliver {m : Member} (h : m.handlers.serving = true) (a : Agreed) :
    (m.deliver a).handlers.serving = true := by
  cases a with
  | view info =>
    rcases m.deliver_view info with ⟨-, -, hd, -⟩ | ⟨-, hd, -⟩ <;> rw [hd]
    exact h
  | server sender msg =>
    rw [(deliver_serving h sender msg).1]
    exact h

theorem waiting_of_deliver {m : Member} {a : Agreed} (h : (m.deliver a).handlers.serving = false) :
    m.handlers.serving = false := by
  by_contra hne
  rw [Bool.not_eq_false] at hne
  rw [serving_deliver hne a] at h
  cases h

/-- A `StateRep` is installed by a server without state sender, and otherwise ignored. -/
theorem receive_cases (m : Member) (rep : StateReply) :
    (m.handlers.stateSender = none ∧
        (processBuffer rep.scheduler m.handlers.buffer).escaped = none ∧
        m.receive rep = { m with
          handlers := { m.handlers with
            stateSender := some rep.sender
            scheduler := (processBuffer rep.scheduler m.handlers.buffer).scheduler
            serving := true }
          donor := some rep.sender
          past := [(m.next, (processBuffer rep.scheduler m.handlers.buffer).scheduler)] }) ∨
      (m.handlers.stateSender = none ∧
        (processBuffer rep.scheduler m.handlers.buffer).escaped ≠ none ∧
        m.receive rep = { m with handlers := { m.handlers with
          stateSender := some rep.sender
          scheduler := (processBuffer rep.scheduler m.handlers.buffer).scheduler } }) ∨
      (m.handlers.stateSender ≠ none ∧ m.receive rep = m) := by
  rcases m.handlers.onStateRep_cases rep.sender rep.scheduler with ⟨hnone, hr⟩ | ⟨hsome, hr⟩
  · by_cases hesc : (processBuffer rep.scheduler m.handlers.buffer).escaped = none
    · refine Or.inl ⟨hnone, hesc, ?_⟩
      simp [receive, ServerHandlers.handleRegister, ServerHandlers.handle, hr, hesc,
        ServerHandlers.registerMainHandlers]
    · refine Or.inr (Or.inl ⟨hnone, hesc, ?_⟩)
      have hfalse : (processBuffer rep.scheduler m.handlers.buffer).escaped.isNone = false := by
        cases h : (processBuffer rep.scheduler m.handlers.buffer).escaped with
        | none => exact absurd h hesc
        | some e => rfl
      simp [receive, ServerHandlers.handleRegister, ServerHandlers.handle, hr, hfalse]
  · refine Or.inr (Or.inr ⟨hsome, ?_⟩)
    simp [receive, ServerHandlers.handleRegister, ServerHandlers.handle, hr]

end Member

/-- The `StateReq`s among the messages that `g` sends. -/
def stateReqs (g : SpreadGroup) (sent : List Output) : List SpreadGroup :=
  sent.filterMap fun
    | .stateReq => some g
    | _ => none

/-- The `StateRep`s among the messages that `g` sends. -/
def stateReplies (g : SpreadGroup) (position : ℕ) (sent : List Output) : List StateReply :=
  sent.filterMap fun
    | .stateRep dest s => some ⟨dest, g, s.copy, position⟩
    | _ => none

/-- The only `StateRep` that a server sends answers a `StateReq` and carries a copy. -/
theorem mem_stateReplies {shift : Shift} {s : ServerHandlers} {a : Agreed} {g : SpreadGroup} {p : ℕ}
    {rep : StateReply}
    (h : rep ∈ stateReplies g p (s.handle shift a.delivery.1 a.delivery.2).sent) :
    s.serving = true ∧ a = .server rep.dest .stateReq ∧
      rep = ⟨rep.dest, g, s.scheduler.copy, p⟩ := by
  cases a with
  | view info =>
    replace h : rep ∈ stateReplies g p (s.onMembershipInfo info).sent := h
    rcases s.onMembershipInfo_cases info with ⟨-, -, hr⟩ | ⟨-, -, -, -, hs | hs⟩
    · simp [stateReplies, hr] at h
    · simp [stateReplies, hs] at h
    · simp [stateReplies, hs] at h
  | server sender msg =>
    replace h : rep ∈ stateReplies g p (s.onServerMsg shift sender msg).sent := h
    rcases s.onServerMsg_cases shift sender msg with ⟨hserv, -, hs⟩ | ⟨-, -, hs⟩ | ⟨-, -, -, hs⟩
    · rw [hs] at h
      cases msg with
      | req r =>
        rcases onReq_cases s.scheduler sender r with ⟨-, ⟨rep', -, hsent⟩, -⟩ | ⟨-, hsent, -⟩
        · simp [mainHandler, stateReplies, hsent] at h
        · simp [mainHandler, stateReplies, hsent] at h
      | clientFailure client => simp [mainHandler, stateReplies] at h
      | stateReq =>
        obtain rfl : rep = ⟨sender, g, s.scheduler.copy, p⟩ := by
          simpa [mainHandler, stateReplies] using h
        exact ⟨hserv, rfl, rfl⟩
    · simp [stateReplies, hs] at h
    · simp [stateReplies, hs] at h

namespace ServerGroup

/-- Nobody has joined. -/
def start : ServerGroup := ⟨[], [], fun _ => none, [], []⟩

inductive Action
  | join (g : SpreadGroup)
  | crash (g : SpreadGroup)
  /-- A client's message to the group takes its place in the order. -/
  | request (sender : SpreadGroup) (r : Req)
  | clientFailure (sender : SpreadGroup) (client : Option SpreadGroup)
  /-- The `i`th `StateReq` takes its place in the order. -/
  | order (i : ℕ)
  /-- The `i`th `StateReq` is lost with its sender. -/
  | lose (i : ℕ)
  /-- A server handles the next message of the order. -/
  | deliver (g : SpreadGroup)
  /-- The `i`th `StateRep` reaches its server. -/
  | receive (i : ℕ)
  deriving DecidableEq

/-- A server that has not crashed. -/
def Alive (x : ServerGroup) (g : SpreadGroup) (m : Member) : Prop :=
  x.servers g = some m ∧ m.alive = true

instance (x : ServerGroup) (g : SpreadGroup) (m : Member) : Decidable (x.Alive g m) :=
  inferInstanceAs (Decidable (_ ∧ _))

/-- The group after a join. -/
def afterJoin (x : ServerGroup) (g : SpreadGroup) : ServerGroup :=
  { x with
    log := x.log ++ [.view ⟨true, .join g, x.members ++ [g]⟩]
    members := x.members ++ [g]
    servers := Function.update x.servers g
      (some ⟨ServerHandlers.start g, x.log.length, x.log.length, true, none, []⟩) }

/-- The group after a crash. -/
def afterCrash (x : ServerGroup) (g : SpreadGroup) (m : Member) : ServerGroup :=
  { x with
    log := x.log ++ [.view ⟨true, .disconnect g, x.members.erase g⟩]
    members := x.members.erase g
    servers := Function.update x.servers g (some { m with alive := false }) }

/-- The group after server `g` has delivered `a`. -/
def afterDeliver (x : ServerGroup) (g : SpreadGroup) (m : Member) (a : Agreed) : ServerGroup :=
  { x with
    servers := Function.update x.servers g (some (m.deliver a))
    requested := x.requested ++ stateReqs g (m.sends a)
    inFlight := x.inFlight ++ stateReplies g m.next (m.sends a) }

/-- The group after the `i`th `StateRep` has reached its server. -/
def afterReceive (x : ServerGroup) (i : ℕ) (rep : StateReply) (m : Member) : ServerGroup :=
  { x with
    inFlight := x.inFlight.eraseIdx i
    servers := Function.update x.servers rep.dest (some (m.receive rep)) }

def step (x : ServerGroup) : Action → Option ServerGroup
  | .join g => if x.servers g = none then some (x.afterJoin g) else none
  | .crash g =>
    match x.servers g with
    | some m => if m.alive then some (x.afterCrash g m) else none
    | none => none
  | .request sender r => some { x with log := x.log ++ [.server sender (.req r)] }
  | .clientFailure sender client =>
    some { x with log := x.log ++ [.server sender (.clientFailure client)] }
  | .order i =>
    x.requested[i]?.map fun g =>
      { x with log := x.log ++ [.server g .stateReq], requested := x.requested.eraseIdx i }
  | .lose i =>
    match x.requested[i]? with
    | some g =>
      if ∀ m ∈ x.servers g, m.alive = false then
        some { x with requested := x.requested.eraseIdx i }
      else none
    | none => none
  | .deliver g =>
    match x.servers g with
    | some m => if m.alive then x.log[m.next]?.map (x.afterDeliver g m) else none
    | none => none
  | .receive i =>
    match x.inFlight[i]? with
    | some rep =>
      match x.servers rep.dest with
      | some m => if m.alive then some (x.afterReceive i rep m) else none
      | none => none
    | none => none

def machine : Machine ServerGroup Action := ⟨start, step⟩

/-- The steps, one rule for each. -/
inductive Step (x : ServerGroup) : Action → ServerGroup → Prop
  | join (g : SpreadGroup) (h : x.servers g = none) : Step x (.join g) (x.afterJoin g)
  | crash (g : SpreadGroup) (m : Member) (h : x.Alive g m) : Step x (.crash g) (x.afterCrash g m)
  | request (sender : SpreadGroup) (r : Req) :
      Step x (.request sender r) { x with log := x.log ++ [.server sender (.req r)] }
  | clientFailure (sender : SpreadGroup) (client : Option SpreadGroup) :
      Step x (.clientFailure sender client)
        { x with log := x.log ++ [.server sender (.clientFailure client)] }
  | order (i : ℕ) (g : SpreadGroup) (h : x.requested[i]? = some g) :
      Step x (.order i)
        { x with log := x.log ++ [.server g .stateReq], requested := x.requested.eraseIdx i }
  | lose (i : ℕ) (g : SpreadGroup) (h : x.requested[i]? = some g)
      (hdead : ∀ m, x.servers g = some m → m.alive = false) :
      Step x (.lose i) { x with requested := x.requested.eraseIdx i }
  | deliver (g : SpreadGroup) (m : Member) (a : Agreed) (h : x.Alive g m)
      (ha : x.log[m.next]? = some a) : Step x (.deliver g) (x.afterDeliver g m a)
  | receive (i : ℕ) (rep : StateReply) (m : Member) (hrep : x.inFlight[i]? = some rep)
      (h : x.Alive rep.dest m) : Step x (.receive i) (x.afterReceive i rep m)

theorem step_cases {x x' : ServerGroup} {a : Action} (h : x.step a = some x') : Step x a x' := by
  cases a with
  | join g =>
    simp only [step] at h
    split_ifs at h with hg
    cases h
    exact .join g hg
  | crash g =>
    simp only [step] at h
    split at h
    · next m hm =>
      split_ifs at h with halive
      cases h
      exact .crash g m ⟨hm, halive⟩
    · cases h
  | request sender r =>
    cases h
    exact .request sender r
  | clientFailure sender client =>
    cases h
    exact .clientFailure sender client
  | order i =>
    obtain ⟨g, hg, rfl⟩ := Option.map_eq_some_iff.mp h
    exact .order i g hg
  | lose i =>
    simp only [step] at h
    split at h
    · next g hg =>
      split_ifs at h with hdead
      cases h
      exact .lose i g hg hdead
    · cases h
  | deliver g =>
    simp only [step] at h
    split at h
    · next m hm =>
      split_ifs at h with halive
      obtain ⟨a, ha, rfl⟩ := Option.map_eq_some_iff.mp h
      exact .deliver g m a ⟨hm, halive⟩ ha
    · cases h
  | receive i =>
    simp only [step] at h
    split at h
    · next rep hrep =>
      split at h
      · next m hm =>
        split_ifs at h with halive
        cases h
        exact .receive i rep m hrep ⟨hm, halive⟩
      · cases h
    · cases h

/-! ## Looking up a server -/

theorem servers_update_of_ne {σ : Type*} {f : SpreadGroup → Option σ} {g d : SpreadGroup} {m : σ}
    (hne : d ≠ g) (h : f d = some m) (m' : σ) : Function.update f g (some m') d = some m := by
  rw [Function.update_of_ne hne, h]

/-- A join changes no server that was there. -/
theorem servers_afterJoin {x : ServerGroup} {g d : SpreadGroup} {m : Member}
    (hg : x.servers g = none) (hm : x.servers d = some m) :
    (x.afterJoin g).servers d = some m := by
  refine servers_update_of_ne ?_ hm _
  rintro rfl
  rw [hg] at hm
  cases hm

/-- A server after a step that changes server `g` only. -/
theorem servers_update {σ : Type*} {f : SpreadGroup → Option σ} {g h : SpreadGroup} {m m' : σ}
    (hm : Function.update f g (some m) h = some m') :
    (h = g ∧ m' = m) ∨ (h ≠ g ∧ f h = some m') := by
  by_cases hgh : h = g
  · subst hgh
    rw [Function.update_self] at hm
    exact Or.inl ⟨rfl, (Option.some.inj hm).symm⟩
  · rw [Function.update_of_ne hgh] at hm
    exact Or.inr ⟨hgh, hm⟩

end ServerGroup

end ReplicatedScheduler
