import ReplicatedScheduler.ClientRestart
import ReplicatedScheduler.Lib.Replay

/-!
# The replicated service and one local scheduler

Servers that start in the same state, none of which joins later, deliver one agreed sequence of
requests and `ClientFailure`s, each server at its own pace, and may stop at any time. Their
replies reach the clients in any order and at any time.

**Theorem (`service_refines_local`).** In a run in which no client's counter turns over, every
completed call has its request at one position of the agreed sequence, and it returned or threw
what the call does on a single `SchedulerImp` at that position: `localCall`, which makes the call
on the object itself and records a task handed out as the caller's. The two throw exceptions of
the same class; their texts differ, since `RemoteScheduler` has its own.

The proof has three parts. A server's state is the replay of a prefix (`Lib.replay`). A reply in
flight, taken up or accepted was computed by the handler at the position of its request. And a
client accepts replies to its own request only, by the numbering of `Session.Numbered`.
-/

namespace ReplicatedScheduler

open JavaLib Lib Lts

/-! ## One local scheduler -/

/-- A call made on the object itself, as the handlers make it for a client. -/
def SchedulerImp.localCall (s : SchedulerImp) (caller : SpreadGroup) :
    Call → SchedulerImp × Outcome
  | .newTask url =>
    match s.newTask url with
    | .ok s' => (s', .returns)
    | .error e => (s, .throws e)
  | .getTask =>
    match s.getTask with
    | .ok (task, s') => (s'.processTask caller task, .returnsTask (some task))
    | .error e => (s, .throws e)
  | .endTask t =>
    match s.endTask t with
    | .ok s' => (s', .returns)
    | .error e => (s, .throws e)

/-- The same return value, or exceptions of the same class. -/
def Outcome.Same : Outcome → Outcome → Prop
  | .returns, .returns => True
  | .returnsTask t, .returnsTask t' => t = t'
  | .throws e, .throws e' => e.cls = e'.cls
  | _, _ => False

/-- The call that a request was made by. -/
def Req.call : Req → Call
  | .newTaskReq _ url => .newTask url
  | .getTaskReq _ => .getTask
  | .endTaskReq _ t => .endTask t

@[simp] theorem Call.request_call (call : Call) (id : JavaInt) : (call.request id).call = call := by
  cases call <;> rfl

/-- A handler changes the scheduler as the call itself does. -/
theorem onReq_scheduler (s : SchedulerImp) (sender : SpreadGroup) (r : Req) :
    (onReq s sender r).scheduler = (s.localCall sender r.call).1 := by
  cases r with
  | newTaskReq id url =>
    simp only [onReq, onNewTaskReq, Req.call, SchedulerImp.localCall]
    cases s.newTask url with
    | ok s' => rfl
    | error e => dsimp only; split_ifs <;> rfl
  | getTaskReq id =>
    simp only [onReq, onGetTaskReq, Req.call, SchedulerImp.localCall]
    cases s.getTask with
    | ok p => rfl
    | error e => dsimp only; split_ifs <;> rfl
  | endTaskReq id t => cases t <;> rfl

/-- A reply tells the caller what the call itself does, and is of the right class. -/
theorem outcome_onReq {s : SchedulerImp} {sender dest : SpreadGroup} {r : Req} {rep : Rep}
    (h : (onReq s sender r).sent = [.reply dest rep]) :
    rep.RepliesTo r ∧ (r.call.outcome rep).Same (s.localCall sender r.call).2 := by
  cases r with
  | newTaskReq id url =>
    simp only [onReq, onNewTaskReq] at h
    simp only [Req.call, SchedulerImp.localCall]
    cases hs : s.newTask url with
    | ok s' =>
      rw [hs] at h
      cases h
      exact ⟨rfl, trivial⟩
    | error e =>
      simp only [hs] at h
      split_ifs at h with he
      cases h
      exact ⟨rfl, he.symm⟩
  | getTaskReq id =>
    simp only [onReq, onGetTaskReq] at h
    simp only [Req.call, SchedulerImp.localCall]
    cases hs : s.getTask with
    | ok p =>
      rw [hs] at h
      cases h
      exact ⟨rfl, rfl⟩
    | error e =>
      simp only [hs] at h
      split_ifs at h with he
      cases h
      exact ⟨rfl, he.symm⟩
  | endTaskReq id t =>
    cases t <;> cases h <;> exact ⟨rfl, trivial⟩

/-! ## The service -/

/-- A message of the agreed sequence. A request has the number that it has among its sender's. -/
inductive Broadcast
  | request (sender : SpreadGroup) (number : ℕ) (r : Req)
  | clientFailure (sender : SpreadGroup) (client : Option SpreadGroup)
  deriving DecidableEq

/-- The handler of a message of the agreed sequence. -/
def Broadcast.handle (s : SchedulerImp) : Broadcast → Handled
  | .request sender _ r => mainHandler SchedulerImp.shiftTasksFromClient s sender (.req r)
  | .clientFailure sender client =>
    mainHandler SchedulerImp.shiftTasksFromClient s sender (.clientFailure client)

/-- The scheduler after a message. -/
def Broadcast.apply (s : SchedulerImp) (b : Broadcast) : SchedulerImp := (b.handle s).scheduler

/-- The same message on one local object: the call itself, or the shift of the tasks. -/
def Broadcast.applyLocal (s : SchedulerImp) : Broadcast → SchedulerImp
  | .request sender _ r => (s.localCall sender r.call).1
  | .clientFailure _ client => (s.shiftTasksFromClient client).1

/-- A server's scheduler changes as one local scheduler does. -/
theorem Broadcast.apply_eq_local (s : SchedulerImp) (b : Broadcast) :
    b.apply s = b.applyLocal s := by
  cases b with
  | request sender number r => exact onReq_scheduler s sender r
  | clientFailure => rfl

/-- The replies that a message is answered with, each with the number of its request. -/
def Broadcast.answers (s : SchedulerImp) : Broadcast → List (SpreadGroup × Answer)
  | .request sender number r =>
    (replies (onReq s sender r).sent).map fun reply => (reply.1, ⟨reply.2, number⟩)
  | .clientFailure _ _ => []

/-- A server: the number of messages that it has delivered, and its scheduler. -/
structure Replica where
  delivered : ℕ
  scheduler : SchedulerImp
  running : Bool
  deriving DecidableEq

structure Service where
  /-- The agreed sequence. -/
  log : List Broadcast
  /-- Messages sent that are not ordered yet. -/
  pending : List Broadcast
  servers : List Replica
  clients : SpreadGroup → Session
  /-- Replies that have not reached their client. -/
  inFlight : List (SpreadGroup × Answer)

namespace Service

/-- `n` servers in the state `s`, and no client has made a call. -/
def start (s : SchedulerImp) (n : ℕ) : Service :=
  ⟨[], [], List.replicate n ⟨0, s, true⟩, fun _ => Session.start, []⟩

inductive Action
  /-- A step of a client's process; comparing a reply receives it. -/
  | client (c : SpreadGroup) (a : RemoteScheduler.Action)
  /-- A client reports that `c` has left. -/
  | failure (sender : SpreadGroup) (c : Option SpreadGroup)
  /-- The `i`th pending message takes its place in the sequence. -/
  | order (i : ℕ)
  /-- Server `j` handles the next message of the sequence. -/
  | deliver (j : ℕ)
  | stop (j : ℕ)
  deriving DecidableEq

/-- A client can only receive a reply that is in flight to it. -/
def Receives (x : Service) (c : SpreadGroup) : RemoteScheduler.Action → Prop
  | .compare a => (c, a) ∈ x.inFlight
  | _ => True

instance (x : Service) (c : SpreadGroup) : ∀ a, Decidable (x.Receives c a)
  | .compare a => inferInstanceAs (Decidable ((c, a) ∈ x.inFlight))
  | .setCf _ | .increment | .broadcast | .get | .complete | .handlerIncrement => instDecidableTrue

/-- The replies in flight after a step of client `c`. -/
def received (x : Service) (c : SpreadGroup) : RemoteScheduler.Action → List (SpreadGroup × Answer)
  | .compare a => x.inFlight.erase (c, a)
  | _ => x.inFlight

/-- The service after a step of client `c`. -/
def afterClient (x : Service) (c : SpreadGroup) (a : RemoteScheduler.Action)
    (remote : RemoteScheduler) : Service :=
  { x with
    clients := Function.update x.clients c ((x.clients c).after a remote)
    pending := x.pending ++ ((x.clients c).remote.sends a).map (.request c (x.clients c).sent.length)
    inFlight := x.received c a }

/-- The service after server `j`, which is `v`, has handled `b`. -/
def afterDelivery (x : Service) (j : ℕ) (v : Replica) (b : Broadcast) : Service :=
  { x with
    servers := x.servers.set j { v with delivered := v.delivered + 1, scheduler := b.apply v.scheduler }
    inFlight := x.inFlight ++ b.answers v.scheduler }

def step (x : Service) : Action → Option Service
  | .client c a =>
    if x.Receives c a then ((x.clients c).remote.step a).map (x.afterClient c a) else none
  | .failure sender c => some { x with pending := x.pending ++ [.clientFailure sender c] }
  | .order i =>
    x.pending[i]?.map fun b => { x with log := x.log ++ [b], pending := x.pending.eraseIdx i }
  | .deliver j =>
    match x.servers[j]? with
    | some v =>
      if v.running then (x.log[v.delivered]?).map (x.afterDelivery j v) else none
    | none => none
  | .stop j =>
    (x.servers[j]?).map fun v => { x with servers := x.servers.set j { v with running := false } }

def machine (s : SchedulerImp) (n : ℕ) : Machine Service Action := ⟨start s n, step⟩

/-- No client's counter turns over. -/
def NoTurnover (x : Service) : Action → Prop
  | .client c .increment | .client c .handlerIncrement =>
    (x.clients c).remote.reqId.toNat + 1 < 2 ^ 32
  | _ => True

instance (x : Service) (a : Action) : Decidable (x.NoTurnover a) := by
  unfold NoTurnover
  split <;> infer_instance

/-! ## The answers a client holds -/

end Service

/-- Every reply that a session has taken up, completed `cf` with or accepted has `P`. -/
structure Session.Holds (P : Answer → Prop) (t : Session) : Prop where
  handler : ∀ a, t.remote.handler = .matched a ∨ t.remote.handler = .completed a → P a
  cf : ∀ a, t.remote.cf = some (some a) → P a
  completed : ∀ c ∈ t.completed, P c.answer

theorem Session.Holds.mono {P Q : Answer → Prop} {t : Session} (h : t.Holds P)
    (hPQ : ∀ a, P a → Q a) : t.Holds Q where
  handler := fun a ha => hPQ a (h.handler a ha)
  cf := fun a ha => hPQ a (h.cf a ha)
  completed := fun c hc => hPQ _ (h.completed c hc)

/-- A step keeps what is true of the replies held and of the one received. -/
theorem Session.Holds.act {P : Answer → Prop} {t : Session} (h : t.Holds P)
    {a : RemoteScheduler.Action} {remote : RemoteScheduler}
    (hstep : RemoteScheduler.Step t.remote a remote) (hP : ∀ b, a = .compare b → P b) :
    (t.after a remote).Holds P := by
  obtain ⟨hhandler, hcf, hcompleted⟩ := h
  cases hstep with
  | setCf call hc =>
    constructor <;> simp only [after, RemoteScheduler.returns, List.map_nil, List.append_nil]
    · exact hhandler
    · simp
    · exact hcompleted
  | increment | broadcast | passOver =>
    constructor <;> simp only [after, RemoteScheduler.returns, List.map_nil, List.append_nil]
    · exact hhandler
    · exact hcf
    · exact hcompleted
  | get call id b hc hb =>
    constructor <;>
      simp only [after, RemoteScheduler.returns, hc, hb, List.map_cons, List.map_nil,
        List.forall_mem_append, List.forall_mem_singleton]
    · exact hhandler
    · rw [← hb]
      exact hcf
    · exact ⟨hcompleted, hcf b hb⟩
  | takeUp b hh ht =>
    constructor <;> simp only [after, RemoteScheduler.returns, List.map_nil, List.append_nil]
    · rintro b' (hb' | hb') <;> cases hb'
      exact hP b rfl
    · exact hcf
    · exact hcompleted
  | complete b hh =>
    constructor <;> simp only [after, RemoteScheduler.returns, List.map_nil, List.append_nil]
    · rintro b' (hb' | hb') <;> cases hb'
      exact hhandler b (Or.inl hh)
    · intro b' hb'
      obtain ⟨r, hr, hrb⟩ := Option.map_eq_some_iff.mp hb'
      cases r with
      | none =>
        obtain rfl : b = b' := Option.some.inj hrb
        exact hhandler b (Or.inl hh)
      | some r =>
        obtain rfl : r = b' := Option.some.inj hrb
        exact hcf r hr
    · exact hcompleted
  | handlerIncrement b hh =>
    constructor <;> simp only [after, RemoteScheduler.returns, List.map_nil, List.append_nil]
    · simp
    · exact hcf
    · exact hcompleted

/-! ## The invariant -/

/-- The sender and the number of a request. -/
def Broadcast.key : Broadcast → Option (SpreadGroup × ℕ)
  | .request sender number _ => some (sender, number)
  | .clientFailure _ _ => none

/-- A step broadcasts one request at most. -/
theorem RemoteScheduler.sends_cases (c : RemoteScheduler) (a : RemoteScheduler.Action) :
    c.sends a = [] ∨ ∃ r, c.sends a = [r] := by
  unfold sends
  split
  · exact Or.inr ⟨_, rfl⟩
  · exact Or.inl rfl

theorem Session.step_of_delivers {t : Session} {a : RemoteScheduler.Action}
    {remote : RemoteScheduler} (hd : t.Delivers a) (hstep : t.remote.step a = some remote) :
    t.step (.act a) = some (t.after a remote) := by
  simp only [Session.step, if_pos hd, hstep, Option.map_some]

namespace Service

/-- One local scheduler, after the first `p` messages of the agreed sequence. -/
def localAt (x : Service) (s : SchedulerImp) (p : ℕ) : SchedulerImp :=
  replay Broadcast.applyLocal s x.log p

/-- The reply is what the handler sends at the position of its request. -/
def Answered (x : Service) (s : SchedulerImp) (c : SpreadGroup) (a : Answer) : Prop :=
  ∃ p r, x.log[p]? = some (.request c a.origin r) ∧
    (onReq (x.localAt s p) c r).sent = [.reply c a.rep]

/-- Servers are at prefixes of the sequence, and every reply was computed at its request. -/
structure Refines (s : SchedulerImp) (x : Service) : Prop where
  servers : ∀ v ∈ x.servers, v.delivered ≤ x.log.length ∧ v.scheduler = x.localAt s v.delivered
  inFlight : ∀ m ∈ x.inFlight, x.Answered s m.1 m.2
  clients : ∀ c, (x.clients c).Holds (x.Answered s c)
  requests : ∀ c n r, .request c n r ∈ x.log ++ x.pending → (x.clients c).sent[n]? = some r
  once : ((x.log ++ x.pending).filterMap Broadcast.key).Nodup
  sessions : ∀ c, Session.machine.Reachable Session.NoLeftover (x.clients c)
  first : ∀ c, (x.clients c).earlier = 0

theorem refines_start (s : SchedulerImp) (n : ℕ) : Refines s (start s n) where
  servers := by simp [start, localAt]
  inFlight := by simp [start]
  clients := fun _ => ⟨by simp [start, Session.start, RemoteScheduler.start],
    by simp [start, Session.start, RemoteScheduler.start], by simp [start, Session.start]⟩
  requests := by simp [start]
  once := by simp [start]
  sessions := fun _ => .init
  first := fun _ => rfl

/-- A longer sequence leaves the answers as they are. -/
theorem Answered.append {x x' : Service} {s : SchedulerImp} {c : SpreadGroup} {a : Answer}
    (h : x.Answered s c a) {more : List Broadcast} (hlog : x'.log = x.log ++ more) :
    x'.Answered s c a := by
  obtain ⟨p, r, hp, hsent⟩ := h
  refine ⟨p, r, by rw [hlog]; exact getElem?_of_append hp more, ?_⟩
  rw [localAt, hlog, replay_append _ _ (Nat.le_of_lt (List.getElem?_eq_some_iff.mp hp).1)]
  exact hsent

/-- A reply in flight is for a request that its receiver has sent, and of the right class. -/
theorem Refines.delivers {s : SchedulerImp} {x : Service} (h : Refines s x) {c : SpreadGroup}
    {a : RemoteScheduler.Action} (hr : x.Receives c a) : (x.clients c).Delivers a := by
  cases a with
  | compare a =>
    obtain ⟨p, r, hp, hsent⟩ := h.inFlight _ hr
    exact ⟨r, h.requests c a.origin r (List.mem_append_left _ (List.mem_of_getElem? hp)),
      (outcome_onReq hsent).1⟩
  | setCf | increment | broadcast | get | complete | handlerIncrement => trivial

/-- Without restarts there are no replies to earlier processes. -/
theorem Refines.noLeftover {s : SchedulerImp} {x : Service} (h : Refines s x) {c : SpreadGroup}
    {a : RemoteScheduler.Action} (hok : x.NoTurnover (.client c a)) :
    (x.clients c).NoLeftover (.act a) := by
  cases a with
  | compare a => exact fun _ => by rw [h.first c]; exact Nat.zero_le _
  | increment | handlerIncrement => exact hok
  | setCf | broadcast | get | complete => trivial

theorem key_fresh {s : SchedulerImp} {x : Service} (h : Refines s x) (c : SpreadGroup) :
    (c, (x.clients c).sent.length) ∉ (x.log ++ x.pending).filterMap Broadcast.key := by
  intro hmem
  obtain ⟨b, hb, hkey⟩ := List.mem_filterMap.mp hmem
  cases b with
  | request c' n r =>
    cases hkey
    have hlt := (List.getElem?_eq_some_iff.mp (h.requests _ _ _ hb)).1
    exact Nat.lt_irrefl _ hlt
  | clientFailure => cases hkey

/-! ## One step -/

/-- Only the client that takes a step changes. -/
theorem clients_afterClient {x : Service} {c : SpreadGroup} {a : RemoteScheduler.Action}
    {remote : RemoteScheduler} {P : SpreadGroup → Session → Prop}
    (hself : P c ((x.clients c).after a remote)) (hrest : ∀ d, P d (x.clients d))
    (d : SpreadGroup) : P d ((x.afterClient c a remote).clients d) := by
  show P d (Function.update x.clients c ((x.clients c).after a remote) d)
  by_cases hdc : d = c
  · subst hdc
    rw [Function.update_self]
    exact hself
  · rw [Function.update_of_ne hdc]
    exact hrest d

theorem Refines.afterClient {s : SchedulerImp} {x : Service} (h : Refines s x) {c : SpreadGroup}
    {a : RemoteScheduler.Action} {remote : RemoteScheduler} (hr : x.Receives c a)
    (hstep : (x.clients c).remote.step a = some remote) (hok : x.NoTurnover (.client c a)) :
    Refines s (x.afterClient c a remote) := by
  have hd := h.delivers hr
  have hone := (x.clients c).remote.sends_cases a
  have hsends : ∀ r ∈ (x.clients c).remote.sends a, (x.clients c).remote.sends a = [r] := by
    intro r hr'
    rcases hone with hnil | ⟨r', hone⟩
    · simp [hnil] at hr'
    · rw [hone] at hr' ⊢
      rw [List.mem_singleton.mp hr']
  have hans : ∀ d b, x.Answered s d b → (x.afterClient c a remote).Answered s d b :=
    fun _ _ hb => hb
  refine ⟨?servers, ?inFlight, ?clients, ?requests, ?once, ?sessions, ?first⟩
  case servers =>
    exact h.servers
  case inFlight =>
    intro m hm
    refine hans _ _ (h.inFlight m ?_)
    cases a with
    | compare b => exact List.mem_of_mem_erase hm
    | setCf | increment | broadcast | get | complete | handlerIncrement => exact hm
  case clients =>
    apply clients_afterClient (P := fun d t => t.Holds (x.Answered s d))
    · refine (h.clients c).act (RemoteScheduler.step_cases hstep) ?_
      rintro b rfl
      exact h.inFlight _ hr
    · exact h.clients
  case requests =>
    intro d n r hmem
    have hsent : ∀ r, (x.clients d).sent[n]? = some r →
        ((x.afterClient c a remote).clients d).sent[n]? = some r := by
      intro r
      apply clients_afterClient (P := fun d t => (x.clients d).sent[n]? = some r →
        t.sent[n]? = some r)
      · exact fun hreq => getElem?_of_append hreq _
      · exact fun _ => id
    simp only [Service.afterClient, ← List.append_assoc] at hmem
    rcases List.mem_append.mp hmem with hmem | hmem
    · exact hsent r (h.requests d n r hmem)
    · obtain ⟨r', hr', hb⟩ := List.mem_map.mp hmem
      cases hb
      simp only [Service.afterClient, Function.update_self, Session.after, hsends r hr']
      simp
  case once =>
    have hfresh := key_fresh h c
    simp only [Service.afterClient, ← List.append_assoc]
    rw [List.filterMap_append]
    refine List.Nodup.append h.once ?_ ?_
    · rcases hone with hnil | ⟨r, hone⟩
      · simp [hnil]
      · simp [hone, Broadcast.key]
    · intro k hk hk'
      obtain ⟨b, hb, hkey⟩ := List.mem_filterMap.mp hk'
      obtain ⟨r, -, rfl⟩ := List.mem_map.mp hb
      cases hkey
      exact hfresh hk
  case sessions =>
    apply clients_afterClient (P := fun _ => Session.machine.Reachable Session.NoLeftover)
    · exact (h.sessions c).step (h.noLeftover hok) (Session.step_of_delivers hd hstep)
    · exact h.sessions
  case first =>
    apply clients_afterClient (P := fun _ t => t.earlier = 0)
    · exact h.first c
    · exact h.first

theorem Refines.order {s : SchedulerImp} {x : Service} (h : Refines s x) {i : ℕ} {b : Broadcast}
    (hb : x.pending[i]? = some b) :
    Refines s { x with log := x.log ++ [b], pending := x.pending.eraseIdx i } := by
  obtain ⟨hi, rfl⟩ := List.getElem?_eq_some_iff.mp hb
  have hperm : List.Perm ((x.log ++ [x.pending[i]]) ++ x.pending.eraseIdx i) (x.log ++ x.pending) := by
    rw [List.append_assoc]
    exact (List.getElem_cons_eraseIdx_perm hi).append_left x.log
  have hans : ∀ c a, x.Answered s c a → Service.Answered
      { x with log := x.log ++ [x.pending[i]], pending := x.pending.eraseIdx i } s c a :=
    fun c a ha => ha.append rfl
  refine ⟨?servers, ?inFlight, ?clients, ?requests, ?once, ?sessions, ?first⟩
  case servers =>
    intro v hv
    obtain ⟨hle, hs⟩ := h.servers v hv
    refine ⟨?_, ?_⟩
    · simp only [List.length_append]
      omega
    · rw [hs, localAt, localAt, replay_append _ _ hle]
  case inFlight =>
    exact fun m hm => hans _ _ (h.inFlight m hm)
  case clients =>
    exact fun c => (h.clients c).mono (hans c)
  case requests =>
    exact fun c n r hmem => h.requests c n r (hperm.mem_iff.mp hmem)
  case once =>
    exact (hperm.filterMap _).nodup_iff.mpr h.once
  case sessions =>
    exact h.sessions
  case first =>
    exact h.first

theorem Refines.failure {s : SchedulerImp} {x : Service} (h : Refines s x) (sender : SpreadGroup)
    (c : Option SpreadGroup) :
    Refines s { x with pending := x.pending ++ [.clientFailure sender c] } := by
  refine ⟨?servers, ?inFlight, ?clients, ?requests, ?once, ?sessions, ?first⟩
  case servers =>
    exact h.servers
  case inFlight =>
    exact h.inFlight
  case clients =>
    exact h.clients
  case requests =>
    intro d n r hmem
    exact h.requests d n r (by simpa using hmem)
  case once =>
    have hkey : [Broadcast.clientFailure sender c].filterMap Broadcast.key = [] := rfl
    simpa [hkey] using h.once
  case sessions =>
    exact h.sessions
  case first =>
    exact h.first

theorem Refines.afterDelivery {s : SchedulerImp} {x : Service} (h : Refines s x) {j : ℕ}
    {v : Replica} (hv : x.servers[j]? = some v) {b : Broadcast} (hb : x.log[v.delivered]? = some b) :
    Refines s (x.afterDelivery j v b) := by
  obtain ⟨-, hs⟩ := h.servers v (List.mem_of_getElem? hv)
  refine ⟨?servers, ?inFlight, ?clients, ?requests, ?once, ?sessions, ?first⟩
  case servers =>
    intro w hw
    rcases List.mem_or_eq_of_mem_set hw with hw | rfl
    · exact h.servers w hw
    · refine ⟨(List.getElem?_eq_some_iff.mp hb).1, ?_⟩
      show b.apply v.scheduler = replay _ s x.log (v.delivered + 1)
      rw [replay_succ _ _ hb, hs, Broadcast.apply_eq_local]
      rfl
  case inFlight =>
    intro m hm
    rcases List.mem_append.mp hm with hm | hm
    · exact h.inFlight m hm
    · cases b with
      | request c n r =>
        obtain ⟨reply, hreply, rfl⟩ := List.mem_map.mp hm
        rcases onReq_cases v.scheduler c r with ⟨-, ⟨rep, -, hsent⟩, -⟩ | ⟨-, hsent, -⟩
        · rw [hsent] at hreply
          obtain rfl := List.mem_singleton.mp hreply
          exact ⟨v.delivered, r, hb, by rw [← hsent, hs]; rfl⟩
        · rw [hsent] at hreply
          cases hreply
      | clientFailure => cases hm
  case clients =>
    exact h.clients
  case requests =>
    exact h.requests
  case once =>
    exact h.once
  case sessions =>
    exact h.sessions
  case first =>
    exact h.first

/-! ## All steps -/

theorem refines_step {s : SchedulerImp} {x x' : Service} {a : Action} (h : Refines s x)
    (hok : x.NoTurnover a) (hstep : x.step a = some x') : Refines s x' := by
  cases a with
  | client c a =>
    simp only [step] at hstep
    split_ifs at hstep with hr
    obtain ⟨remote, hremote, rfl⟩ := Option.map_eq_some_iff.mp hstep
    exact h.afterClient hr hremote hok
  | failure sender c =>
    cases hstep
    exact h.failure sender c
  | order i =>
    obtain ⟨b, hb, rfl⟩ := Option.map_eq_some_iff.mp hstep
    exact h.order hb
  | deliver j =>
    simp only [step] at hstep
    split at hstep
    · next v hv =>
      split_ifs at hstep
      obtain ⟨b, hb, rfl⟩ := Option.map_eq_some_iff.mp hstep
      exact h.afterDelivery hv hb
    · cases hstep
  | stop j =>
    obtain ⟨v, hv, rfl⟩ := Option.map_eq_some_iff.mp hstep
    exact { h with
      servers := fun w hw => by
        rcases List.mem_or_eq_of_mem_set hw with hw | rfl
        · exact h.servers w hw
        · exact h.servers v (List.mem_of_getElem? hv) }

theorem refines_of_reachable {s : SchedulerImp} {n : ℕ} {x : Service}
    (h : (machine s n).Reachable NoTurnover x) : Refines s x :=
  h.invariant (P := Refines s) (refines_start s n) fun _ _ _ hx hok hstep => refines_step hx hok hstep

/-! ## What a completed call says -/

/-- The outcome of a call is that of the same call on the local scheduler at position `p`. -/
structure MatchesLocal (x : Service) (s : SchedulerImp) (c : SpreadGroup) (k : Completion)
    (p : ℕ) : Prop where
  /-- The request of the call is at position `p`, and nowhere else. -/
  request : ∃ id, x.log[p]? = some (.request c k.number (k.call.request id))
  once : ∀ q r, x.log[q]? = some (.request c k.number r) → q = p
  outcome : (k.call.outcome k.answer.rep).Same ((x.localAt s p).localCall c k.call).2
  next : x.localAt s (p + 1) = ((x.localAt s p).localCall c k.call).1
  /-- `newTask` throws exactly when the url is waiting or processing. -/
  newTask : ∀ url, k.call = .newTask url →
    ((∃ e, k.call.outcome k.answer.rep = .throws e ∧ e.cls = .repeatedTaskException) ↔
      ∃ t ∈ (x.localAt s p).tasks, t.url = url)
  /-- `getTask` throws exactly when no task waits. -/
  getTask : k.call = .getTask →
    ((∃ e, k.call.outcome k.answer.rep = .throws e ∧ e.cls = .noSuchElementException) ↔
      (x.localAt s p).waitingTasks = [])
  /-- What `getTask` returns is the removed head, now processed by the caller. -/
  head : k.call = .getTask → ∀ t, k.call.outcome k.answer.rep = .returnsTask t →
    ∃ task rest, t = some task ∧ (x.localAt s p).waitingTasks = task :: rest ∧
      x.localAt s (p + 1) = ⟨rest, (x.localAt s p).processingTasks.put task c⟩

end Service

/-- The outcome of `newTask`, when its checks meet no null url. -/
theorem SchedulerImp.localCall_newTask {s : SchedulerImp} {c : SpreadGroup}
    {url : Option JavaString} (hnull : ¬ s.MeetsNull url) {o : Outcome}
    (h : o.Same (s.localCall c (.newTask url)).2) :
    (∃ e, o = .throws e ∧ e.cls = .repeatedTaskException) ↔ ∃ t ∈ s.tasks, t.url = url := by
  simp only [localCall] at h
  rcases s.newTask_cases url with ⟨hnew, hs⟩ | ⟨-, hmem, hs⟩ | ⟨-, hs⟩
  · rw [hs] at h
    refine ⟨fun ⟨e, ho, _⟩ => ?_, fun ⟨t, ht, hurl⟩ => absurd hurl (hnew t ht).2⟩
    rw [ho] at h
    exact h.elim
  · rw [hs] at h
    refine ⟨fun _ => hmem, fun _ => ?_⟩
    cases o with
    | throws e => exact ⟨e, rfl, h⟩
    | returns | returnsTask => exact h.elim
  · exact absurd ((s.meetsNull_iff url).mpr hs) hnull

/-- The outcome of `getTask`. -/
theorem SchedulerImp.localCall_getTask {s : SchedulerImp} {c : SpreadGroup} {o : Outcome}
    (h : o.Same (s.localCall c .getTask).2) :
    ((∃ e, o = .throws e ∧ e.cls = .noSuchElementException) ↔ s.waitingTasks = []) ∧
      ∀ t, o = .returnsTask t → ∃ task rest, t = some task ∧ s.waitingTasks = task :: rest ∧
        (s.localCall c .getTask).1 = ⟨rest, s.processingTasks.put task c⟩ := by
  simp only [localCall, SchedulerImp.getTask] at h ⊢
  cases hw : s.waitingTasks with
  | nil =>
    simp only [hw] at h
    cases o with
    | throws e => exact ⟨⟨fun _ => rfl, fun _ => ⟨e, rfl, h⟩⟩, by simp⟩
    | returns | returnsTask => exact h.elim
  | cons task rest =>
    simp only [hw] at h
    cases o with
    | returnsTask t =>
      obtain rfl : t = some task := h
      exact ⟨by simp, fun t' ht => ⟨task, rest, by cases ht; rfl, rfl, rfl⟩⟩
    | returns | throws => exact h.elim

open Service

/-- **The replicated service refines one local scheduler.** -/
theorem service_refines_local (s : SchedulerImp) (n : ℕ) (x : Service)
    (h : (Service.machine s n).Reachable NoTurnover x) (c : SpreadGroup) :
    ∀ k ∈ (x.clients c).completed, ∃ p, x.MatchesLocal s c k p := by
  intro k hk
  have hx := refines_of_reachable h
  obtain ⟨id, hreq, hown⟩ := (Session.numbered_of_reachable (hx.sessions c)).completed k hk
  obtain ⟨p, r, hp, hsent⟩ := (hx.clients c).completed k hk
  rw [hown.origin] at hp
  have hr := hx.requests c k.number r (List.mem_append_left _ (List.mem_of_getElem? hp))
  rw [hreq] at hr
  obtain rfl := Option.some.inj hr
  obtain ⟨-, hsame⟩ := outcome_onReq hsent
  rw [Call.request_call] at hsame
  have hnext : x.localAt s (p + 1) = ((x.localAt s p).localCall c k.call).1 := by
    rw [localAt, replay_succ _ _ hp, Broadcast.applyLocal, Call.request_call]
    rfl
  refine ⟨p, ⟨id, hp⟩, fun q r hq => ?_, hsame, hnext, ?_, ?_, ?_⟩
  · have honce : (x.log.filterMap Broadcast.key).Nodup := by
      have hall := hx.once
      rw [List.filterMap_append] at hall
      exact hall.of_append_left
    exact eq_of_nodup_filterMap honce hq hp rfl rfl
  · intro url hcall
    rw [hcall] at hsame ⊢
    refine SchedulerImp.localCall_newTask (fun hnull => ?_) hsame
    -- the handler would not have sent a reply
    rcases onReq_cases (x.localAt s p) c (k.call.request id) with ⟨hnot, -⟩ | ⟨-, hnone, -⟩
    · exact hnot (by rw [hcall]; exact hnull)
    · rw [hnone] at hsent
      cases hsent
  · intro hcall
    rw [hcall] at hsame ⊢
    exact (SchedulerImp.localCall_getTask hsame).1
  · intro hcall t ht
    rw [hcall] at hsame ht hnext
    rw [hnext]
    exact (SchedulerImp.localCall_getTask hsame).2 t ht

/-- Two servers, of which one stops; two clients, of which the second gets the task of the first. -/
theorem service_refines_local_two_clients : ∃ x,
    (Service.machine SchedulerImp.empty 2).Reachable NoTurnover x ∧
      ((x.clients (str "c")).completed.length = 1 ∧ (x.clients (str "d")).completed.length = 1) ∧
      ∀ k ∈ (x.clients (str "d")).completed, ∃ p,
        x.MatchesLocal SchedulerImp.empty (str "d") k p := by
  obtain ⟨x, hx, hrun⟩ := Machine.exists_reachable_of_run (Service.machine SchedulerImp.empty 2)
    NoTurnover (fun x => (x.clients (str "c")).completed.length = 1 ∧
      (x.clients (str "d")).completed.length = 1)
    [.client (str "c") (.setCf (.newTask (some (str "u")))), .client (str "c") .increment,
      .client (str "c") .broadcast, .order 0, .deliver 0, .stop 0,
      .client (str "c") (.compare ⟨.newTaskRep 1 true, 0⟩), .client (str "c") .complete,
      .client (str "c") .get, .client (str "d") (.setCf .getTask), .client (str "d") .increment,
      .client (str "d") .broadcast, .order 0, .deliver 1, .deliver 1,
      .client (str "d") (.compare ⟨.getTaskRep 1 (some ⟨some (str "u")⟩) true, 0⟩),
      .client (str "d") .complete, .client (str "d") .get] (by decide +kernel)
  exact ⟨x, hx, hrun, service_refines_local SchedulerImp.empty 2 x hx (str "d")⟩

end ReplicatedScheduler
