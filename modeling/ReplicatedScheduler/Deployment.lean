import ReplicatedScheduler.Lib.Simulation
import ReplicatedScheduler.Service
import ReplicatedScheduler.Spread.Stream
import ReplicatedScheduler.WireFormat

/-!
# The service on the ring of daemons

A server at each daemon, and clients at any of them. Requests and `ClientFailure`s are agreed
messages of the daemons; a server handles what its daemon hands up for the group of servers, at its
own pace. Whatever else the daemons carry is handed down as `other`. Replies reach the clients at
any time.

**Theorem (`service_on_ring`).** The deployment behaves as `Service` does: there is one sequence of
requests and `ClientFailure`s, every server has the state of one local scheduler after a prefix of
it, and every completed call was answered by what the handler computes at the one position of its
request.

The proof is a simulation. A packet that is numbered puts the messages that it ends into the
sequence; what is handed down and not numbered yet is pending.

The numbers in `sent` record the run, as they do in `Service`. They are not on the wire: a reply
gets the number of its request from the place that the message has among its sender's.
-/

namespace ReplicatedScheduler

open JavaLib Lib Lts Spread

/-! ## Messages on the wire -/

/-- How the messages for the servers are written: the headers of the session, and catalyst. -/
structure Wire where
  encode : SpreadGroup × ServerMsg → List (BitVec 8)
  decode : List (BitVec 8) → Option (SpreadGroup × ServerMsg)
  decode_encode : ∀ m, decode (encode m) = some m

namespace Broadcast

def sender : Broadcast → SpreadGroup
  | .request sender _ _ => sender
  | .clientFailure sender _ => sender

/-- What is on the wire. -/
def message : Broadcast → SpreadGroup × ServerMsg
  | .request sender _ r => (sender, .req r)
  | .clientFailure sender client => (sender, .clientFailure client)

def number : Broadcast → ℕ
  | .request _ number _ => number
  | .clientFailure _ _ => 0

theorem handle_message (s : SchedulerImp) (b : Broadcast) :
    b.handle s = mainHandler SchedulerImp.shiftTasksFromClient s b.message.1 b.message.2 := by
  cases b <;> rfl

theorem answers_message (s : SchedulerImp) (b : Broadcast) :
    b.answers s = (replies (b.handle s).sent).map fun reply => (reply.1, ⟨reply.2, b.number⟩) := by
  cases b <;> rfl

end Broadcast

namespace Wire

variable (w : Wire)

/-- What a server reads in a message handed up. -/
def read (mess : List Body) : Option (SpreadGroup × ServerMsg) := w.decode mess.flatten

/-- A message for the servers as it is handed down. -/
def down (b : Broadcast) : DownLink := .ofBytes .agreed (w.encode b.message)

theorem read_down (b : Broadcast) : w.read (w.down b).elements = some b.message := by
  rw [read, down, DownLink.flatten_ofBytes, w.decode_encode]

/-- A message for the servers as an object of the registered classes. -/
def object : ServerMsg → CatalystSerializable
  | .req (.newTaskReq id url) => .newTaskReq id url
  | .req (.getTaskReq id) => .getTaskReq id
  | .req (.endTaskReq id t) => .endTaskReq id t
  | .clientFailure client => .clientFailure client
  | .stateReq => .stateReq

def ofObject : CatalystSerializable → Option ServerMsg
  | .newTaskReq id url => some (.req (.newTaskReq id url))
  | .getTaskReq id => some (.req (.getTaskReq id))
  | .endTaskReq id t => some (.req (.endTaskReq id t))
  | .clientFailure client => some (.clientFailure client)
  | .stateReq => some .stateReq
  | _ => none

theorem sizesFit_object (m : ServerMsg) : (object m).SizesFit := by
  rcases m with r | client | _
  · cases r <;> trivial
  · trivial
  · trivial

theorem received_object (m : ServerMsg) : (object m).received = object m := by
  rcases m with r | client | _
  · cases r <;> rfl
  · rfl
  · rfl

theorem ofObject_object (m : ServerMsg) : ofObject (object m) = some m := by
  rcases m with r | client | _
  · cases r <;> rfl
  · rfl
  · rfl

/-- The sender's name, and the object as catalyst writes it. -/
def ofCatalyst (c : WireCatalyst (BitVec 8)) : Wire where
  encode m := c.writeString (some m.1) ++ CatalystSerializable.serialize c (some (object m.2))
  decode bytes := do
    let (sender, bytes) ← c.readString bytes
    let (o, _) ← CatalystSerializable.deserialize c bytes
    return (← sender, ← ofObject (← o))
  decode_encode m := by
    have hobject := CatalystSerializable.deserialize_serialize c (sizesFit_object m.2) []
    rw [List.append_nil, received_object] at hobject
    simp [c.readString_writeString, hobject, ofObject_object]

end Wire

/-! ## The sequence -/

theorem getElem?_filter {α : Type} {p : α → Bool} {l : List α} {k : ℕ} {a : α}
    (h : l[k]? = some a) (ha : p a = true) :
    (l.filter p)[((l.take k).filter p).length]? = some a := by
  have hsplit : l.filter p = (l.take k).filter p ++ a :: (l.drop (k + 1)).filter p := by
    rw [← List.filter_cons_of_pos ha, ← drop_eq_cons h, ← List.filter_append,
      List.take_append_drop]
  rw [hsplit, List.getElem?_append_right (Nat.le_refl _)]
  simp

theorem ofFn_set {α : Type} {n : ℕ} (f : Fin n → α) (j : Fin n) (a : α) :
    (List.ofFn f).set j a = List.ofFn (Function.update f j a) := by
  refine List.ext_getElem (by simp) fun i hi hi' => ?_
  rw [List.getElem_set, List.getElem_ofFn, List.getElem_ofFn]
  by_cases hij : (j : ℕ) = i
  · subst hij
    simp
  · rw [if_neg hij, Function.update_of_ne fun he => hij (by rw [← he])]

theorem getElem?_ofFn {α : Type} {n : ℕ} (f : Fin n → α) (j : Fin n) :
    (List.ofFn f)[(j : ℕ)]? = some (f j) := by
  rw [List.getElem?_ofFn, dif_pos j.isLt]

section Interleaved

variable {n : ℕ} (home : SpreadGroup → Fin n)

/-- What is in the stream of the daemons for a message. -/
def Broadcast.entry (b : Broadcast) : Fin n × SpreadGroup × ServerMsg := (home b.sender, b.message)

/-- A sequence of the messages handed down at the daemons, and those that are pending. -/
structure Interleaved (sent : Fin n → List Broadcast) (log pending : List Broadcast) : Prop where
  fifo : ∀ j, (log.filter fun b => home b.sender = j) <+: sent j
  count : ∀ b, log.count b + pending.count b = (sent (home b.sender)).count b
  homes : ∀ j, ∀ b ∈ sent j, home b.sender = j

variable {home} {sent : Fin n → List Broadcast} {log pending : List Broadcast}

theorem filter_entry (log : List Broadcast) (j : Fin n) :
    (log.map (Broadcast.entry home)).filter (fun e => e.1 = j) =
      (log.filter fun b => home b.sender = j).map (Broadcast.entry home) := by
  rw [List.filter_map]
  rfl

theorem Interleaved.submit (h : Interleaved home sent log pending) (b : Broadcast) :
    Interleaved home (Function.update sent (home b.sender) (sent (home b.sender) ++ [b])) log
      (pending ++ [b]) := by
  refine ⟨fun j => ?_, fun c => ?_, fun j c hc => ?_⟩
  · by_cases hj : j = home b.sender
    · rw [hj, Function.update_self]
      exact (h.fifo _).trans (List.prefix_append _ _)
    · rw [Function.update_of_ne hj]
      exact h.fifo j
  · have hcount := h.count c
    rw [List.count_append]
    by_cases hc : home c.sender = home b.sender
    · rw [hc, Function.update_self, List.count_append, ← hc]
      omega
    · have hne : b ≠ c := fun he => hc (by rw [he])
      rw [Function.update_of_ne hc, List.count_singleton, if_neg (by simpa using hne)]
      omega
  · by_cases hj : j = home b.sender
    · rw [hj, Function.update_self] at hc
      rcases List.mem_append.mp hc with hc | hc
      · exact (h.homes _ c hc).trans hj.symm
      · rw [List.mem_singleton.mp hc, hj]
    · rw [Function.update_of_ne hj] at hc
      exact h.homes j c hc

/-- The next message of the stream is one that is pending. -/
theorem Interleaved.next (h : Interleaved home sent log pending) {j : Fin n}
    {m : SpreadGroup × ServerMsg} {new : List (Fin n × SpreadGroup × ServerMsg)}
    (hsender : ((log.map (Broadcast.entry home) ++ (j, m) :: new).filter fun e => e.1 = j).map
      Prod.snd <+: (sent j).map Broadcast.message) :
    ∃ b ∈ pending, b.entry home = (j, m) ∧
      Interleaved home sent (log ++ [b]) (pending.erase b) := by
  obtain ⟨rest, hrest⟩ := h.fifo j
  have hmessages : ((log.filter fun b => home b.sender = j).map (Broadcast.entry home)).map
      Prod.snd = (log.filter fun b => home b.sender = j).map Broadcast.message := by
    rw [List.map_map]
    rfl
  rw [List.filter_append, filter_entry, List.map_append, hmessages, ← hrest, List.map_append,
    List.prefix_append_right_inj, List.filter_cons_of_pos (by simp), List.map_cons] at hsender
  cases rest with
  | nil => exact absurd (List.prefix_nil.mp hsender) (List.cons_ne_nil _ _)
  | cons b rest =>
    rw [List.map_cons, List.cons_prefix_cons] at hsender
    have hb : b ∈ sent j := by
      rw [← hrest]
      exact List.mem_append_right _ List.mem_cons_self
    have hhome := h.homes j b hb
    have hcount := h.count b
    have hlog : (log.filter fun c => home c.sender = j).count b = log.count b :=
      List.count_filter (by simpa using hhome)
    have hpending : b ∈ pending := by
      by_contra hnot
      rw [List.count_eq_zero_of_not_mem hnot, hhome, ← hrest, List.count_append, hlog,
        List.count_cons_self] at hcount
      omega
    refine ⟨b, hpending, Prod.ext hhome hsender.1.symm, fun k => ?_, fun c => ?_, h.homes⟩
    · rw [List.filter_append]
      by_cases hk : k = j
      · subst hk
        rw [List.filter_cons_of_pos (by simpa using hhome), ← hrest]
        exact ⟨rest, by simp⟩
      · rw [List.filter_cons_of_neg (by simpa [hhome] using fun he => hk he.symm)]
        simpa using h.fifo k
    · have hc := h.count c
      rw [List.count_append, List.count_erase, List.count_singleton]
      by_cases hbc : b = c
      · subst hbc
        have hpos := List.count_pos_iff.mpr hpending
        simp only [beq_self_eq_true, if_true]
        omega
      · have hbc' : (b == c) = false := by simpa using hbc
        simp only [hbc', Bool.false_eq_true, if_false]
        omega

end Interleaved

/-! ## The deployment -/

structure Deployment (n : ℕ) where
  ring : Ring n
  servers : Fin n → Replica
  clients : SpreadGroup → Session
  inFlight : List (SpreadGroup × Answer)
  /-- The messages for the servers that were handed down at each daemon. -/
  sent : Fin n → List Broadcast

namespace Deployment

variable {n : ℕ} [NeZero n] (conf : Conf) (w : Wire) (home : SpreadGroup → Fin n)

def start (s : SchedulerImp) : Deployment n :=
  ⟨Ring.start n, fun _ => ⟨0, s, true⟩, fun _ => Session.start, [], fun _ => []⟩

inductive Action (n : ℕ)
  /-- A step of the daemons. -/
  | daemons (a : Ring.Action n)
  /-- A message that is not for the servers is handed down. -/
  | other (i : Fin n) (m : DownLink)
  | client (c : SpreadGroup) (a : RemoteScheduler.Action)
  | failure (sender : SpreadGroup) (c : Option SpreadGroup)
  /-- Server `j` handles the next message that its daemon has handed up. -/
  | deliver (j : Fin n)
  | stop (j : Fin n)

/-- The state of the service, with this sequence and these pending messages. -/
def service (x : Deployment n) (log pending : List Broadcast) : Service :=
  ⟨log, pending, List.ofFn x.servers, x.clients, x.inFlight⟩

/-- The deployment without its daemons. -/
def view (x : Deployment n) : Service := x.service [] []

/-- A message for the servers is handed down at its sender's daemon. -/
def broadcast (x : Deployment n) (b : Broadcast) : Option (Deployment n) :=
  (Ring.step conf x.ring (.newMessage (home b.sender) (w.down b))).map fun ring =>
    { x with
      ring := ring
      sent := Function.update x.sent (home b.sender) (x.sent (home b.sender) ++ [b]) }

def broadcastAll (x : Deployment n) : List Broadcast → Option (Deployment n)
  | [] => some x
  | b :: bs => (x.broadcast conf w home b).bind fun x' => x'.broadcastAll bs

/-- The number of the message that has `k` messages of `feed` before it and is from daemon `i`. -/
def numberAt (x : Deployment n) (feed : List (Fin n × SpreadGroup × ServerMsg)) (k : ℕ)
    (i : Fin n) : ℕ :=
  ((x.sent i)[((feed.take k).filter fun e => e.1 = i).length]?.map Broadcast.number).getD 0

/-- Server `j` has handled the message `e`. -/
def afterDelivery (x : Deployment n) (j : Fin n) (e : Fin n × SpreadGroup × ServerMsg) :
    Deployment n :=
  let v := x.servers j
  let handled := mainHandler SchedulerImp.shiftTasksFromClient v.scheduler e.2.1 e.2.2
  let number := x.numberAt ((x.ring.daemons j).feed w.read) v.delivered e.1
  { x with
    servers := Function.update x.servers j
      { v with delivered := v.delivered + 1, scheduler := handled.scheduler }
    inFlight := x.inFlight ++
      (replies handled.sent).map fun reply => (reply.1, ⟨reply.2, number⟩) }

def step (x : Deployment n) : Action n → Option (Deployment n)
  | .daemons a =>
    match a with
    | .newMessage _ _ => none
    | a => (Ring.step conf x.ring a).map fun ring => { x with ring := ring }
  | .other i m =>
    (Ring.step conf x.ring (.newMessage i m)).map fun ring => { x with ring := ring }
  | .client c a =>
    if x.view.Receives c a then
      ((x.clients c).remote.step a).bind fun remote =>
        broadcastAll conf w home
          { x with
            clients := Function.update x.clients c ((x.clients c).after a remote)
            inFlight := x.view.received c a }
          (((x.clients c).remote.sends a).map (.request c (x.clients c).sent.length))
    else none
  | .failure sender c => x.broadcast conf w home (.clientFailure sender c)
  | .deliver j =>
    if (x.servers j).running then
      ((x.ring.daemons j).feed w.read)[(x.servers j).delivered]?.map (x.afterDelivery w j)
    else none
  | .stop j => some { x with
      servers := Function.update x.servers j { x.servers j with running := false } }

def machine (s : SchedulerImp) : Machine (Deployment n) (Action n) :=
  ⟨start s, step conf w home⟩

/-- No copy of the token is late, no client's counter turns over, and what is not for the servers is
not read as a message for them. -/
def Ok (x : Deployment n) : Action n → Prop
  | .daemons a => x.ring.Timely a
  | .other _ m => w.read m.elements = none
  | .client c a => x.view.NoTurnover (.client c a)
  | _ => True

instance (x : Deployment n) (a : Action n) : Decidable (x.Ok w a) := by
  cases a <;> unfold Ok <;> infer_instance

/-! ## The simulation -/

variable {conf w home} {s : SchedulerImp} {x x' : Deployment n} {log pending : List Broadcast}

/-- The sequence `log` is what the daemons have ordered, and `pending` what they have not. -/
structure Tracks (w : Wire) (home : SpreadGroup → Fin n) (x : Deployment n)
    (log pending : List Broadcast) : Prop where
  good : x.ring.Good
  ordered : x.ring.Ordered w.read
  stream : log.map (Broadcast.entry home) = x.ring.stream w.read
  interleaved : Interleaved home x.sent log pending
  submitted : ∀ j, (x.ring.submitted j).filterMap (fun m => w.read m.elements) =
    (x.sent j).map Broadcast.message

theorem tracks_start : Tracks w home (start s) [] [] where
  good := Ring.good_start
  ordered := fun i m hm => by cases hm
  stream := rfl
  interleaved := ⟨fun j => List.prefix_refl _, fun b => rfl, fun j b hb => by cases hb⟩
  submitted := fun j => rfl

theorem stream_newMessage (g : List Body → Option (SpreadGroup × ServerMsg)) (r : Ring n)
    (i : Fin n) (m : DownLink) : (r.newMessage i m).stream g = r.stream g := by
  unfold Ring.stream
  rw [(Ring.newMessage_records r i m).1]

/-- A message is handed down. -/
theorem Tracks.newMessage (hconf : conf.Fits) (h : Tracks w home x log pending) {i : Fin n}
    {m : DownLink} (hm : m.type = .reliable → w.read m.elements = none) {ring : Ring n}
    (hstep : Ring.step conf x.ring (.newMessage i m) = some ring) :
    ring.Good ∧ ring.Ordered w.read ∧ ring.stream w.read = x.ring.stream w.read ∧
      ∀ j, (ring.submitted j).filterMap (fun m => w.read m.elements) =
        Function.update (fun j => (x.sent j).map Broadcast.message) i
          ((x.sent i).map Broadcast.message ++ (w.read m.elements).toList) j := by
  have htimely : x.ring.Timely (.newMessage i m) := trivial
  refine ⟨Ring.good_step hconf h.good htimely hstep, Ring.ordered_step h.ordered
    (fun j l he => by cases he; exact hm) hstep, ?_⟩
  rcases Ring.step_records hstep with ⟨j, l, he, rfl⟩ | ⟨hne, -⟩
  · cases he
    refine ⟨stream_newMessage _ _ _ _, fun j => ?_⟩
    rw [(Ring.newMessage_records x.ring i m).2]
    by_cases hj : j = i
    · subst hj
      rw [Function.update_self, Function.update_self, List.filterMap_append, h.submitted j]
      cases hread : w.read m.elements <;> simp [hread]
    · rw [Function.update_of_ne hj, Function.update_of_ne hj]
      exact h.submitted j
  · exact absurd rfl (hne i m)

theorem Tracks.broadcast (hconf : conf.Fits) (h : Tracks w home x log pending) {b : Broadcast}
    (hstep : x.broadcast conf w home b = some x') :
    Tracks w home x' log (pending ++ [b]) ∧
      ∀ log' pending', x'.service log' pending' = x.service log' pending' := by
  obtain ⟨ring, hring, rfl⟩ := Option.map_eq_some_iff.mp hstep
  obtain ⟨hgood, hordered, hstream, hsub⟩ := h.newMessage hconf
    (fun htype => by cases htype) hring
  refine ⟨⟨hgood, hordered, h.stream.trans hstream.symm, h.interleaved.submit b, fun j => ?_⟩,
    fun _ _ => rfl⟩
  rw [hsub j]
  by_cases hj : j = home b.sender
  · rw [hj, Function.update_self]
    show _ = (Function.update x.sent _ _ _).map Broadcast.message
    rw [Function.update_self, w.read_down, List.map_append]
    rfl
  · rw [Function.update_of_ne hj]
    show _ = (Function.update x.sent _ _ _).map Broadcast.message
    rw [Function.update_of_ne hj]

theorem Tracks.broadcastAll (hconf : conf.Fits) (h : Tracks w home x log pending)
    {bs : List Broadcast} (hstep : x.broadcastAll conf w home bs = some x') :
    Tracks w home x' log (pending ++ bs) ∧
      ∀ log' pending', x'.service log' pending' = x.service log' pending' := by
  induction bs generalizing x pending with
  | nil =>
    cases hstep
    rw [List.append_nil]
    exact ⟨h, fun _ _ => rfl⟩
  | cons b bs ih =>
    obtain ⟨y, hy, hstep⟩ := Option.bind_eq_some_iff.mp hstep
    obtain ⟨hb, hservice⟩ := h.broadcast hconf hy
    obtain ⟨hbs, hservice'⟩ := ih hb hstep
    rw [List.append_assoc, List.singleton_append] at hbs
    exact ⟨hbs, fun _ _ => (hservice' _ _).trans (hservice _ _)⟩

omit [NeZero n] in
/-- The service puts pending messages into the sequence until it is that of the daemons. -/
theorem order_steps (x : Deployment n) {stream : List (Fin n × SpreadGroup × ServerMsg)}
    (hsender : ∀ j, (stream.filter fun e => e.1 = j).map Prod.snd <+:
      (x.sent j).map Broadcast.message) (new : List (Fin n × SpreadGroup × ServerMsg))
    (h : Interleaved home x.sent log pending)
    (hnew : log.map (Broadcast.entry home) ++ new = stream) :
    ∃ log' pending', (Service.machine s n).Steps Service.NoTurnover (x.service log pending)
        (x.service log' pending') ∧ Interleaved home x.sent log' pending' ∧
      log'.map (Broadcast.entry home) = stream := by
  induction new generalizing log pending with
  | nil =>
    rw [List.append_nil] at hnew
    exact ⟨log, pending, .refl _, h, hnew⟩
  | cons e new ih =>
    have hj := hsender e.1
    rw [← hnew] at hj
    obtain ⟨b, hb, hentry, hnext⟩ := h.next hj
    obtain ⟨log', pending', hsteps, hinter, hlog⟩ := ih hnext (by
      rw [List.map_append, List.append_assoc, List.map_singleton, hentry]
      exact hnew)
    refine ⟨log', pending', .trans (.single (b := .order (pending.idxOf b)) trivial ?_) hsteps,
      hinter, hlog⟩
    show (pending[pending.idxOf b]?).map _ = _
    rw [List.getElem?_idxOf hb, Option.map_some, ← List.eraseIdx_idxOf_eq_erase]
    rfl

/-- The message that a server handles next is the next of the sequence, and its number is the one on
record. -/
theorem Tracks.next (h : Tracks w home x log pending) {j : Fin n} {k : ℕ}
    {e : Fin n × SpreadGroup × ServerMsg}
    (he : ((x.ring.daemons j).feed w.read)[k]? = some e) : ∃ b, log[k]? = some b ∧
      b.entry home = e ∧ x.numberAt ((x.ring.daemons j).feed w.read) k e.1 = b.number := by
  obtain ⟨more, hmore⟩ := h.good.feed_prefix h.ordered j
  rw [← h.stream] at hmore
  have hk := (List.getElem?_eq_some_iff.mp he).1
  have hlog : (log.map (Broadcast.entry home))[k]? = some e := by
    rw [← hmore, List.getElem?_append_left hk]
    exact he
  rw [List.getElem?_map] at hlog
  obtain ⟨b, hb, hentry⟩ := Option.map_eq_some_iff.mp hlog
  refine ⟨b, hb, hentry, ?_⟩
  have htake : ((x.ring.daemons j).feed w.read).take k =
      (log.take k).map (Broadcast.entry home) := by
    rw [List.map_take, ← hmore, List.take_append_of_le_length (Nat.le_of_lt hk)]
  have hhome : home b.sender = e.1 := congrArg Prod.fst hentry
  obtain ⟨rest, hrest⟩ := h.interleaved.fifo e.1
  have hown := getElem?_filter (p := fun b => decide (home b.sender = e.1)) hb
    (decide_eq_true hhome)
  rw [numberAt, htake, filter_entry, List.length_map, ← hrest,
    List.getElem?_append_left (List.getElem?_eq_some_iff.mp hown).1, hown]
  rfl

/-- **A server handles a message.** -/
theorem Tracks.deliver (h : Tracks w home x log pending) {j : Fin n}
    {e : Fin n × SpreadGroup × ServerMsg} (hrun : (x.servers j).running = true)
    (he : ((x.ring.daemons j).feed w.read)[(x.servers j).delivered]? = some e) :
    (Service.machine s n).step (x.service log pending) (.deliver j) =
      some ((x.afterDelivery w j e).service log pending) := by
  obtain ⟨b, hb, rfl, hnumber⟩ := h.next he
  have hserver : (x.service log pending).servers[(j : ℕ)]? = some (x.servers j) := getElem?_ofFn _ j
  simp only [Service.machine, Service.step, hserver, hrun, if_true]
  show (log[(x.servers j).delivered]?).map _ = _
  rw [hb, Option.map_some]
  unfold Service.afterDelivery afterDelivery service
  simp only
  rw [ofFn_set, hnumber, Broadcast.apply, Broadcast.answers_message, Broadcast.handle_message]
  rfl

/-- **The service simulates the deployment.** -/
theorem simulation (hconf : conf.Fits) (s : SchedulerImp) :
    Machine.Simulation (machine conf w home s) (Service.machine s n) (Ok w) Service.NoTurnover
      fun x t => ∃ log pending, t = x.service log pending ∧ Tracks w home x log pending where
  init := by
    refine ⟨[], [], ?_, tracks_start⟩
    show Service.start s n = (start s : Deployment n).service [] []
    unfold Service.start service start
    rw [List.ofFn_const]
  step := by
    rintro x t a x' - - ⟨log, pending, rfl, h⟩ hok hstep
    cases a with
    | daemons a =>
      obtain ⟨hne, ring, hring, rfl⟩ : (∀ i m, a ≠ .newMessage i m) ∧
          ∃ ring, Ring.step conf x.ring a = some ring ∧ { x with ring := ring } = x' := by
        cases a with
        | newMessage i m => cases hstep
        | _ => exact ⟨by simp, Option.map_eq_some_iff.mp hstep⟩
      rcases Ring.step_records hring with ⟨i, m, he, -⟩ | ⟨-, hsub, horder⟩
      · exact absurd he (hne i m)
      have hgood := Ring.good_step hconf h.good hok hring
      have hordered : ring.Ordered w.read :=
        Ring.ordered_step h.ordered (fun i m he => absurd he (hne i m)) hring
      obtain ⟨new, hnew⟩ := Ring.stream_prefix (g := w.read) horder
      rw [← h.stream] at hnew
      have hsubmitted : ∀ j, (ring.submitted j).filterMap (fun m => w.read m.elements) =
          (x.sent j).map Broadcast.message := by
        rw [hsub]
        exact h.submitted
      obtain ⟨log', pending', hsteps, hinter, hlog⟩ := order_steps (s := s) x
        (fun j => by rw [← hsubmitted j]; exact hgood.stream_of hordered j) new h.interleaved hnew
      exact ⟨_, hsteps, log', pending', rfl, hgood, hordered, hlog, hinter, hsubmitted⟩
    | other i m =>
      obtain ⟨ring, hring, rfl⟩ := Option.map_eq_some_iff.mp hstep
      have hread : w.read m.elements = none := hok
      obtain ⟨hgood, hordered, hstream, hsub⟩ := h.newMessage hconf (fun _ => hread) hring
      refine ⟨_, .refl _, log, pending, rfl, hgood, hordered, h.stream.trans hstream.symm,
        h.interleaved, fun j => ?_⟩
      rw [hsub j, hread, Option.toList_none, List.append_nil]
      by_cases hj : j = i
      · rw [hj, Function.update_self]
      · rw [Function.update_of_ne hj]
    | client c a =>
      simp only [machine, step] at hstep
      split_ifs at hstep with hreceives
      obtain ⟨remote, hremote, hstep⟩ := Option.bind_eq_some_iff.mp hstep
      have hclient : Tracks w home { x with
          clients := Function.update x.clients c ((x.clients c).after a remote)
          inFlight := x.view.received c a } log pending :=
        ⟨h.good, h.ordered, h.stream, h.interleaved, h.submitted⟩
      obtain ⟨h', hservice⟩ := hclient.broadcastAll hconf hstep
      refine ⟨_, .single (b := .client c a) hok ?_, log, _, rfl, h'⟩
      rw [hservice]
      have hreceives' : (x.service log pending).Receives c a := hreceives
      show (if (x.service log pending).Receives c a then _ else none) = _
      rw [if_pos hreceives']
      show ((x.clients c).remote.step a).map _ = _
      rw [hremote]
      rfl
    | failure sender c =>
      obtain ⟨h', hservice⟩ := h.broadcast hconf hstep
      refine ⟨_, .single (b := .failure sender c) trivial ?_, log, _, rfl, h'⟩
      rw [hservice]
      rfl
    | deliver j =>
      simp only [machine, step] at hstep
      split_ifs at hstep with hrun
      obtain ⟨e, he, rfl⟩ := Option.map_eq_some_iff.mp hstep
      exact ⟨_, .single (b := .deliver j) trivial (h.deliver hrun he), log, pending, rfl,
        h.good, h.ordered, h.stream, h.interleaved, h.submitted⟩
    | stop j =>
      cases hstep
      refine ⟨_, .single (b := .stop j) trivial ?_, log, pending, rfl,
        h.good, h.ordered, h.stream, h.interleaved, h.submitted⟩
      show ((List.ofFn x.servers)[(j : ℕ)]?).map _ = _
      rw [getElem?_ofFn, Option.map_some]
      unfold service
      simp only
      rw [ofFn_set]

end Deployment

/-! ## What the clients see -/

open Deployment

/-- **The service on the ring of daemons.** -/
theorem service_on_ring {n : ℕ} [NeZero n] {conf : Conf} (hconf : conf.Fits) (w : Wire)
    (home : SpreadGroup → Fin n) (s : SchedulerImp) (x : Deployment n)
    (h : (Deployment.machine conf w home s).Reachable (Ok w) x) : ∃ log : List Broadcast,
      (log.map fun b => (home b.sender, b.message)) = x.ring.stream w.read ∧
      (∀ j, (x.servers j).delivered ≤ log.length ∧
        (x.servers j).scheduler = replay Broadcast.applyLocal s log (x.servers j).delivered) ∧
      ∀ c, ∀ k ∈ (x.clients c).completed, ∃ p id,
        log[p]? = some (.request c k.number (k.call.request id)) ∧
        (∀ q r, log[q]? = some (.request c k.number r) → q = p) ∧
        (onReq (replay Broadcast.applyLocal s log p) c (k.call.request id)).sent =
          [.reply c k.answer.rep] := by
  obtain ⟨t, ht, log, pending, rfl, htracks⟩ := (simulation hconf s).reachable h
  have hx := Service.refines_of_reachable ht
  refine ⟨log, htracks.stream, fun j => ?_, fun c k hk => ?_⟩
  · exact hx.servers _ (List.mem_of_getElem? (getElem?_ofFn x.servers j))
  · obtain ⟨id, hreq, hown⟩ := (Session.numbered_of_reachable (hx.sessions c)).completed k hk
    obtain ⟨p, r, hp, hsent⟩ := (hx.clients c).completed k hk
    rw [hown.origin] at hp
    have hr := hx.requests c k.number r (List.mem_append_left _ (List.mem_of_getElem? hp))
    rw [hreq] at hr
    obtain rfl := Option.some.inj hr
    refine ⟨p, id, hp, fun q r hq => ?_, hsent⟩
    have honce := hx.once
    rw [List.filterMap_append] at honce
    exact eq_of_nodup_filterMap honce.of_append_left hq hp rfl rfl

/-- A call on two daemons. The request is handled at the first, which then stops. -/
theorem service_on_ring_one_call :
    ∃ (x : Deployment 2) (log : List Broadcast), (Deployment.machine Ring.defaultConf
      (Wire.ofCatalyst .bytes) (fun _ => 0) SchedulerImp.empty).Reachable
        (Ok (Wire.ofCatalyst .bytes)) x ∧
      ∃ k ∈ (x.clients (str "c")).completed, ∃ (p : ℕ) (id : JavaInt),
        log[p]? = some (Broadcast.request (str "c") k.number (k.call.request id)) := by
  obtain ⟨x, hx, hrun⟩ := Machine.exists_reachable_of_run (Deployment.machine Ring.defaultConf
      (Wire.ofCatalyst .bytes) (fun _ => (0 : Fin 2)) SchedulerImp.empty)
    (Ok (Wire.ofCatalyst .bytes)) (fun x => (x.clients (str "c")).completed ≠ [])
    [.client (str "c") (.setCf (.newTask (some (str "u")))), .client (str "c") .increment,
      .client (str "c") .broadcast, .daemons (.token 0), .deliver 0, .stop 0,
      .daemons (.bcast 1 0), .client (str "c") (.compare ⟨.newTaskRep 1 true, 0⟩),
      .client (str "c") .complete, .client (str "c") .get] (by decide +kernel)
  obtain ⟨k, hk⟩ := List.exists_mem_of_ne_nil _ hrun
  obtain ⟨log, -, -, hcalls⟩ := service_on_ring (by decide) _ _ _ x hx
  obtain ⟨p, id, hp, -⟩ := hcalls (str "c") k hk
  exact ⟨x, log, hx, k, hk, p, id, hp⟩

end ReplicatedScheduler
