import ReplicatedScheduler.Spread.GroupTable
import ReplicatedScheduler.Spread.HandedUp
import ReplicatedScheduler.Spread.Stream

/-!
# Sessions of all daemons

Clients connect to the daemons of one ring, and each is a session of its daemon. A daemon validates
the header of each message that it reads from a session (`Message.Validated`); it ends the session
if that is not in order. What it reads it hands down as packets, in its own byte order. When the
session ends, by its own message or because its socket failed, the daemon hands a message down that
says so, and removes the session when that comes back.

A daemon delivers a message as soon as the ring hands it up (`Cluster.afterRing`). A daemon that
ends with an error ends the run, in the state before the step that it does not finish.

A message has room for 100 buffers, which is less than the header check lets through: the longest
messages that it lets through end the daemon (`Message.readAlarm`).

**Left out.** Access control lets everything through. `MAX_LOCAL_GROUP_MEMBERS` is not reached. A
session does nothing before it is authorized. What was told to a session is written at once; a
session that does not read for `MAX_SESSION_MESSAGES` messages is given up within a delivery, and
here before or after it (`kill`).
-/

namespace ReplicatedScheduler.Spread

open Lib Lts

variable {n : ℕ}

/-! ## Messages that are read -/

/-- The bits that a client may set in the hint. -/
def hintMask : BitVec 32 := 0x80000080#32 ||| 0x00ffff00#32

/-- `Sess_validate_read_header`. -/
structure Message.Validated (net : Network n) (i : Fin n) (ses : Session) (m : Message) : Prop where
  kind : OneKind m.type
  sender : privateToNames m.sender = some (ses.name, net.procName i)
  numGroups : m.groups.length ≤ maxGroupsPerMessage
  hint : m.hint &&& ~~~hintMask = 0
  fits : m.data.length + maxGroupName * m.groups.length ≤ maxMessageLen

instance (net : Network n) (i : Fin n) (ses : Session) (m : Message) :
    Decidable (m.Validated net i ses) :=
  decidable_of_iff (OneKind m.type ∧ privateToNames m.sender = some (ses.name, net.procName i) ∧
      m.groups.length ≤ maxGroupsPerMessage ∧ m.hint &&& ~~~hintMask = 0 ∧
      m.data.length + maxGroupName * m.groups.length ≤ maxMessageLen)
    ⟨fun h => ⟨h.1, h.2.1, h.2.2.1, h.2.2.2.1, h.2.2.2.2⟩,
      fun h => ⟨h.kind, h.sender, h.numGroups, h.hint, h.fits⟩⟩

/-- The kinds of messages of a session, with `SELF_DISCARD`. -/
def plainMask : BitVec 32 := 0x0007007f

/-- What the libraries of the clients write: no other bits of the type, names that end, and a group
to join or to leave. The daemons do not check it. -/
structure Message.Plain (m : Message) : Prop where
  type : m.type &&& ~~~plainMask = 0
  groups : ∀ g ∈ m.groups, IsName g
  target : Has m.type joinMess ∨ Has m.type leaveMess → m.groups ≠ []

instance (m : Message) : Decidable m.Plain :=
  decidable_of_iff (m.type &&& ~~~plainMask = 0 ∧ (∀ g ∈ m.groups, IsName g) ∧
      (Has m.type joinMess ∨ Has m.type leaveMess → m.groups ≠ []))
    ⟨fun h => ⟨h.1, h.2.1, h.2.2⟩, fun h => ⟨h.type, h.groups, h.target⟩⟩

/-- How a daemon ends when it reads a message: its body needs a buffer too many, or the length of
the last buffer is written behind it. -/
def Message.readAlarm (m : Message) : Option SessAlarm :=
  if maxScatterElements < numElements m.totalSize then some .tooManyElements
  else if maxScatterElements ≤ m.totalSize / packetBodySize then some .elementOutOfRange
  else none

/-- What a daemon hands down for a message that has a packet type. -/
def Network.down (net : Network n) (i : Fin n) (m : Message) : DownLink :=
  .ofBytes ((packetType m.type).getD .agreed) (m.write (net.byteOrder i))

/-- The message of `Sess_kill`. -/
def killMessage (net : Network n) (i : Fin n) (ses : Session) : Message where
  type := killMess ||| safeMess
  sender := net.member i ses.name
  groups := []
  hint := ByteOrder.big.seen (net.byteOrder i) (setEndian (net.byteOrder i) 0)
  data := []

/-- The session `s` is no longer operational. -/
def clearOp (ss : List Session) (s : Name) : List Session :=
  ss.map fun t => if t.name = s then { t with op := false } else t

/-! ## The cluster -/

structure Cluster (n : ℕ) where
  ring : Ring n
  nodes : Fin n → Node n
  alarm : Option SessAlarm
  /-- The messages that the sessions of each daemon have handed down, each with the name of its
  session. It records the run. -/
  handedDown : Fin n → List (Name × Message)

/-- A daemon delivers a message that is handed up. -/
def Node.handle (net : Network n) (i : Fin n) (node : Node n) (e : Handed (Fin n)) :
    Except SessAlarm (Node n) :=
  match Message.read (net.byteOrder i) e.mess.flatten with
  | none => .error .malformed
  | some (m, _) => node.deliverMessage net i m

namespace Cluster

variable [NeZero n] (conf : Conf) (net : Network n)

def start (n : ℕ) [NeZero n] : Cluster n :=
  ⟨Ring.start n, fun _ => ⟨[], SkipList.empty⟩, none, fun _ => []⟩

inductive Action (n : ℕ)
  /-- A step of the ring. -/
  | daemons (a : Ring.Action n)
  /-- A client connects (`Sess_accept_continue`). -/
  | accept (i : Fin n) (s : Name) (mbox : ℕ) (memb : Bool)
  /-- A daemon has read a message of a session (`Sess_read`). -/
  | read (i : Fin n) (mbox : ℕ) (m : Message)
  /-- A daemon gives a session up (`Sess_kill`). -/
  | kill (i : Fin n) (mbox : ℕ)

/-- What daemon `i` has handed up. -/
def log (x : Cluster n) (i : Fin n) : List (Handed (Fin n)) := (x.ring.daemons i).store.handedUp

def setSessions (x : Cluster n) (i : Fin n) (ss : List Session) : Cluster n :=
  { x with nodes := Function.update x.nodes i { x.nodes i with sessions := ss } }

def clearOp (x : Cluster n) (i : Fin n) (ses : Session) : Cluster n :=
  x.setSessions i (Spread.clearOp (x.nodes i).sessions ses.name)

/-- The daemons after a step of the ring: each has delivered what is new to it. -/
def result (x : Cluster n) (ring : Ring n) (i : Fin n) : Except SessAlarm (Node n) :=
  ((ring.daemons i).store.handedUp.drop (x.log i).length).foldlM (Node.handle net i) (x.nodes i)

/-- The error of a daemon that does not finish. -/
def failure (x : Cluster n) (ring : Ring n) : Option SessAlarm :=
  (List.finRange n).findSome? fun i =>
    match x.result net ring i with
    | .ok _ => none
    | .error e => some e

def afterRing (x : Cluster n) (ring : Ring n) : Cluster n :=
  if (x.failure net ring).isSome then { x with alarm := x.failure net ring }
  else { x with
    ring := ring
    nodes := fun i => (x.result net ring i).toOption.getD (x.nodes i) }

/-- `Prot_new_message`, for a message of the session `ses` of daemon `i`. -/
def submit (x : Cluster n) (i : Fin n) (ses : Session) (m : Message) : Option (Cluster n) :=
  (Ring.step conf x.ring (.newMessage i (net.down i m))).map fun ring => { x with
    ring := ring
    handedDown := Function.update x.handedDown i (x.handedDown i ++ [(ses.name, m)]) }

/-- `Sess_kill`. -/
def sessKill (x : Cluster n) (i : Fin n) (ses : Session) : Option (Cluster n) :=
  (x.clearOp i ses).submit conf net i ses (killMessage net i ses)

/-- What `Sess_read` does with a message: the header, then the body, then what it is for. -/
def sessRead (x : Cluster n) (i : Fin n) (ses : Session) (m : Message) : Option (Cluster n) :=
  if m.Validated net i ses then
    if m.readAlarm.isSome then some { x with alarm := m.readAlarm }
    else if packetType m.type = none then x.sessKill conf net i ses
    else if Has m.type killMess then (x.clearOp i ses).submit conf net i ses m
    else x.submit conf net i ses m
  else x.sessKill conf net i ses

/-- The operational session with a mailbox. -/
def opSession (x : Cluster n) (i : Fin n) (mbox : ℕ) : Option Session :=
  (getSessionIndex (x.nodes i).sessions mbox).filter Session.op

def step (x : Cluster n) (a : Action n) : Option (Cluster n) :=
  if x.alarm.isSome then none
  else
    match a with
    | .daemons (.newMessage _ _) => none
    | .daemons a => (Ring.step conf x.ring a).map (x.afterRing net)
    | .accept i s mbox memb =>
      if IsPrivateName s ∧ ∀ t ∈ (x.nodes i).sessions, t.name ≠ s then
        some (x.setSessions i
          (⟨s, mbox, memb, true, (x.log i).length, []⟩ :: (x.nodes i).sessions))
      else none
    | .read i mbox m => (x.opSession i mbox).bind fun ses => x.sessRead conf net i ses m
    | .kill i mbox => (x.opSession i mbox).bind (x.sessKill conf net i)

def machine : Machine (Cluster n) (Action n) := ⟨start n, step conf net⟩

/-- No copy of the token is late, and clients keep to the format. The system gives no client the
mailbox of a session that is still in the table: a daemon closes the mailbox when the session ends,
and removes the session when its message has come back. -/
def Ok (x : Cluster n) : Action n → Prop
  | .daemons a => x.ring.Timely a
  | .accept i _ mbox _ => ∀ t ∈ (x.nodes i).sessions, t.mbox ≠ mbox
  | .read _ _ m => m.Plain
  | .kill _ _ => True

instance (x : Cluster n) : (a : Action n) → Decidable (x.Ok a)
  | .daemons a => inferInstanceAs (Decidable (x.ring.Timely a))
  | .accept i _ mbox _ => inferInstanceAs (Decidable (∀ t ∈ (x.nodes i).sessions, t.mbox ≠ mbox))
  | .read _ _ m => inferInstanceAs (Decidable m.Plain)
  | .kill _ _ => inferInstanceAs (Decidable True)

end Cluster

end ReplicatedScheduler.Spread
