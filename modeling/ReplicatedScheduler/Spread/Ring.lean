import ReplicatedScheduler.Lib.Circulation
import ReplicatedScheduler.Lib.Machine
import ReplicatedScheduler.Spread.StoreInvariant
import Mathlib.Data.BitVec

/-!
# The token ring of the daemons

The daemons of one installed membership pass a token round. The daemon that has it resends what
others asked for, numbers and sends packets of its own, asks for what it lacks, and passes the
token on (`Prot_handle_token`). Packets arrive at any time (`Prot_handle_bcast`).

**The network.** A packet or a token that was sent can arrive any number of times, in any order, or
never. A copy of a token remembers the round in which it was sent (`Copy.round`); no daemon reads
that.

**Errors.** Where the daemon calls `Alarm( EXIT, .. )` or has a `SPLOG_FATAL`, the run ends with the
alarm recorded in the state.

The fields `order` and `submitted` record the run: the packets in the order in which they were
numbered, and the messages handed down.
-/

namespace ReplicatedScheduler.Spread

open Lib Lts

/-- What `FC_init` reads from the configuration. -/
structure Conf where
  window : BitVec 16
  personalWindow : BitVec 16
  acceleratedRing : Bool

/-- `MAX_SEQ_GAP`. -/
def maxSeqGap : ℕ := 1600

/-- With this personal window the numbers in use have places of their own. -/
def Conf.Fits (conf : Conf) : Prop := maxSeqGap + conf.personalWindow.toInt ≤ 8192

instance (conf : Conf) : Decidable conf.Fits := inferInstanceAs (Decidable (_ ≤ _))

/-- `token_header`, with the numbers of the packets asked for behind it. `arq` and `retrans` are
bits of its type. -/
structure Token (n : ℕ) where
  arq : ℕ
  retrans : ℕ
  seq : ℕ
  aru : ℕ
  aruLastId : Option (Fin n)
  flowControl : BitVec 16
  rtr : List ℕ
  deriving DecidableEq

structure Daemon (n : ℕ) where
  store : Store (Fin n)
  aru : ℕ
  myAru : ℕ
  highestSeq : ℕ
  lastToken : Token n
  receivedTokenRounds : ℕ
  tokenCounter : ℕ
  lastNumRetrans : ℕ
  lastNumSent : ℕ
  downQueue : DownQueue

/-- A token on its way. -/
structure Copy (n : ℕ) where
  dest : Fin n
  round : ℕ
  token : Token n

def Token.start (n : ℕ) : Token n := ⟨0, 0, 0, 0, none, 0, []⟩

/-- The bound that the token carries. -/
def Token.passing {n : ℕ} (t : Token n) : Passing (Fin n) ℕ := ⟨t.seq, t.aru, t.aruLastId⟩

def Daemon.start (n : ℕ) : Daemon n := ⟨Store.empty, 0, 0, 0, Token.start n, 0, 0, 0, 0, []⟩

/-! ## Packets -/

/-- `a` moved on over at most `k` packets that exist. -/
def Store.advance {ι : Type} (st : Store ι) : ℕ → ℕ → ℕ
  | 0, a => a
  | k + 1, a => if st.exist (a + 1) then st.advance k (a + 1) else a

namespace Daemon

variable {n : ℕ}

/-- `My_aru` moved on over the packets that exist. -/
def advance (d : Daemon n) : ℕ := d.store.advance (d.highestSeq - d.myAru) d.myAru

/-- `Prot_handle_bcast` of a regular packet of the ring. -/
def handleBcast (d : Daemon n) (p : Packet (Fin n)) : Except Alarm (Daemon n) :=
  if p.seq ≤ d.store.lastDiscarded then .ok d
  else if d.store.exist p.seq then .ok d
  else
    let d' := { d with
      store := d.store.insert p
      highestSeq := max d.highestSeq p.seq }
    if p.seq = d.myAru + 1 then
      match d'.store.deliverAgreedPackets d'.advance with
      | .ok st => .ok { d' with store := st, myAru := d'.advance }
      | .error e => .error e
    else
      match d'.store.deliverReliablePackets p.seq 1 with
      | .ok st => .ok { d' with store := st }
      | .error e => .error e

/-! ## The visit of the token -/

/-- `Answer_retrans`: the packets sent again. -/
def answerRetrans (d : Daemon n) : List ℕ → Except Alarm (List (Packet (Fin n)))
  | [] => .ok []
  | req :: reqs =>
    if req < d.aru then .error .retransBelowAru
    else
      match d.answerRetrans reqs with
      | .ok resent =>
        match d.store.packets (Store.packetEntry req) with
        | some i => .ok (i.packet :: resent)
        | none => .ok resent
      | .error e => .error e

/-- `FC_allowed`. -/
def fcAllowed (conf : Conf) (d : Daemon n) (flowControl : BitVec 16) : ℤ :=
  if d.aru + maxSeqGap < d.highestSeq then 0
  else
    let allowed := max 0 (conf.window.toInt + conf.personalWindow.toInt - flowControl.toInt)
    min (min allowed conf.window.toInt) conf.personalWindow.toInt

/-- `Send_new_packets` of at most `k` packets. -/
def sendNewPackets (me : Fin n) : ℕ → Daemon n → Except Alarm (Daemon n × List (Packet (Fin n)))
  | 0, d => .ok (d, [])
  | k + 1, d =>
    match takePacket d.downQueue with
    | none => .ok (d, [])
    | some (contents, rest) =>
      let p : Packet (Fin n) := ⟨me, d.highestSeq + 1, contents⟩
      if d.store.exist p.seq then .error .createdExists
      else
        let d' := { d with
          store := d.store.insert p
          highestSeq := p.seq
          downQueue := rest }
        match sendNewPackets me k d' with
        | .ok (d'', sent) => .ok (d'', p :: sent)
        | .error e => .error e

/-- How many requests fit on the token. -/
def retransAllowed : ℕ := (65467 - 16) / 4

/-- The packets up to `maxRtrSeq` that the daemon asks for. -/
def requests (d : Daemon n) (maxRtrSeq : ℕ) : List ℕ :=
  ((List.range' (d.myAru + 1) (maxRtrSeq - d.myAru)).filter fun q => !d.store.exist q).take
    retransAllowed

variable [NeZero n]

/-- The token as the daemon passes it on, once it has sent its packets. -/
def passToken (conf : Conf) (me : Fin n) (d : Daemon n) (t : Token n) (numRetrans numSent : ℕ) :
    Token n :=
  let passing := t.passing.adjust me d.myAru
  { arq := if me = 0 then (t.arq + 1) % 16 else t.arq
    retrans := if me = 0 then 0 else t.retrans
    seq := d.highestSeq
    aru := passing.bound
    aruLastId := passing.setter
    flowControl := t.flowControl - BitVec.ofNat 16 d.lastNumRetrans -
      BitVec.ofNat 16 d.lastNumSent + BitVec.ofNat 16 numRetrans + BitVec.ofNat 16 numSent
    rtr := d.requests (if conf.acceleratedRing then d.lastToken.seq else d.highestSeq) }

/-- The `Aru` that follows from the `aru` of the token and of the last token. -/
def nextAru (aru tokenAru lastAru : ℕ) : Except Alarm ℕ :=
  if lastAru < tokenAru then if aru ≤ lastAru then .ok lastAru else .error .loweringAru
  else if aru ≤ tokenAru then .ok tokenAru else .error .loweringAru

/-- `Is_token_hold`, which `To_hold_token` repeats. -/
def isTokenHold (d : Daemon n) : Prop :=
  d.lastToken.retrans ≤ 1 ∧ d.aru = d.highestSeq ∧ 1 < d.tokenCounter

instance (d : Daemon n) : Decidable d.isTokenHold := inferInstanceAs (Decidable (_ ∧ _))

/-- The deliveries at the end of a visit. -/
def deliver (d : Daemon n) (numSent : ℕ) : Except Alarm (Store (Fin n)) := do
  let st ← d.store.discardPackets d.aru
  let st ← st.deliverAgreedPackets d.myAru
  st.deliverReliablePackets (d.highestSeq - numSent + 1) numSent

/-- How often a token with these `retrans` is sent. -/
def copies (retrans : ℕ) : ℕ := if 1 < retrans then 3 else 1

/-- What a visit of the token comes to. -/
structure Visit (n : ℕ) where
  daemon : Daemon n
  resent : List (Packet (Fin n))
  sent : List (Packet (Fin n))
  /-- How many copies of the token were sent on. -/
  copies : ℕ

/-- `Prot_handle_token` of a token that is not swallowed. -/
def visit (conf : Conf) (me : Fin n) (d : Daemon n) (t : Token n) : Except Alarm (Visit n) := do
  let d := { d with
    highestSeq := max d.highestSeq t.seq
    receivedTokenRounds := d.receivedTokenRounds + 1 }
  let resent ← d.answerRetrans t.rtr
  let (d, sent) ← sendNewPackets me (fcAllowed conf d t.flowControl).toNat d
  let d := { d with myAru := d.advance }
  let token := d.passToken conf me t resent.length sent.length
  let copies := if me = 0 ∧ d.isTokenHold then 0 else copies token.retrans
  let aru ← nextAru d.aru token.aru d.lastToken.aru
  let d := { d with
    aru := aru
    lastNumRetrans := resent.length
    lastNumSent := sent.length
    tokenCounter := if d.highestSeq = aru then d.tokenCounter + 1 else 0
    lastToken := token }
  let st ← d.deliver sent.length
  return ⟨{ d with store := st }, resent, sent, copies⟩

/-- The token is taken up: it is the one that comes after the last. -/
def Accepts (me : Fin n) (d : Daemon n) (t : Token n) : Prop :=
  if me = 0 then t.arq = d.lastToken.arq else t.arq = (d.lastToken.arq + 1) % 16

instance (me : Fin n) (d : Daemon n) (t : Token n) : Decidable (Accepts me d t) := by
  unfold Accepts
  infer_instance

/-- The last token, as `Prot_token_hurry` sends it again. -/
def hurry (me : Fin n) (d : Daemon n) : Daemon n :=
  { d with lastToken := { d.lastToken with
    rtr := []
    retrans := if me = 0 then (d.lastToken.retrans + 1) % 16 else d.lastToken.retrans } }

end Daemon

/-! ## The ring -/

structure Ring (n : ℕ) where
  daemons : Fin n → Daemon n
  packets : List (Packet (Fin n))
  tokens : List (Copy n)
  /-- The daemons that asked the leader to hurry. -/
  hurries : List (Fin n)
  order : List (Packet (Fin n))
  submitted : Fin n → List DownLink
  alarm : Option Alarm

namespace Ring

variable {n : ℕ} [NeZero n]

/-- A new ring: the token is on its way to the leader. -/
def start (n : ℕ) [NeZero n] : Ring n where
  daemons := fun _ => Daemon.start n
  packets := []
  tokens := [⟨0, 0, Token.start n⟩]
  hurries := []
  order := []
  submitted := fun _ => []
  alarm := none

inductive Action (n : ℕ)
  /-- A session hands a message down (`Prot_new_message`). -/
  | newMessage (i : Fin n) (m : DownLink)
  /-- A packet sent arrives at a daemon. -/
  | bcast (i : Fin n) (k : ℕ)
  /-- A copy of the token arrives where it was sent. -/
  | token (k : ℕ)
  /-- The timer of the leader runs out (`Prot_token_hurry_event`). -/
  | hurryEvent
  /-- A request to hurry arrives at the leader. -/
  | hurry (k : ℕ)

def set (x : Ring n) (i : Fin n) (d : Daemon n) : Ring n :=
  { x with daemons := Function.update x.daemons i d }

def fail (x : Ring n) (e : Alarm) : Ring n := { x with alarm := some e }

/-- The last token of `i` is sent on, `k` times. -/
def sendToken (x : Ring n) (i : Fin n) (k : ℕ) : Ring n :=
  let d := x.daemons i
  { x with tokens :=
      x.tokens ++ List.replicate k ⟨i + 1, d.receivedTokenRounds, d.lastToken⟩ }

/-- `Prot_token_hurry`. -/
def tokenHurry (x : Ring n) (i : Fin n) : Ring n :=
  let d := (x.daemons i).hurry i
  (x.set i d).sendToken i (Daemon.copies d.lastToken.retrans)

/-- `Handle_hurry` at the leader. -/
def handleHurry (x : Ring n) : Ring n :=
  if (x.daemons 0).isTokenHold then
    (x.set 0 { x.daemons 0 with tokenCounter := 0 }).tokenHurry 0
  else x

/-- `Prot_new_message`. -/
def newMessage (x : Ring n) (i : Fin n) (m : DownLink) : Ring n :=
  let d := x.daemons i
  let x' := { x.set i { d with downQueue := protNewMessage d.downQueue m } with
    submitted := Function.update x.submitted i (x.submitted i ++ [m]) }
  if d.downQueue = [] ∧ d.isTokenHold then
    if i = 0 then x'.handleHurry else { x' with hurries := x'.hurries ++ [i] }
  else x'

/-- The daemon after a visit, and what it has sent. -/
def afterVisit (x : Ring n) (i : Fin n) (v : Daemon.Visit n) : Ring n :=
  { x.set i v.daemon with
    packets := x.packets ++ v.resent ++ v.sent
    order := x.order ++ v.sent }.sendToken i v.copies

/-- `MAX_WRAP_SEQUENCE_VALUE`. -/
def maxWrapSequence : ℕ := 2 ^ 30

/-- `Prot_handle_token`. -/
def handleToken (conf : Conf) (x : Ring n) (i : Fin n) (t : Token n) : Ring n :=
  let d := x.daemons i
  if maxWrapSequence < t.seq then x
  else if d.Accepts i t then
    match d.visit conf i t with
    | .ok v => x.afterVisit i v
    | .error e => x.fail e
  else if i ≠ 0 ∧ t.arq = d.lastToken.arq ∧ d.lastToken.retrans < t.retrans then
    (x.set i { d with lastToken := { d.lastToken with retrans := t.retrans } }).tokenHurry i
  else x

def step (conf : Conf) (x : Ring n) (a : Action n) : Option (Ring n) :=
  if x.alarm.isSome then none
  else
    match a with
    | .newMessage i m => some (x.newMessage i m)
    | .bcast i k => x.packets[k]?.map fun p =>
      match (x.daemons i).handleBcast p with
      | .ok d => x.set i d
      | .error e => x.fail e
    | .token k => x.tokens[k]?.map fun copy => x.handleToken conf copy.dest copy.token
    | .hurryEvent => some (x.tokenHurry 0)
    | .hurry k => x.hurries[k]?.map fun _ => x.handleHurry

def machine (conf : Conf) : Machine (Ring n) (Action n) := ⟨start n, step conf⟩

/-- No copy of the token is so late that its `arq`, of four bits, has come round again. -/
def Timely (x : Ring n) : Action n → Prop
  | .token k => ∀ copy ∈ x.tokens[k]?,
    (x.daemons copy.dest).receivedTokenRounds < copy.round + 15
  | _ => True

instance (x : Ring n) (a : Action n) : Decidable (x.Timely a) := by
  cases a <;> unfold Timely <;> infer_instance

end Ring

end ReplicatedScheduler.Spread
