import ReplicatedScheduler.Spread.Packing
import Mathlib.Data.List.Induction
import Mathlib.Data.List.Nodup
import Mathlib.Data.List.TakeDrop

/-!
# The packets of one daemon

A daemon keeps the packets of its ring by the low bits of their numbers. It delivers them in the
order of their numbers, except that a reliable message of one packet is delivered when it comes
(`Deliver_reliable_packets`), and that a safe one waits until all daemons have it
(`Discard_packets`, which also forgets packets).

**Messages** (`handUps_eq`). What the packets delivered in order hand up is, sender by sender, what
the fragments of the sender chain to.
-/

namespace ReplicatedScheduler.Spread

variable {ι : Type}

/-! ## Packets -/

/-- The errors that end a daemon: `Alarm( EXIT, .. )` and `Alarmp( SPLOG_FATAL, .. )`. -/
inductive Alarm
  /-- `Deliver_packet: sequence error` -/
  | sequenceError
  /-- `Deliver_agreed_packets: Error, packet %d; exist is %d` -/
  | agreedNotExist
  /-- `Deliver_agreed_packets: packet %d already delivered but had wrong type` -/
  | agreedWrongType
  /-- `Discard_packets: (NOT EVS) packet %d not exist` -/
  | discardNotExist
  /-- `Send_new_packets: created packet %d already exist` -/
  | createdExists
  /-- `Answer_retrans: retrans of %d requested while Aru is %d` -/
  | retransBelowAru
  /-- `Prot_handle_token: illegally lowering Aru` -/
  | loweringAru
  deriving DecidableEq, Repr

structure Packet (ι : Type) where
  procId : ι
  seq : ℕ
  contents : Contents
  deriving DecidableEq, Repr

namespace Packet

def first (p : Packet ι) : Fragment := p.contents.first

def type (p : Packet ι) : PacketType := p.contents.type

/-- A reliable message of one packet, which is delivered regardless of what went before. -/
def Single (p : Packet ι) : Prop := p.type = .reliable ∧ p.first.index = -1

instance (p : Packet ι) : Decidable p.Single := inferInstanceAs (Decidable (_ ∧ _))

/-- The up queue for the packet; `none` is the one at `MAX_PROCS_RING`. -/
def upKey (p : Packet ι) : Option ι := if p.Single then none else some p.procId

end Packet

/-- A message handed up to the sessions, with its sender and whether it came in a `Single`
packet. -/
structure Handed (ι : Type) where
  procId : ι
  single : Bool
  mess : List Body
  deriving DecidableEq, Repr

/-- `packet_info` of a packet that exists: `exist` is 2 when it is delivered, else 1. -/
structure PacketInfo (ι : Type) where
  packet : Packet ι
  delivered : Bool
  deriving DecidableEq, Repr

structure Store (ι : Type) where
  /-- `Packets`. -/
  packets : ℕ → Option (PacketInfo ι)
  /-- `Up_queue`: what is chained of a message. -/
  upQueue : Option ι → List Body
  lastDiscarded : ℕ
  lastDelivered : ℕ
  /-- The packets that were delivered, in order. -/
  delivered : List (Packet ι)
  /-- The messages that were handed up, in order. -/
  handedUp : List (Handed ι)

namespace Store

def empty : Store ι := ⟨fun _ => none, fun _ => [], 0, 0, [], []⟩

/-- `seq & PACKET_MASK`. -/
def packetEntry (seq : ℕ) : ℕ := seq &&& 0x1fff

theorem packetEntry_eq (seq : ℕ) : packetEntry seq = seq % 8192 :=
  Nat.and_two_pow_sub_one_eq_mod seq 13

/-- `Packets[seq & PACKET_MASK].exist`. -/
def exist (st : Store ι) (seq : ℕ) : Bool := (st.packets (packetEntry seq)).isSome

/-- A packet is put in its place. -/
def insert (st : Store ι) (p : Packet ι) : Store ι :=
  { st with packets := Function.update st.packets (packetEntry p.seq) (some ⟨p, false⟩) }

@[simp] theorem packets_insert (st : Store ι) (p : Packet ι) : (st.insert p).packets =
    Function.update st.packets (packetEntry p.seq) (some ⟨p, false⟩) := rfl

/-! ## Delivery -/

variable [DecidableEq ι]

/-- What a packet does to the up queues, and the messages that it hands up. -/
def handUp (up : Option ι → List Body) (p : Packet ι) : (Option ι → List Body) × List (Handed ι) :=
  let mess := up p.upKey ++ [p.first.body]
  let whole := p.contents.rest.map fun f => (⟨p.procId, decide p.Single, [f.body]⟩ : Handed ι)
  if p.first.index < 0 then
    (Function.update up p.upKey [], ⟨p.procId, decide p.Single, mess⟩ :: whole)
  else (Function.update up p.upKey mess, whole)

/-- `Deliver_packet` of the packet `p` at place `entry`. -/
def deliverPacket (st : Store ι) (entry : ℕ) (p : Packet ι) : Except Alarm (Store ι) :=
  if (st.upQueue p.upKey).length + 1 ≠ p.first.index.natAbs then .error .sequenceError
  else .ok { st with
    packets := Function.update st.packets entry (some ⟨p, true⟩)
    upQueue := (handUp st.upQueue p).1
    delivered := st.delivered ++ [p]
    handedUp := st.handedUp ++ (handUp st.upQueue p).2 }

/-- The loop of `Deliver_agreed_packets` over `n` packets from number `i` on. -/
def deliverAgreedLoop (st : Store ι) : ℕ → ℕ → Except Alarm (Store ι)
  | 0, _ => .ok st
  | n + 1, i =>
    match st.packets (packetEntry i) with
    | some ⟨p, false⟩ =>
      if p.type ≠ .safe then
        match st.deliverPacket (packetEntry i) p with
        | .ok st' => deliverAgreedLoop { st' with lastDelivered := st'.lastDelivered + 1 } n (i + 1)
        | .error e => .error e
      else .ok st
    | some ⟨p, true⟩ =>
      if p.type = .agreed ∨ p.type = .safe then .error .agreedWrongType
      else deliverAgreedLoop { st with lastDelivered := st.lastDelivered + 1 } n (i + 1)
    | none => .error .agreedNotExist

/-- `Deliver_agreed_packets`. -/
def deliverAgreedPackets (st : Store ι) (myAru : ℕ) : Except Alarm (Store ι) :=
  st.deliverAgreedLoop (myAru - st.lastDelivered) (st.lastDelivered + 1)

/-- The loop of `Deliver_reliable_packets`. -/
def deliverReliableLoop (st : Store ι) : ℕ → ℕ → Except Alarm (Store ι)
  | 0, _ => .ok st
  | n + 1, i =>
    match st.packets (packetEntry i) with
    | some ⟨p, false⟩ =>
      if p.Single then
        match st.deliverPacket (packetEntry i) p with
        | .ok st' => deliverReliableLoop st' n (i + 1)
        | .error e => .error e
      else deliverReliableLoop st n (i + 1)
    | _ => deliverReliableLoop st n (i + 1)

/-- `Deliver_reliable_packets`. -/
def deliverReliablePackets (st : Store ι) (startSeq numPackets : ℕ) : Except Alarm (Store ι) :=
  let first := max startSeq (st.lastDelivered + 1)
  st.deliverReliableLoop (startSeq + numPackets - first) first

/-- The loop of `Discard_packets` in a ring that is installed. -/
def discardLoop (st : Store ι) : ℕ → ℕ → Except Alarm (Store ι)
  | 0, _ => .ok st
  | n + 1, i =>
    match st.packets (packetEntry i) with
    | some ⟨p, false⟩ =>
      match st.deliverPacket (packetEntry i) p with
      | .ok st' => discardLoop
        { st' with packets := Function.update st'.packets (packetEntry i) none } n (i + 1)
      | .error e => .error e
    | some ⟨_, true⟩ =>
      discardLoop { st with packets := Function.update st.packets (packetEntry i) none } n (i + 1)
    | none => .error .discardNotExist

/-- `Discard_packets`. -/
def discardPackets (st : Store ι) (aru : ℕ) : Except Alarm (Store ι) :=
  if aru ≤ st.lastDiscarded then .ok st
  else
    match st.discardLoop (aru - st.lastDiscarded) (st.lastDiscarded + 1) with
    | .ok st' => .ok { st' with
        lastDiscarded := aru
        lastDelivered := max st'.lastDelivered aru }
    | .error e => .error e

end Store

/-! ## The order of the packets -/

/-- The packets that are delivered in the order of their numbers. -/
def inOrder (ps : List (Packet ι)) : List (Packet ι) := ps.filter fun p => ¬ p.Single

theorem inOrder_append (ps qs : List (Packet ι)) :
    inOrder (ps ++ qs) = inOrder ps ++ inOrder qs := List.filter_append ..

theorem inOrder_of_single {p : Packet ι} (h : p.Single) : inOrder [p] = [] := by
  simp [inOrder, h]

theorem inOrder_of_not_single {p : Packet ι} (h : ¬ p.Single) : inOrder [p] = [p] := by
  simp [inOrder, h]

theorem seq_le {order : List (Packet ι)} {p : Packet ι} (h : order[p.seq - 1]? = some p)
    (hpos : 0 < p.seq) : p.seq ≤ order.length := by
  obtain ⟨hlt, -⟩ := List.getElem?_eq_some_iff.mp h
  omega

variable [DecidableEq ι]

/-- The fragments that a daemon has sent. -/
def fragmentsOf (i : ι) (ps : List (Packet ι)) : List Fragment :=
  (ps.filter fun p => p.procId = i).flatMap fun p => p.contents.fragments

/-- The messages that packets delivered in order hand up, with what they leave chained. -/
def handUps (ps : List (Packet ι)) : (Option ι → List Body) × List (Handed ι) :=
  ps.foldl (fun s p => ((Store.handUp s.1 p).1, s.2 ++ (Store.handUp s.1 p).2)) (fun _ => [], [])

/-- The packets of a ring, in the order of their numbers. -/
structure Sequenced (order : List (Packet ι)) : Prop where
  numbered : ∀ k p, order[k]? = some p → p.seq = k + 1
  chained : ∀ i, Chained 0 (fragmentsOf i order)
  whole : ∀ p ∈ order, p.contents.Whole ∧ (¬ p.first.index < 0 → p.contents.rest = [])

theorem fragmentsOf_append (i : ι) (ps qs : List (Packet ι)) :
    fragmentsOf i (ps ++ qs) = fragmentsOf i ps ++ fragmentsOf i qs := by
  rw [fragmentsOf, List.filter_append, List.flatMap_append]
  rfl

theorem fragmentsOf_singleton (i : ι) (p : Packet ι) :
    fragmentsOf i [p] = if p.procId = i then p.contents.fragments else [] := by
  unfold fragmentsOf
  by_cases h : p.procId = i <;> simp [h]

theorem fragmentsOf_of_ne {i : ι} {ps : List (Packet ι)} (h : ∀ p ∈ ps, p.procId ≠ i) :
    fragmentsOf i ps = [] := by
  have hnone : ps.filter (fun p => p.procId = i) = [] := by
    simpa [List.filter_eq_nil_iff] using h
  rw [fragmentsOf, hnone]
  rfl

/-- Taking out packets of whole messages leaves the fragments in order. -/
theorem chained_inOrder (i : ι) {n : ℕ} {ps : List (Packet ι)} (h : Chained n (fragmentsOf i ps))
    (hwhole : ∀ p ∈ ps, p.contents.Whole) : Chained n (fragmentsOf i (inOrder ps)) := by
  induction ps generalizing n with
  | nil => exact h
  | cons p ps ih =>
    have hrest : ∀ q ∈ ps, q.contents.Whole := fun q hq => hwhole q (List.mem_cons_of_mem _ hq)
    have hcons : ∀ qs, fragmentsOf i (p :: qs) = fragmentsOf i [p] ++ fragmentsOf i qs :=
      fun qs => fragmentsOf_append i [p] qs
    have hin : inOrder (p :: ps) = inOrder [p] ++ inOrder ps := inOrder_append [p] ps
    rw [hcons] at h
    rw [hin]
    by_cases hi : p.procId = i
    · have hfrags : fragmentsOf i [p] = p.contents.fragments := by
        rw [fragmentsOf_singleton, if_pos hi]
      rw [hfrags] at h
      by_cases hs : p.Single
      · rw [inOrder_of_single hs, List.nil_append]
        -- a packet of whole messages comes where no message is begun
        have hn : n = 0 := by
          have habs : p.first.index.natAbs = n + 1 := h.1
          rw [hs.2] at habs
          simpa using habs.symm
        subst hn
        have hrest' := chained_rest [] h
        rw [chain_whole] at hrest'
        · exact ih hrest' hrest
        · intro f hf
          rcases List.mem_cons.mp hf with rfl | hf
          · exact hs.2
          · exact hwhole p List.mem_cons_self f hf
      · rw [inOrder_of_not_single hs, fragmentsOf_append, hfrags]
        obtain ⟨mess, rfl⟩ : ∃ mess : List Body, mess.length = n :=
          ⟨List.replicate n [], List.length_replicate⟩
        have hrest' := ih (chained_rest _ h) hrest
        exact chained_append_of mess h hrest'
    · rw [fragmentsOf_singleton, if_neg hi, List.nil_append] at h
      have hnone : fragmentsOf i (inOrder [p]) = [] := by
        by_cases hs : p.Single
        · rw [inOrder_of_single hs]
          rfl
        · rw [inOrder_of_not_single hs, fragmentsOf_singleton, if_neg hi]
      rw [fragmentsOf_append, hnone, List.nil_append]
      exact ih h hrest

theorem handUps_append (ps qs : List (Packet ι)) : ∃ hs, (handUps (ps ++ qs)).2 =
    (handUps ps).2 ++ hs := by
  induction qs using List.reverseRecOn with
  | nil => exact ⟨[], by simp⟩
  | append_singleton qs q ih =>
    obtain ⟨hs, h⟩ := ih
    refine ⟨hs ++ (Store.handUp (handUps (ps ++ qs)).1 q).2, ?_⟩
    rw [← List.append_assoc, handUps, List.foldl_append, ← List.append_assoc, ← h]
    rfl

theorem handUps_concat (ps : List (Packet ι)) (p : Packet ι) : handUps (ps ++ [p]) =
    ((Store.handUp (handUps ps).1 p).1, (handUps ps).2 ++ (Store.handUp (handUps ps).1 p).2) := by
  rw [handUps, List.foldl_append]
  rfl

/-- The messages of packets delivered in order, sender by sender, are what their fragments
chain to. -/
theorem handUps_eq {ps : List (Packet ι)} (hs : ∀ p ∈ ps, ¬ p.Single)
    (hwhole : ∀ p ∈ ps, p.contents.Whole ∧ (¬ p.first.index < 0 → p.contents.rest = [])) (i : ι) :
    (handUps ps).1 none = [] ∧ (handUps ps).1 (some i) = chain [] (fragmentsOf i ps) ∧
      ((handUps ps).2.filter fun h => h.procId = i).map Handed.mess =
        assemble [] (fragmentsOf i ps) := by
  induction ps using List.reverseRecOn with
  | nil => exact ⟨rfl, rfl, rfl⟩
  | append_singleton ps p ih =>
    obtain ⟨hnone, hup, hmess⟩ := ih (fun q hq => hs q (List.mem_append_left _ hq))
      fun q hq => hwhole q (List.mem_append_left _ hq)
    have hp : ¬ p.Single := hs p (by simp)
    obtain ⟨hw, hrest⟩ := hwhole p (by simp)
    have hkey : p.upKey = some p.procId := if_neg hp
    rw [handUps_concat, fragmentsOf_append, fragmentsOf_singleton, chain_append, assemble_append,
      ← hup, ← hmess]
    unfold Store.handUp
    rw [hkey, List.filter_append, List.map_append]
    by_cases hi : p.procId = i
    · subst hi
      rw [if_pos rfl, Contents.fragments, chain, assemble]
      by_cases hneg : p.first.index < 0
      · have hneg' : p.contents.first.index < 0 := hneg
        simp only [if_pos hneg, if_pos hneg']
        refine ⟨by simpa using hnone, by simp [chain_whole hw], ?_⟩
        rw [assemble_whole hw]
        simp [List.filter_map, Function.comp_def, Packet.first]
      · have hneg' : ¬ p.contents.first.index < 0 := hneg
        simp only [if_neg hneg, if_neg hneg', hrest hneg]
        exact ⟨by simpa using hnone, by simp [chain, Packet.first], by simp [assemble]⟩
    · rw [if_neg hi]
      have hne : some i ≠ some p.procId := fun h => hi (Option.some.inj h).symm
      by_cases hneg : p.first.index < 0
      · simp only [if_pos hneg]
        refine ⟨by simpa using hnone, by simp [chain, hne], ?_⟩
        simp [assemble, hi, List.filter_map, Function.comp_def]
      · simp only [if_neg hneg]
        refine ⟨by simpa using hnone, by simp [chain, hne], ?_⟩
        simp [assemble, hi, List.filter_map, Function.comp_def]

end ReplicatedScheduler.Spread
