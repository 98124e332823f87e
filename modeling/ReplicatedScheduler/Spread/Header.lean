import ReplicatedScheduler.Lib.Bytes
import ReplicatedScheduler.Spread.Packing
import Mathlib.Data.List.Nodup

/-!
# Messages of sessions

A session's message has a header, the groups that it is for, and its data. The header's words are
in the byte order of the machine that wrote it, which two bits of its type tell; a machine of the
other order flips the type and the two lengths (`Flip_mess`), and leaves the hint alone.

**Theorem (`Message.read_write`).** What a machine of any order reads of a message is what one of
any order wrote.

**Theorem (`packetType_control`).** A session's joins and leaves, and its end, go out as agreed
packets: a message that is validated has exactly one kind.
-/

namespace ReplicatedScheduler.Spread

open Lib

/-- A string without its terminating zero. -/
abbrev Name := Bytes

/-- The text of a name, in ISO 8859-1. -/
def name (s : String) : Name := s.toList.map fun c => BitVec.ofNat 8 c.toNat

/-! ## Types of messages -/

def unreliableMess : BitVec 32 := 0x00000001
def reliableMess : BitVec 32 := 0x00000002
def fifoMess : BitVec 32 := 0x00000004
def causalMess : BitVec 32 := 0x00000008
def agreedMess : BitVec 32 := 0x00000010
def safeMess : BitVec 32 := 0x00000020
def selfDiscard : BitVec 32 := 0x00000040
def joinMess : BitVec 32 := 0x00010000
def leaveMess : BitVec 32 := 0x00020000
def killMess : BitVec 32 := 0x00040000

/-- A type has one of the bits of a mask. -/
def Has (type mask : BitVec 32) : Prop := type &&& mask ≠ 0

instance (type mask : BitVec 32) : Decidable (Has type mask) := inferInstanceAs (Decidable (_ ≠ _))

/-- `Message_get_packet_type`. -/
def packetType (type : BitVec 32) : Option PacketType :=
  if Has type unreliableMess then some .reliable
  else if Has type reliableMess then some .reliable
  else if Has type fifoMess then some .fifo
  else if Has type causalMess ∨ Has type agreedMess then some .agreed
  else if Has type safeMess then some .safe
  else if Has type joinMess then some .agreed
  else if Has type leaveMess then some .agreed
  else if Has type killMess then some .agreed
  else none

/-- `count_bits_set`: how many bits from `first` on and before `last` are set. -/
def countBitsSet (type : BitVec 32) (first last : ℕ) : ℕ :=
  ((List.range (last - first)).filter fun i => type.getLsbD (first + i)).length

/-- One kind of message, and only one. -/
def OneKind (type : BitVec 32) : Prop :=
  countBitsSet type 0 6 ≤ 1 ∧ countBitsSet type 16 19 ≤ 1 ∧
    countBitsSet type 0 6 + countBitsSet type 16 19 = 1

instance (type : BitVec 32) : Decidable (OneKind type) := inferInstanceAs (Decidable (_ ∧ _))

/-- A message that changes groups: a join, a leave or the end of a session. -/
def IsControl (type : BitVec 32) : Prop :=
  Has type joinMess ∨ Has type leaveMess ∨ Has type killMess

instance (type : BitVec 32) : Decidable (IsControl type) := inferInstanceAs (Decidable (_ ∨ _))

theorem has_twoPow (type : BitVec 32) {k : ℕ} (hk : k < 32) :
    Has type (BitVec.twoPow 32 k) ↔ type.getLsbD k = true := by
  rw [Has, BitVec.and_twoPow]
  split_ifs with hbit
  · simp only [hbit, iff_true]
    intro h
    have hzero := congrArg (fun w => w.getLsbD k) h
    simp [hk] at hzero
  · simp [hbit]

theorem pos_countBitsSet {type : BitVec 32} {first last k : ℕ} (hk : first ≤ k ∧ k < last)
    (h : type.getLsbD k = true) : 0 < countBitsSet type first last := by
  refine List.length_pos_of_mem (a := k - first) (List.mem_filter.mpr ⟨?_, ?_⟩)
  · rw [List.mem_range]
    omega
  · rw [show first + (k - first) = k by omega]
    exact h

theorem pos_of_isControl {type : BitVec 32} (h : IsControl type) :
    0 < countBitsSet type 16 19 := by
  rcases h with h | h | h
  · exact @pos_countBitsSet type 16 19 16 (by omega) ((has_twoPow type (by omega)).mp h)
  · exact @pos_countBitsSet type 16 19 17 (by omega) ((has_twoPow type (by omega)).mp h)
  · exact @pos_countBitsSet type 16 19 18 (by omega) ((has_twoPow type (by omega)).mp h)

/-- **Joins, leaves and ends of sessions are agreed.** -/
theorem packetType_control {type : BitVec 32} (hkind : OneKind type) (h : IsControl type) :
    packetType type = some .agreed := by
  have hcontrol := pos_of_isControl h
  obtain ⟨-, -, hone⟩ := hkind
  have hnone : ∀ k, k < 6 → ¬ Has type (BitVec.twoPow 32 k) := fun k hk hhas => by
    have hbit : 0 < countBitsSet type 0 6 :=
      pos_countBitsSet ⟨Nat.zero_le k, hk⟩ ((has_twoPow type (by omega)).mp hhas)
    omega
  have h₀ : ¬ Has type unreliableMess := hnone 0 (by omega)
  have h₁ : ¬ Has type reliableMess := hnone 1 (by omega)
  have h₂ : ¬ Has type fifoMess := hnone 2 (by omega)
  have h₃ : ¬ Has type causalMess := hnone 3 (by omega)
  have h₄ : ¬ Has type agreedMess := hnone 4 (by omega)
  have h₅ : ¬ Has type safeMess := hnone 5 (by omega)
  rw [packetType, if_neg h₀, if_neg h₁, if_neg h₂, if_neg (not_or.mpr ⟨h₃, h₄⟩), if_neg h₅]
  rcases h with h | h | h
  · rw [if_pos h]
  · rw [if_pos h, ite_self]
  · rw [if_pos h, ite_self, ite_self]

/-! ## Byte orders -/

/-- The bits of a type that tell the byte order. -/
def endianType : BitVec 32 := 0x80000080

def archEndian : ByteOrder → BitVec 32
  | .big => 0x00000000
  | .little => 0x80000080

/-- `Set_endian`. -/
def setEndian (o : ByteOrder) (type : BitVec 32) : BitVec 32 :=
  (type &&& ~~~endianType) ||| archEndian o

/-- `Same_endian`. -/
def SameEndian (o : ByteOrder) (type : BitVec 32) : Prop := type &&& endianType = archEndian o

instance (o : ByteOrder) (type : BitVec 32) : Decidable (SameEndian o type) :=
  inferInstanceAs (Decidable (_ = _))

/-- `Clear_endian`. -/
def clearEndian (type : BitVec 32) : BitVec 32 := type &&& ~~~endianType

theorem flipInt32_endianType : flipInt32 endianType = endianType := by decide

theorem archEndian_injective {o o' : ByteOrder} (h : archEndian o = archEndian o') : o = o' := by
  cases o <;> cases o' <;> first | rfl | exact absurd h (by decide)

theorem setEndian_and (o : ByteOrder) (type : BitVec 32) :
    setEndian o type &&& endianType = archEndian o := by
  ext i hi
  cases o <;> simp only [setEndian, archEndian, endianType, BitVec.getElem_and,
    BitVec.getElem_or, BitVec.getElem_not] <;> grind

theorem clearEndian_setEndian (o : ByteOrder) (type : BitVec 32) :
    clearEndian (setEndian o type) = clearEndian type := by
  ext i hi
  cases o <;> simp only [clearEndian, setEndian, archEndian, endianType, BitVec.getElem_and,
    BitVec.getElem_or, BitVec.getElem_not] <;> grind

theorem clearEndian_eq {type : BitVec 32} (h : type &&& endianType = 0) :
    clearEndian type = type := by
  ext i hi
  have := congrArg (fun w => w.getLsbD i) h
  simp only [clearEndian, BitVec.getElem_and, BitVec.getElem_not,
    BitVec.getLsbD_eq_getElem hi] at this ⊢
  grind

/-! ## Headers -/

def maxGroupName : ℕ := 32

/-- `message_header`, as a machine has it in its memory. -/
structure MessageHeader where
  type : BitVec 32
  privateGroupName : Name
  numGroups : BitVec 32
  hint : BitVec 32
  dataLen : BitVec 32
  deriving DecidableEq, Repr

namespace MessageHeader

def write (o : ByteOrder) (h : MessageHeader) : Bytes :=
  o.write h.type ++ field maxGroupName h.privateGroupName ++ o.write h.numGroups ++
    o.write h.hint ++ o.write h.dataLen

def read (o : ByteOrder) (input : Bytes) : Option (MessageHeader × Bytes) := do
  let (type, input) ← o.read input
  let (privateGroupName, input) ← readBytes maxGroupName input
  let (numGroups, input) ← o.read input
  let (hint, input) ← o.read input
  let (dataLen, input) ← o.read input
  return (⟨type, cString privateGroupName, numGroups, hint, dataLen⟩, input)

/-- `Flip_mess`. -/
def flipMess (h : MessageHeader) : MessageHeader :=
  { h with type := flipInt32 h.type, numGroups := flipInt32 h.numGroups, dataLen := flipInt32 h.dataLen }

/-- `Message_endian_correct_message_header`. -/
def endianCorrect (o : ByteOrder) (h : MessageHeader) : MessageHeader :=
  if SameEndian o h.type then h else h.flipMess

end MessageHeader

/-- A string that fits in the field of a name, with its terminating zero. -/
structure IsName (s : Name) : Prop where
  noZero : 0 ∉ s
  fits : s.length < maxGroupName

instance (s : Name) : Decidable (IsName s) :=
  decidable_of_iff (0 ∉ s ∧ s.length < maxGroupName) ⟨fun h => ⟨h.1, h.2⟩, fun h => ⟨h.1, h.2⟩⟩

theorem MessageHeader.read_write (o o' : ByteOrder) {h : MessageHeader}
    (hname : IsName h.privateGroupName) (rest : Bytes) :
    read o (h.write o' ++ rest) = some (⟨o.seen o' h.type, h.privateGroupName,
      o.seen o' h.numGroups, o.seen o' h.hint, o.seen o' h.dataLen⟩, rest) := by
  have hstr : cString (field maxGroupName h.privateGroupName) = h.privateGroupName := by
    simpa using cString_field hname.noZero hname.fits []
  simp only [write, read, List.append_assoc, ByteOrder.read_write, Option.bind_eq_bind,
    Option.bind_some, readBytes_append (length_field _ _), hstr]
  rfl

/-! ## Messages -/

/-- What a session sends. The hint is as a machine of the order big reads it. -/
structure Message where
  type : BitVec 32
  sender : Name
  groups : List Name
  hint : BitVec 32
  data : Bytes
  deriving DecidableEq, Repr

def maxGroupsPerMessage : ℕ := 100

/-- `sizeof(message_header)`. -/
def messageHeaderSize : ℕ := 48

/-- `MAX_MESSAGE_BODY_LEN - head_size`. -/
def maxMessageLen : ℕ := 144000 - 48

namespace Message

/-- All bytes of a message. -/
def totalSize (m : Message) : ℕ :=
  m.data.length + maxGroupName * m.groups.length + messageHeaderSize

/-- The header, as a machine of order `o` has it in its memory. -/
def header (o : ByteOrder) (m : Message) : MessageHeader where
  type := setEndian o m.type
  privateGroupName := m.sender
  numGroups := BitVec.ofNat 32 m.groups.length
  hint := o.seen .big m.hint
  dataLen := BitVec.ofNat 32 m.data.length

def write (o : ByteOrder) (m : Message) : Bytes :=
  (m.header o).write o ++ m.groups.flatMap (field maxGroupName) ++ m.data

/-- The names of the next groups. -/
def readGroups : ℕ → Bytes → Option (List Name × Bytes)
  | 0, input => some ([], input)
  | k + 1, input => do
    let (g, input) ← readBytes maxGroupName input
    let (gs, input) ← readGroups k input
    return (cString g :: gs, input)

/-- The message at the front of the input. -/
def read (o : ByteOrder) (input : Bytes) : Option (Message × Bytes) := do
  let (h, input) ← MessageHeader.read o input
  let h := h.endianCorrect o
  let (groups, input) ← readGroups h.numGroups.toNat input
  let (data, input) ← readBytes h.dataLen.toNat input
  return (⟨clearEndian h.type, h.privateGroupName, groups, ByteOrder.big.seen o h.hint, data⟩,
    input)

/-- The message of a client that keeps to the format. -/
structure Valid (m : Message) : Prop where
  type : m.type &&& endianType = 0
  sender : IsName m.sender
  groups : ∀ g ∈ m.groups, IsName g
  numGroups : m.groups.length ≤ maxGroupsPerMessage
  fits : m.data.length + maxGroupName * m.groups.length ≤ maxMessageLen

instance (m : Message) : Decidable m.Valid :=
  decidable_of_iff (m.type &&& endianType = 0 ∧ IsName m.sender ∧ (∀ g ∈ m.groups, IsName g) ∧
      m.groups.length ≤ maxGroupsPerMessage ∧
      m.data.length + maxGroupName * m.groups.length ≤ maxMessageLen)
    ⟨fun h => ⟨h.1, h.2.1, h.2.2.1, h.2.2.2.1, h.2.2.2.2⟩,
      fun h => ⟨h.type, h.sender, h.groups, h.numGroups, h.fits⟩⟩

theorem readGroups_append {groups : List Name} (h : ∀ g ∈ groups, IsName g) (rest : Bytes) :
    readGroups groups.length (groups.flatMap (field maxGroupName) ++ rest) =
      some (groups, rest) := by
  induction groups with
  | nil => rfl
  | cons g groups ih =>
    obtain ⟨hg, hgroups⟩ := List.forall_mem_cons.mp h
    have hstr : cString (field maxGroupName g) = g := by
      simpa using cString_field hg.noZero hg.fits []
    rw [List.flatMap_cons, List.length_cons, List.append_assoc, readGroups,
      readBytes_append (length_field _ _)]
    simp only [Option.bind_eq_bind, Option.bind_some, ih hgroups, hstr]
    rfl

/-- A header is corrected by the machine that reads it, up to the bits for the byte order. -/
theorem endianCorrect_seen (o o' : ByteOrder) (m : Message) :
    MessageHeader.endianCorrect o ⟨o.seen o' (m.header o').type, m.sender,
        o.seen o' (m.header o').numGroups, o.seen o' (m.header o').hint,
        o.seen o' (m.header o').dataLen⟩ =
      { m.header o with type := setEndian o' m.type } := by
  by_cases ho : o = o'
  · subst ho
    have hsame : SameEndian o (m.header o).type := setEndian_and o m.type
    simp only [ByteOrder.seen_self]
    rw [MessageHeader.endianCorrect, if_pos hsame]
    rfl
  · have hsame : ¬ SameEndian o (flipInt32 (m.header o').type) := fun h => by
      have hflip := congrArg flipInt32 (setEndian_and o' m.type)
      rw [flipInt32_and, flipInt32_endianType] at hflip
      refine ho (archEndian_injective ?_)
      rw [← show _ = archEndian o from h, header, hflip]
      cases o' <;> decide
    have hhint : o.seen o' (m.header o').hint = (m.header o).hint := o.seen_seen o' .big m.hint
    rw [hhint, MessageHeader.endianCorrect]
    simp only [ByteOrder.seen_of_ne ho]
    rw [if_neg hsame, MessageHeader.flipMess]
    simp only [flipInt32_flipInt32]
    rfl

/-- **What a machine of any order reads of a message is what one of any order wrote.** -/
theorem read_write (o o' : ByteOrder) {m : Message} (h : m.Valid) (rest : Bytes) :
    read o (m.write o' ++ rest) = some (m, rest) := by
  have hgroups : (BitVec.ofNat 32 m.groups.length).toNat = m.groups.length := by
    rw [BitVec.toNat_ofNat]
    exact Nat.mod_eq_of_lt (Nat.lt_of_le_of_lt h.numGroups (by decide))
  have hdata : (BitVec.ofNat 32 m.data.length).toNat = m.data.length := by
    rw [BitVec.toNat_ofNat]
    exact Nat.mod_eq_of_lt (Nat.lt_of_le_of_lt (Nat.le_trans (Nat.le_add_right _ _) h.fits)
      (by decide))
  have hheader := @MessageHeader.read_write o o' (m.header o') h.sender
    (m.groups.flatMap (field maxGroupName) ++ (m.data ++ rest))
  rw [write, List.append_assoc, List.append_assoc, read, hheader]
  simp only [Option.bind_eq_bind, Option.bind_some]
  rw [show (m.header o').privateGroupName = m.sender from rfl, endianCorrect_seen]
  simp only [header, hgroups, hdata, readGroups_append h.groups, Option.bind_some,
    readBytes_append rfl, clearEndian_setEndian, clearEndian_eq h.type, ByteOrder.seen_seen,
    ByteOrder.seen_self]
  rfl

end Message

end ReplicatedScheduler.Spread
