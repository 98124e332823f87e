import Mathlib.Data.Int.Notation
import Mathlib.Data.List.Basic
import Mathlib.Logic.Function.Basic
import Mathlib.Tactic.Common

/-!
# Messages, fragments and packets

A daemon cuts a message into buffers, all of which but the last fill a packet
(`DownLink.ofBytes`), and queues it. `Send_new_packets` takes packets off the
queue: a packet has one fragment, and more of them as long as the next one fits and its type may
share the packet. The receiver chains the first fragments of a sender's packets until one ends a
message, and hands the message up; every further fragment is a message of its own
(`Deliver_packet`).

**Theorem (`assemble_submitted`).** Chaining the fragments of messages gives the messages back.

**Theorem (`Cut.takePacket`).** That the further fragments are messages of their own is not
checked anywhere. It holds because a buffer that does not end its message fills a packet: nothing
fits after it, and it fits after nothing.
-/

namespace ReplicatedScheduler.Spread

/-- The types of regular packets. -/
inductive PacketType
  | reliable
  | fifo
  | agreed
  | safe
  deriving DecidableEq, Repr

/-- One buffer of a message. -/
abbrev Body := List (BitVec 8)

/-- `sizeof(packet_body)`. -/
def packetBodySize : ℕ := 1472 - 40

/-- `sizeof(fragment_header)`. -/
def fragmentHeaderSize : ℕ := 4

/-- A `fragment_header` and the bytes that it is about. The index counts the fragments of a
message from 1, and is negative at the last one. -/
structure Fragment where
  index : ℤ
  body : Body
  deriving DecidableEq, Repr

/-- `down_link`: a message to be sent, in its buffers. -/
structure DownLink where
  type : PacketType
  elements : List Body
  nonempty : elements ≠ []
  full : ∀ b ∈ elements.dropLast, b.length = packetBodySize
  fits : ∀ b ∈ elements, b.length ≤ packetBodySize
  deriving DecidableEq

/-- The bytes in `k` buffers, filled one after the other. -/
def cutInto : ℕ → List (BitVec 8) → List Body
  | 0, _ => []
  | k + 1, bytes => bytes.take packetBodySize :: cutInto k (bytes.drop packetBodySize)

theorem flatten_cutInto {k : ℕ} {bytes : List (BitVec 8)} (h : bytes.length ≤ k * packetBodySize) :
    (cutInto k bytes).flatten = bytes := by
  induction k generalizing bytes with
  | zero =>
    rw [Nat.zero_mul] at h
    exact (List.eq_nil_of_length_eq_zero (Nat.le_zero.mp h)).symm
  | succ k ih =>
    rw [cutInto, List.flatten_cons, ih, List.take_append_drop]
    rw [Nat.add_one_mul] at h
    rw [List.length_drop]
    omega

theorem full_cutInto {k : ℕ} {bytes : List (BitVec 8)} (h : (k - 1) * packetBodySize ≤ bytes.length) :
    ∀ b ∈ (cutInto k bytes).dropLast, b.length = packetBodySize := by
  induction k generalizing bytes with
  | zero => simp [cutInto]
  | succ k ih =>
    cases k with
    | zero => simp [cutInto]
    | succ k =>
      rw [Nat.add_sub_cancel, Nat.add_one_mul] at h
      intro b hb
      rw [cutInto, List.dropLast_cons_of_ne_nil (by simp [cutInto])] at hb
      rcases List.mem_cons.mp hb with rfl | hb
      · rw [List.length_take]
        omega
      · refine ih ?_ b hb
        rw [List.length_drop, Nat.add_sub_cancel]
        omega

theorem fits_cutInto (k : ℕ) (bytes : List (BitVec 8)) :
    ∀ b ∈ cutInto k bytes, b.length ≤ packetBodySize := by
  induction k generalizing bytes with
  | zero => simp [cutInto]
  | succ k ih =>
    intro b hb
    rcases List.mem_cons.mp hb with rfl | hb
    · rw [List.length_take]
      exact Nat.min_le_left _ _
    · exact ih _ b hb

/-- `num_elements` of a message of `numBytes` bytes, its header included. -/
def numElements (numBytes : ℕ) : ℕ := (numBytes - 1) / packetBodySize + 1

/-- `MAX_SCATTER_ELEMENTS`: the buffers that a message has room for. -/
def maxScatterElements : ℕ := 100

/-- `Message_Buffer_to_Message_Fragments`, and the `down_link` of the message. -/
def DownLink.ofBytes (type : PacketType) (bytes : List (BitVec 8)) : DownLink where
  type := type
  elements := cutInto (numElements bytes.length) bytes
  nonempty := by simp [numElements, cutInto]
  full := full_cutInto <| by
    rw [numElements, Nat.add_sub_cancel]
    exact Nat.le_trans (Nat.div_mul_le_self _ _) (Nat.sub_le _ _)
  fits := fits_cutInto _ _

/-- Nothing is lost when a message is cut. -/
theorem DownLink.flatten_ofBytes (type : PacketType) (bytes : List (BitVec 8)) :
    (DownLink.ofBytes type bytes).elements.flatten = bytes := by
  refine flatten_cutInto ?_
  have hlt := Nat.lt_div_mul_add (a := bytes.length - 1) (show 0 < packetBodySize by decide)
  rw [numElements, Nat.add_one_mul]
  omega

/-- The fragments of the buffers from number `i` on. -/
def fragmentsFrom (i : ℕ) : List Body → List Fragment
  | [] => []
  | [b] => [⟨-((i : ℤ) + 1), b⟩]
  | b :: b' :: bs => ⟨(i : ℤ) + 1, b⟩ :: fragmentsFrom (i + 1) (b' :: bs)

def DownLink.fragments (m : DownLink) : List Fragment := fragmentsFrom 0 m.elements

/-- The fragments still to be sent, each with the type of its message. -/
abbrev DownQueue := List (PacketType × Fragment)

def DownLink.typed (m : DownLink) : DownQueue := m.fragments.map fun f => (m.type, f)

/-- `Prot_new_message`. -/
def protNewMessage (q : DownQueue) (m : DownLink) : DownQueue := q ++ m.typed

/-! ## Sending -/

/-- The bytes that align the next fragment header. -/
def paddingBytes (dataLen : ℕ) : ℕ := (4 - dataLen % 4) % 4

/-- The length of the packet with one more fragment. -/
def dataLenWith (dataLen : ℕ) (f : Fragment) : ℕ :=
  dataLen + paddingBytes dataLen + fragmentHeaderSize + f.body.length

/-- Fragments of these types may share a packet. -/
def PacketType.Shares (t u : PacketType) : Prop :=
  t = u ∨ ((t = .fifo ∨ t = .agreed) ∧ (u = .fifo ∨ u = .agreed))

instance (t u : PacketType) : Decidable (t.Shares u) :=
  inferInstanceAs (Decidable (_ ∨ _))

/-- The loop that fills a packet of `dataLen` bytes: the fragments added, and the queue left. -/
def fillPacket (type : PacketType) : ℕ → DownQueue → List Fragment × DownQueue
  | _, [] => ([], [])
  | dataLen, (t, f) :: q =>
    if packetBodySize < dataLenWith dataLen f ∨ ¬ type.Shares t then ([], (t, f) :: q)
    else
      let filled := fillPacket type (dataLenWith dataLen f) q
      (f :: filled.1, filled.2)

/-- A packet to be, before it has a number. -/
structure Contents where
  type : PacketType
  first : Fragment
  rest : List Fragment
  deriving DecidableEq, Repr

def Contents.fragments (c : Contents) : List Fragment := c.first :: c.rest

/-- One iteration of `Send_new_packets`. -/
def takePacket : DownQueue → Option (Contents × DownQueue)
  | [] => none
  | (t, f) :: q =>
    let filled := fillPacket t f.body.length q
    some (⟨t, f, filled.1⟩, filled.2)

theorem fillPacket_fragments (type : PacketType) (dataLen : ℕ) (q : DownQueue) :
    q.map Prod.snd =
      (fillPacket type dataLen q).1 ++ (fillPacket type dataLen q).2.map Prod.snd := by
  induction q generalizing dataLen with
  | nil => rfl
  | cons p q ih =>
    obtain ⟨t, f⟩ := p
    unfold fillPacket
    split_ifs
    · rfl
    · rw [List.map_cons, ih (dataLenWith dataLen f)]
      rfl

/-- Nothing is lost or reordered on the way into packets. -/
theorem takePacket_fragments {q q' : DownQueue} {c : Contents} (h : takePacket q = some (c, q')) :
    q.map Prod.snd = c.fragments ++ q'.map Prod.snd := by
  cases q with
  | nil => cases h
  | cons p q =>
    cases h
    rw [List.map_cons, fillPacket_fragments p.1 p.2.body.length q]
    rfl

theorem fillPacket_suffix (type : PacketType) (dataLen : ℕ) (q : DownQueue) :
    (fillPacket type dataLen q).2 <:+ q := by
  induction q generalizing dataLen with
  | nil => exact List.suffix_refl _
  | cons p q ih =>
    obtain ⟨t, f⟩ := p
    unfold fillPacket
    split_ifs
    · exact List.suffix_refl _
    · exact (ih _).trans (List.suffix_cons _ _)

theorem fillPacket_typed (type : PacketType) (dataLen : ℕ) (q : DownQueue) :
    ∀ f ∈ (fillPacket type dataLen q).1, ∃ t, type.Shares t ∧ (t, f) ∈ q := by
  induction q generalizing dataLen with
  | nil => simp [fillPacket]
  | cons p q ih =>
    obtain ⟨t, f⟩ := p
    unfold fillPacket
    split_ifs with h
    · simp
    · intro g hg
      rcases List.mem_cons.mp hg with rfl | hg
      · exact ⟨t, not_not.mp fun hshares => h (Or.inr hshares), List.mem_cons_self⟩
      · obtain ⟨u, hu, hmem⟩ := ih _ g hg
        exact ⟨u, hu, List.mem_cons_of_mem _ hmem⟩

/-- The fragments of a packet have types that may share it. -/
theorem takePacket_typed {q q' : DownQueue} {c : Contents} (h : takePacket q = some (c, q')) :
    (∀ f ∈ c.fragments, ∃ t, c.type.Shares t ∧ (t, f) ∈ q) ∧ ∀ e ∈ q', e ∈ q := by
  cases q with
  | nil => cases h
  | cons p q =>
    cases h
    refine ⟨fun f hf => ?_, fun e he =>
      List.mem_cons_of_mem _ ((fillPacket_suffix _ _ _).subset he)⟩
    rcases List.mem_cons.mp hf with rfl | hf
    · exact ⟨p.1, Or.inl rfl, List.mem_cons_self⟩
    · obtain ⟨t, ht, hmem⟩ := fillPacket_typed _ _ _ f hf
      exact ⟨t, ht, List.mem_cons_of_mem _ hmem⟩

/-! ## Receiving -/

/-- The messages that the fragments of one sender end, when `mess` has been chained so far. -/
def assemble : List Body → List Fragment → List (List Body)
  | _, [] => []
  | mess, f :: fs =>
    if f.index < 0 then (mess ++ [f.body]) :: assemble [] fs else assemble (mess ++ [f.body]) fs

/-- What is chained in the end. -/
def chain : List Body → List Fragment → List Body
  | mess, [] => mess
  | mess, f :: fs => if f.index < 0 then chain [] fs else chain (mess ++ [f.body]) fs

theorem assemble_append (mess : List Body) (fs gs : List Fragment) :
    assemble mess (fs ++ gs) = assemble mess fs ++ assemble (chain mess fs) gs := by
  induction fs generalizing mess with
  | nil => rfl
  | cons f fs ih =>
    rw [List.cons_append, assemble, assemble, chain]
    split_ifs
    · rw [ih]
      rfl
    · exact ih _

theorem chain_append (mess : List Body) (fs gs : List Fragment) :
    chain mess (fs ++ gs) = chain (chain mess fs) gs := by
  induction fs generalizing mess with
  | nil => rfl
  | cons f fs ih =>
    rw [List.cons_append, chain, chain]
    split_ifs
    · exact ih _
    · exact ih _

/-- Fragments that are whole messages. -/
theorem assemble_whole {fs : List Fragment} (h : ∀ f ∈ fs, f.index = -1) :
    assemble [] fs = fs.map fun f => [f.body] := by
  induction fs with
  | nil => rfl
  | cons f fs ih =>
    have hneg : f.index < 0 := by
      rw [h f List.mem_cons_self]
      decide
    rw [assemble, if_pos hneg, ih fun g hg => h g (List.mem_cons_of_mem _ hg)]
    rfl

theorem chain_whole {fs : List Fragment} (h : ∀ f ∈ fs, f.index = -1) : chain [] fs = [] := by
  induction fs with
  | nil => rfl
  | cons f fs ih =>
    have hneg : f.index < 0 := by
      rw [h f List.mem_cons_self]
      decide
    rw [chain, if_pos hneg]
    exact ih fun g hg => h g (List.mem_cons_of_mem _ hg)

theorem assemble_fragmentsFrom (i : ℕ) (mess : List Body) {bs : List Body} (hbs : bs ≠ []) :
    assemble mess (fragmentsFrom i bs) = [mess ++ bs] ∧ chain mess (fragmentsFrom i bs) = [] := by
  induction bs generalizing i mess with
  | nil => exact absurd rfl hbs
  | cons b bs ih =>
    cases bs with
    | nil =>
      have hneg : -((i : ℤ) + 1) < 0 := by omega
      rw [fragmentsFrom, assemble, chain, if_pos hneg, if_pos hneg]
      exact ⟨rfl, rfl⟩
    | cons b' bs =>
      have hpos : ¬ ((i : ℤ) + 1 < 0) := by omega
      rw [fragmentsFrom, assemble, chain, if_neg hpos, if_neg hpos]
      obtain ⟨ha, hc⟩ := ih (i + 1) (mess ++ [b]) (by simp)
      exact ⟨by rw [ha]; simp, hc⟩

/-- **Chaining the fragments of messages gives the messages back.** -/
theorem assemble_submitted (ms : List DownLink) :
    assemble [] (ms.flatMap DownLink.fragments) = ms.map DownLink.elements ∧
      chain [] (ms.flatMap DownLink.fragments) = [] := by
  induction ms with
  | nil => exact ⟨rfl, rfl⟩
  | cons m ms ih =>
    obtain ⟨ha, hc⟩ := assemble_fragmentsFrom 0 [] m.nonempty
    rw [List.flatMap_cons, assemble_append, chain_append, DownLink.fragments, ha, hc, ih.1, ih.2]
    exact ⟨rfl, rfl⟩

/-! ## Fragments in order -/

/-- Each fragment continues the message that the one before it belongs to, or starts one. Here
`n` fragments of a message went before. -/
def Chained : ℕ → List Fragment → Prop
  | _, [] => True
  | n, f :: fs => f.index.natAbs = n + 1 ∧ Chained (if f.index < 0 then 0 else n + 1) fs

/-- A buffer that does not end its message fills a packet, and none is longer. -/
def Fragment.Sized (f : Fragment) : Prop :=
  (¬ f.index < 0 → f.body.length = packetBodySize) ∧ f.body.length ≤ packetBodySize

theorem chained_append {n : ℕ} {fs gs : List Fragment} (h : Chained n (fs ++ gs)) :
    Chained n fs := by
  induction fs generalizing n with
  | nil => trivial
  | cons f fs ih => exact ⟨h.1, ih h.2⟩

/-- A fragment that is a whole message. -/
theorem elements_of_typed {m : DownLink} {t : PacketType} {f : Fragment} (h : (t, f) ∈ m.typed)
    (hf : f.index = -1) : m.type = t ∧ m.elements = [f.body] := by
  obtain ⟨g, hg, he⟩ := List.mem_map.mp h
  cases he
  refine ⟨rfl, ?_⟩
  have hall : ∀ (i : ℕ) (bs : List Body), f ∈ fragmentsFrom i bs → i = 0 ∧ bs = [f.body] := by
    intro i bs
    induction bs generalizing i with
    | nil => simp [fragmentsFrom]
    | cons b bs ih =>
      intro hmem
      cases bs with
      | nil =>
        obtain rfl := List.mem_singleton.mp hmem
        simp only at hf
        exact ⟨by omega, rfl⟩
      | cons b' bs =>
        rcases List.mem_cons.mp hmem with rfl | hmem
        · simp only at hf
          omega
        · have hi := (ih (i + 1) hmem).1
          omega
  exact (hall 0 m.elements hg).2

theorem chained_fragmentsFrom (i : ℕ) {bs : List Body} (hbs : bs ≠ []) {gs : List Fragment}
    (hgs : Chained 0 gs) : Chained i (fragmentsFrom i bs ++ gs) := by
  induction bs generalizing i with
  | nil => exact absurd rfl hbs
  | cons b bs ih =>
    cases bs with
    | nil =>
      have hneg : -((i : ℤ) + 1) < 0 := by omega
      refine ⟨by show (-((i : ℤ) + 1)).natAbs = i + 1; omega, ?_⟩
      rw [if_pos hneg]
      exact hgs
    | cons b' bs =>
      have hpos : ¬ ((i : ℤ) + 1 < 0) := by omega
      refine ⟨by show ((i : ℤ) + 1).natAbs = i + 1; omega, ?_⟩
      rw [if_neg hpos]
      exact ih (i + 1) (by simp)

theorem sized_fragmentsFrom (i : ℕ) {bs : List Body}
    (hfull : ∀ b ∈ bs.dropLast, b.length = packetBodySize)
    (hfits : ∀ b ∈ bs, b.length ≤ packetBodySize) : ∀ f ∈ fragmentsFrom i bs, f.Sized := by
  induction bs generalizing i with
  | nil => simp [fragmentsFrom]
  | cons b bs ih =>
    cases bs with
    | nil =>
      have hneg : -((i : ℤ) + 1) < 0 := by omega
      intro f hf
      obtain rfl := List.mem_singleton.mp hf
      exact ⟨fun hpos => absurd hneg hpos, hfits b (by simp)⟩
    | cons b' bs =>
      intro f hf
      rcases List.mem_cons.mp hf with rfl | hf
      · exact ⟨fun _ => hfull b (by simp), hfits b (by simp)⟩
      · exact ih (i + 1) (fun c hc => hfull c (by simp [hc]))
          (fun c hc => hfits c (List.mem_cons_of_mem _ hc)) f hf

/-- The messages handed down leave fragments in order. -/
theorem chained_submitted (ms : List DownLink) : Chained 0 (ms.flatMap DownLink.fragments) := by
  induction ms with
  | nil => trivial
  | cons m ms ih =>
    rw [List.flatMap_cons]
    exact chained_fragmentsFrom 0 m.nonempty ih

/-- What was sent ends a message, and what is still to be sent starts one, unless the message is
split between them. -/
theorem chained_rest (mess : List Body) {fs gs : List Fragment}
    (h : Chained mess.length (fs ++ gs)) : Chained (chain mess fs).length gs := by
  induction fs generalizing mess with
  | nil => exact h
  | cons f fs ih =>
    rw [chain]
    have htail := h.2
    split_ifs at htail ⊢ with hneg
    · exact ih [] htail
    · refine ih (mess ++ [f.body]) ?_
      rw [List.length_append]
      exact htail

/-- What comes after may be replaced by something else in order. -/
theorem chained_append_of (mess : List Body) {fs gs hs : List Fragment}
    (h : Chained mess.length (fs ++ gs)) (hhs : Chained (chain mess fs).length hs) :
    Chained mess.length (fs ++ hs) := by
  induction fs generalizing mess with
  | nil => exact hhs
  | cons f fs ih =>
    refine ⟨h.1, ?_⟩
    have htail := h.2
    rw [chain] at hhs
    split_ifs at htail hhs ⊢ with hneg
    · exact ih [] htail hhs
    · have hlen : (mess ++ [f.body]).length = mess.length + 1 := List.length_append
      rw [← hlen] at htail ⊢
      exact ih (mess ++ [f.body]) htail hhs

/-! ## Packets of whole messages -/

/-- Every fragment after the first is a whole message. -/
def Contents.Whole (c : Contents) : Prop := ∀ f ∈ c.rest, f.index = -1

/-- A queue as messages leave it: `n` fragments of its first message are gone. -/
structure Cut (n : ℕ) (q : DownQueue) : Prop where
  chained : Chained n (q.map Prod.snd)
  sized : ∀ p ∈ q, p.2.Sized

theorem fillPacket_whole (type : PacketType) {n dataLen : ℕ} {q : DownQueue} (h : Cut n q)
    (hn : n ≠ 0 → packetBodySize ≤ dataLen) : ∀ f ∈ (fillPacket type dataLen q).1, f.index = -1 := by
  induction q generalizing n dataLen with
  | nil => simp [fillPacket]
  | cons p q ih =>
    obtain ⟨t, f⟩ := p
    have hsized : f.Sized := h.sized (t, f) List.mem_cons_self
    have hindex : f.index.natAbs = n + 1 := h.chained.1
    have hchained := h.chained.2
    unfold fillPacket
    split_ifs with hroom
    · simp
    · have hfits : dataLenWith dataLen f ≤ packetBodySize := by omega
      have hn0 : n = 0 := by
        by_contra hne
        have hfull := hn hne
        unfold dataLenWith fragmentHeaderSize at hfits
        omega
      -- a fragment that does not end its message fills a packet by itself
      have hneg : f.index < 0 := by
        by_contra hpos
        have hfull := hsized.1 hpos
        unfold dataLenWith fragmentHeaderSize at hfits
        omega
      intro g hg
      rcases List.mem_cons.mp hg with rfl | hg
      · omega
      · simp only [if_pos hneg] at hchained
        exact ih (n := 0) ⟨hchained, fun p hp => h.sized p (List.mem_cons_of_mem _ hp)⟩
          (fun hne => absurd rfl hne) g hg

/-- **Only whole messages follow the first fragment of a packet.** -/
theorem Cut.takePacket {n : ℕ} {q q' : DownQueue} {c : Contents} (h : Cut n q)
    (ht : takePacket q = some (c, q')) : c.Whole ∧ (¬ c.first.index < 0 → c.rest = []) := by
  cases q with
  | nil => cases ht
  | cons p q =>
    obtain ⟨t, f⟩ := p
    cases ht
    obtain ⟨-, hchained⟩ := h.chained
    have hsized : f.Sized := h.sized (t, f) List.mem_cons_self
    have hrest : ∀ p ∈ q, p.2.Sized := fun p hp => h.sized p (List.mem_cons_of_mem _ hp)
    refine ⟨?_, fun hpos => ?_⟩
    · refine fillPacket_whole t ⟨hchained, hrest⟩ fun hne => ?_
      by_cases hneg : f.index < 0
      · exact absurd (if_pos hneg) hne
      · exact Nat.le_of_eq (hsized.1 hneg).symm
    · show (fillPacket t f.body.length q).1 = []
      cases q with
      | nil => rfl
      | cons p q =>
        have hroom : packetBodySize < dataLenWith f.body.length p.2 := by
          rw [hsized.1 hpos]
          unfold dataLenWith fragmentHeaderSize
          omega
        rw [fillPacket, if_pos (Or.inl hroom)]

end ReplicatedScheduler.Spread
