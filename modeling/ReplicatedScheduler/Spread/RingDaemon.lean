import ReplicatedScheduler.Spread.Ring

/-!
# What one daemon of the ring keeps

**The invariant** (`Daemon.Good`). The store is good (`Store.Good`) with everything up to `Aru`
forgotten, and has all that is between `Aru` and `My_aru`. The daemon has the packets that it sent
itself until they are forgotten, and has delivered safe packets up to `Aru` only.

**Steps.** A packet that arrives (`handleBcast_good`) and a visit of the token (`visit_good`) keep
it, and raise no alarm. For the visit that rests on the token: it asks for nothing that is forgotten
here, and the `Aru` that follows from it is neither below the old one nor above `My_aru`.
-/

namespace ReplicatedScheduler.Spread

open Lib

/-! ## Packets that exist -/

namespace Store

variable {ι : Type}

theorem exist_insert (st : Store ι) (p : Packet ι) : (st.insert p).exist p.seq = true := by
  simp [exist]

theorem exist_insert_of_exist {st : Store ι} {q : ℕ} (h : st.exist q = true) (p : Packet ι) :
    (st.insert p).exist q = true := by
  unfold exist
  by_cases hq : packetEntry q = packetEntry p.seq
  · simp [hq]
  · rw [packets_insert, Function.update_of_ne hq]
    exact h

theorem le_advance (st : Store ι) (k a : ℕ) : a ≤ st.advance k a := by
  induction k generalizing a with
  | zero => exact Nat.le_refl a
  | succ k ih =>
    unfold advance
    split_ifs
    · exact Nat.le_trans (Nat.le_succ a) (ih (a + 1))
    · exact Nat.le_refl a

theorem advance_le (st : Store ι) (k a : ℕ) : st.advance k a ≤ a + k := by
  induction k generalizing a with
  | zero => exact Nat.le_refl a
  | succ k ih =>
    unfold advance
    split_ifs
    · have hle := ih (a + 1)
      omega
    · exact Nat.le_add_right a (k + 1)

theorem exist_of_le_advance {st : Store ι} {k a q : ℕ} (hq : a < q) (hq' : q ≤ st.advance k a) :
    st.exist q = true := by
  induction k generalizing a with
  | zero =>
    have hle : q ≤ a := hq'
    omega
  | succ k ih =>
    unfold advance at hq'
    split_ifs at hq' with hexist
    · rcases Nat.lt_or_eq_of_le (Nat.succ_le_of_lt hq) with hq | rfl
      · exact ih hq hq'
      · exact hexist
    · omega

end Store

namespace Daemon

variable {n : ℕ} {me : Fin n} {order : List (Packet (Fin n))} {d : Daemon n}

/-- What holds of a daemon while `order` has been numbered. -/
structure Good (me : Fin n) (order : List (Packet (Fin n))) (d : Daemon n) : Prop where
  store : d.store.Good order d.aru d.store.lastDelivered
  discarded : d.store.lastDiscarded = d.aru
  exist : ∀ q, d.aru < q → q ≤ d.myAru → d.store.exist q = true
  myAru_le : d.myAru ≤ order.length
  highest_le : d.highestSeq ≤ order.length
  /-- The daemon has its own packets until they are forgotten. -/
  own : ∀ k p, order[k]? = some p → p.procId = me → d.aru < k + 1 → d.store.exist (k + 1) = true
  safe : ∀ p ∈ d.store.delivered, p.type = .safe → p.seq ≤ d.aru

theorem good_start (me : Fin n) : Good me [] (Daemon.start n) where
  store := Store.Good.empty
  discarded := rfl
  exist := fun q hq hq' => absurd hq' (Nat.not_le.mpr hq)
  myAru_le := Nat.le_refl _
  highest_le := Nat.le_refl _
  own := fun k p hk => by cases hk
  safe := fun p hp => by cases hp

theorem advance_le (h : d.Good me order) : d.advance ≤ order.length := by
  have hle := d.store.advance_le (d.highestSeq - d.myAru) d.myAru
  have hmy := h.myAru_le
  have hhigh := h.highest_le
  unfold advance
  omega

theorem le_advance (d : Daemon n) : d.myAru ≤ d.advance := d.store.le_advance _ _

theorem exist_of_le_advance (h : d.Good me order) {q : ℕ} (hq : d.aru < q)
    (hq' : q ≤ d.advance) : d.store.exist q = true := by
  by_cases hle : q ≤ d.myAru
  · exact h.exist q hq hle
  · exact Store.exist_of_le_advance (Nat.not_le.mp hle) hq'

/-- `My_aru` moves on. -/
theorem Good.advance (h : d.Good me order) : Good me order { d with myAru := d.advance } :=
  { h with
    exist := fun _ hq hq' => exist_of_le_advance h hq hq'
    myAru_le := advance_le h }

/-- Packets that others number. -/
theorem Good.extend (h : d.Good me order) {new : List (Packet (Fin n))}
    (hseq : Sequenced (order ++ new)) (hroom : (order ++ new).length ≤ d.aru + 8192)
    (hnew : ∀ p ∈ new, p.procId ≠ me) : d.Good me (order ++ new) := by
  have hlen : order.length ≤ (order ++ new).length := by simp
  refine { h with
    store := h.store.extend hseq hroom
    myAru_le := Nat.le_trans h.myAru_le hlen
    highest_le := Nat.le_trans h.highest_le hlen
    own := fun k p hk hp hlt => ?_ }
  by_cases hk' : k < order.length
  · rw [List.getElem?_append_left hk'] at hk
    exact h.own k p hk hp hlt
  · rw [List.getElem?_append_right (Nat.not_lt.mp hk')] at hk
    exact absurd hp (hnew p (List.mem_of_getElem? hk))

/-! ## A packet arrives -/

/-- The store takes packet `p` in. -/
theorem Good.insert (h : d.Good me order) {p : Packet (Fin n)}
    (horder : order[p.seq - 1]? = some p) (hlo : d.aru < p.seq)
    (hfree : ¬ d.store.exist p.seq = true) :
    Good me order { d with
      store := d.store.insert p
      highestSeq := max d.highestSeq p.seq } := by
  have hnone : d.store.packets (Store.packetEntry p.seq) = none := by
    simpa [Store.exist] using hfree
  exact { h with
    store := h.store.insert horder hlo hnone
    exist := fun q hq hq' => Store.exist_insert_of_exist (h.exist q hq hq') p
    highest_le := max_le h.highest_le (seq_le horder (by omega))
    own := fun k r hk hr hlt => Store.exist_insert_of_exist (h.own k r hk hr hlt) p }

/-- The store delivers some packets. -/
theorem Good.setStore (h : d.Good me order) {st : Store (Fin n)}
    (hst : st.Good order d.aru st.lastDelivered) (hkeeps : Store.Keeps d.store st) :
    Good me order { d with store := st } :=
  { h with
    store := hst
    discarded := hkeeps.lastDiscarded.trans h.discarded
    exist := fun q hq hq' => by rw [hkeeps.exist]; exact h.exist q hq hq'
    own := fun k p hk hp hlt => by rw [hkeeps.exist]; exact h.own k p hk hp hlt
    safe := fun p hp hsafe => h.safe p (hkeeps.safe p hp hsafe) hsafe }

/-- What a step leaves as it is in a daemon that does not have the token. -/
structure Frame (d d' : Daemon n) : Prop where
  aru : d'.aru = d.aru
  myAru : d.myAru ≤ d'.myAru
  arq : d'.lastToken.arq = d.lastToken.arq
  passing : d'.lastToken.passing = d.lastToken.passing
  receivedTokenRounds : d'.receivedTokenRounds = d.receivedTokenRounds

theorem Frame.refl (d : Daemon n) : Frame d d := ⟨rfl, Nat.le_refl _, rfl, rfl, rfl⟩

/-- **A packet of the ring arrives.** -/
theorem handleBcast_good (hseq : Sequenced order) (h : d.Good me order) {p : Packet (Fin n)}
    (horder : order[p.seq - 1]? = some p) :
    ∃ d', d.handleBcast p = .ok d' ∧ d'.Good me order ∧ d'.downQueue = d.downQueue ∧
      Frame d d' := by
  unfold handleBcast
  by_cases hold : p.seq ≤ d.store.lastDiscarded
  · rw [if_pos hold]
    exact ⟨d, rfl, h, rfl, .refl d⟩
  · rw [if_neg hold]
    by_cases hexist : d.store.exist p.seq = true
    · rw [if_pos hexist]
      exact ⟨d, rfl, h, rfl, .refl d⟩
    · rw [if_neg hexist]
      rw [h.discarded] at hold
      have hins := h.insert horder (Nat.not_le.mp hold) hexist
      by_cases hnext : p.seq = d.myAru + 1
      · obtain ⟨st, hrun, hgood, -, -, hkeeps⟩ :=
          Store.Good.deliverAgreedPackets_good hseq hins.store (advance_le hins)
            fun q hq hq' => exist_of_le_advance hins (Nat.lt_of_le_of_lt hins.store.lo_le hq) hq'
        simp only [if_pos hnext, hrun]
        exact ⟨_, rfl, hins.advance.setStore hgood hkeeps, rfl, rfl,
          le_advance { d with
            store := d.store.insert p
            highestSeq := max d.highestSeq p.seq }, rfl, rfl, rfl⟩
      · obtain ⟨st, hrun, hgood, hlast, hkeeps⟩ :=
          Store.Good.deliverReliableLoop_good hseq (p.seq + 1 - max p.seq (d.store.lastDelivered + 1))
            (max p.seq (d.store.lastDelivered + 1)) hins.store
        have hrun' : (d.store.insert p).deliverReliablePackets p.seq 1 = .ok st := hrun
        simp only [if_neg hnext, hrun']
        rw [← hlast] at hgood
        exact ⟨_, rfl, hins.setStore hgood hkeeps, rfl, rfl, Nat.le_refl _, rfl, rfl, rfl⟩

/-! ## The daemon sends -/

theorem answerRetrans_ok (h : d.Good me order) {rtr : List ℕ} (hrtr : ∀ r ∈ rtr, d.aru ≤ r) :
    ∃ resent, d.answerRetrans rtr = .ok resent ∧ ∀ p ∈ resent, p ∈ order := by
  induction rtr with
  | nil => exact ⟨[], rfl, by simp⟩
  | cons r rtr ih =>
    obtain ⟨resent, hrun, hmem⟩ := ih fun q hq => hrtr q (List.mem_cons_of_mem _ hq)
    have hle : ¬ r < d.aru := Nat.not_lt.mpr (hrtr r List.mem_cons_self)
    simp only [answerRetrans, if_neg hle, hrun]
    cases hslot : d.store.packets (Store.packetEntry r) with
    | none => exact ⟨resent, rfl, hmem⟩
    | some i =>
      refine ⟨i.packet :: resent, rfl, fun p hp => ?_⟩
      rcases List.mem_cons.mp hp with rfl | hp
      · exact List.mem_of_getElem? (h.store.slot _ i hslot).1
      · exact hmem p hp

/-- What the daemon has been given to send: numbered already, or still in the queue. -/
structure Queued (me : Fin n) (order : List (Packet (Fin n))) (q : DownQueue) (ms : List DownLink) :
    Prop where
  fragments : fragmentsOf me order ++ q.map Prod.snd = ms.flatMap DownLink.fragments
  queue : ∀ e ∈ q, e ∈ ms.flatMap DownLink.typed
  /-- A packet has fragments of messages whose types may share it. -/
  sent : ∀ p ∈ order, p.procId = me → ∀ f ∈ p.contents.fragments,
    ∃ t, p.type.Shares t ∧ (t, f) ∈ ms.flatMap DownLink.typed

theorem sized_of_submitted {ms : List DownLink} {f : Fragment}
    (hf : f ∈ ms.flatMap DownLink.fragments) : f.Sized := by
  obtain ⟨m, -, hf⟩ := List.mem_flatMap.mp hf
  exact sized_fragmentsFrom 0 m.full m.fits f hf

theorem Queued.cut {q : DownQueue} {ms : List DownLink} (h : Queued me order q ms) :
    Cut (chain [] (fragmentsOf me order)).length q := by
  refine ⟨chained_rest [] ?_, fun p hp => ?_⟩
  · rw [h.fragments]
    exact chained_submitted ms
  · refine @sized_of_submitted ms p.2 ?_
    rw [← h.fragments]
    exact List.mem_append_right _ (List.mem_map_of_mem hp)

/-- A message is handed down. -/
theorem Queued.submit {q : DownQueue} {ms : List DownLink} (h : Queued me order q ms)
    (m : DownLink) : Queued me order (protNewMessage q m) (ms ++ [m]) := by
  have hsnd : m.typed.map Prod.snd = m.fragments := by
    rw [DownLink.typed, List.map_map]
    exact List.map_id _
  have hmono : ∀ e, e ∈ ms.flatMap DownLink.typed → e ∈ (ms ++ [m]).flatMap DownLink.typed := by
    intro e he
    rw [List.flatMap_append]
    exact List.mem_append_left _ he
  refine ⟨?_, fun e he => ?_, fun p hp hme f hf => ?_⟩
  · rw [protNewMessage, List.map_append, hsnd, ← List.append_assoc, h.fragments,
      List.flatMap_append, List.flatMap_singleton]
  · rcases List.mem_append.mp he with he | he
    · exact hmono e (h.queue e he)
    · rw [List.flatMap_append, List.flatMap_singleton]
      exact List.mem_append_right _ he
  · obtain ⟨t, ht, hmem⟩ := h.sent p hp hme f hf
    exact ⟨t, ht, hmono _ hmem⟩

/-- Packets that others number. -/
theorem Queued.extend {q : DownQueue} {ms : List DownLink} (h : Queued me order q ms)
    {new : List (Packet (Fin n))} (hnew : ∀ p ∈ new, p.procId ≠ me) :
    Queued me (order ++ new) q ms := by
  refine ⟨?_, h.queue, fun p hp hme => ?_⟩
  · rw [fragmentsOf_append, fragmentsOf_of_ne hnew, List.append_nil]
    exact h.fragments
  · rcases List.mem_append.mp hp with hp | hp
    · exact h.sent p hp hme
    · exact absurd hme (hnew p hp)

/-- The next packet of a daemon is numbered. -/
theorem Queued.number {q q' : DownQueue} {ms : List DownLink} {c : Contents}
    (h : Queued me order q ms) (hseq : Sequenced order) (ht : takePacket q = some (c, q')) :
    Sequenced (order ++ [⟨me, order.length + 1, c⟩]) ∧
      Queued me (order ++ [⟨me, order.length + 1, c⟩]) q' ms := by
  obtain ⟨htyped, hrest⟩ := takePacket_typed ht
  have hqueued : Queued me (order ++ [⟨me, order.length + 1, c⟩]) q' ms := by
    refine ⟨?_, fun e he => h.queue e (hrest e he), fun p hp hme f hf => ?_⟩
    · rw [fragmentsOf_append, fragmentsOf_singleton, if_pos rfl, List.append_assoc,
        ← takePacket_fragments ht]
      exact h.fragments
    · rcases List.mem_append.mp hp with hp | hp
      · exact h.sent p hp hme f hf
      · rw [List.mem_singleton.mp hp] at hf ⊢
        obtain ⟨t, ht, hmem⟩ := htyped f hf
        exact ⟨t, ht, h.queue _ hmem⟩
  refine ⟨⟨fun k p hk => ?_, fun i => ?_, fun p hp => ?_⟩, hqueued⟩
  · by_cases hlt : k < order.length
    · rw [List.getElem?_append_left hlt] at hk
      exact hseq.numbered k p hk
    · rw [List.getElem?_append_right (Nat.not_lt.mp hlt)] at hk
      obtain ⟨hlen, rfl⟩ := List.getElem?_eq_some_iff.mp hk
      have hk0 : k = order.length := by
        simp only [List.length_singleton] at hlen
        omega
      simp [hk0]
  · by_cases hi : me = i
    · subst hi
      refine @chained_append 0 _ (q'.map Prod.snd) ?_
      rw [hqueued.fragments]
      exact chained_submitted ms
    · rw [fragmentsOf_append, fragmentsOf_singleton, if_neg hi, List.append_nil]
      exact hseq.chained i
  · rcases List.mem_append.mp hp with hp | hp
    · exact hseq.whole p hp
    · rw [List.mem_singleton.mp hp]
      exact h.cut.takePacket ht

/-- What sending leaves as it is. -/
structure Sends (d d' : Daemon n) : Prop where
  aru : d'.aru = d.aru
  myAru : d'.myAru = d.myAru
  lastToken : d'.lastToken = d.lastToken
  receivedTokenRounds : d'.receivedTokenRounds = d.receivedTokenRounds
  tokenCounter : d'.tokenCounter = d.tokenCounter

/-- The packet that is numbered next has a place of its own. -/
theorem not_exist_next (h : d.Good me order) (hroom : order.length + 1 ≤ d.aru + 8192) :
    d.store.exist (order.length + 1) = false := by
  by_contra hexist
  obtain ⟨i, hi⟩ := Option.isSome_iff_exists.mp (Bool.not_eq_false _ ▸ hexist)
  obtain ⟨horder, hlo, hentry⟩ := h.store.slot _ i hi
  have hle := seq_le horder (by omega)
  rw [Store.packetEntry_eq, Store.packetEntry_eq] at hentry
  omega

/-- The daemon takes in the packet that it has numbered. -/
theorem Good.number (h : d.Good me order) {c : Contents}
    (hseq : Sequenced (order ++ [⟨me, order.length + 1, c⟩]))
    (hroom : order.length + 1 ≤ d.aru + 8192) (q : DownQueue) :
    Good me (order ++ [⟨me, order.length + 1, c⟩]) { d with
      store := d.store.insert ⟨me, order.length + 1, c⟩
      highestSeq := order.length + 1
      downQueue := q } := by
  have hfree := not_exist_next h hroom
  have hdl := h.store.dl_le
  have hlo := h.store.lo_le
  have hlen : (order ++ [(⟨me, order.length + 1, c⟩ : Packet (Fin n))]).length =
      order.length + 1 := by simp
  have hnone : d.store.packets (Store.packetEntry (order.length + 1)) = none := by
    simpa [Store.exist] using hfree
  exact { h with
    store := (h.store.extend hseq (by rw [hlen]; exact hroom)).insert (by simp)
      (by show d.aru < order.length + 1; omega) hnone
    exist := fun r hr hr' => Store.exist_insert_of_exist (h.exist r hr hr') _
    myAru_le := by
      rw [hlen]
      exact Nat.le_succ_of_le h.myAru_le
    highest_le := by rw [hlen]
    own := fun k p hk hp hlt => by
      by_cases hlt' : k < order.length
      · rw [List.getElem?_append_left hlt'] at hk
        exact Store.exist_insert_of_exist (h.own k p hk hp hlt) _
      · have hk' : k = order.length := by
          have := (List.getElem?_eq_some_iff.mp hk).1
          rw [hlen] at this
          omega
        rw [hk']
        exact Store.exist_insert _ _ }

theorem sendNewPackets_good (k : ℕ) {ms : List DownLink} (hseq : Sequenced order)
    (h : d.Good me order) (hhigh : d.highestSeq = order.length)
    (hqueued : Queued me order d.downQueue ms) (hroom : order.length + k ≤ d.aru + 8192) :
    ∃ d' sent, sendNewPackets me k d = .ok (d', sent) ∧ sent.length ≤ k ∧
      (∀ p ∈ sent, p.procId = me) ∧ Sequenced (order ++ sent) ∧ d'.Good me (order ++ sent) ∧
      d'.highestSeq = (order ++ sent).length ∧ Queued me (order ++ sent) d'.downQueue ms ∧
      Sends d d' := by
  induction k generalizing order d with
  | zero =>
    exact ⟨d, [], rfl, Nat.le_refl _, by simp, by simpa using hseq, by simpa using h,
      by simpa using hhigh, by simpa using hqueued, ⟨rfl, rfl, rfl, rfl, rfl⟩⟩
  | succ k ih =>
    unfold sendNewPackets
    cases ht : takePacket d.downQueue with
    | none =>
      exact ⟨d, [], rfl, Nat.zero_le _, by simp, by simpa using hseq, by simpa using h,
        by simpa using hhigh, by simpa using hqueued, ⟨rfl, rfl, rfl, rfl, rfl⟩⟩
    | some r =>
      obtain ⟨c, q⟩ := r
      obtain ⟨hseq', hqueued'⟩ := hqueued.number hseq ht
      have hfree := not_exist_next h (by omega)
      have hgood := h.number hseq' (by omega) q
      obtain ⟨d', sent, hrun, hlen, hproc, hseq'', hgood', hhigh', hqueued'', hsends⟩ :=
        ih hseq' hgood (by simp) hqueued' (by
          rw [List.length_append, List.length_singleton]
          show order.length + 1 + k ≤ d.aru + 8192
          omega)
      simp only [hhigh, hfree, Bool.false_eq_true, if_false, hrun]
      rw [List.append_assoc, List.singleton_append] at hseq'' hgood' hhigh' hqueued''
      refine ⟨d', _, rfl, Nat.succ_le_succ hlen, fun p hp => ?_, hseq'', hgood', hhigh', hqueued'',
        ⟨hsends.aru, hsends.myAru, hsends.lastToken, hsends.receivedTokenRounds,
          hsends.tokenCounter⟩⟩
      rcases List.mem_cons.mp hp with rfl | hp
      · rfl
      · exact hproc p hp

/-! ## The token visits -/

/-- Flow control keeps the numbers in use within the places for packets. -/
theorem fcAllowed_room (h : d.Good me order) {conf : Conf} (hconf : conf.Fits)
    (hhigh : d.highestSeq = order.length)
    (flowControl : BitVec 16) :
    order.length + (fcAllowed conf d flowControl).toNat ≤ d.aru + 8192 := by
  have hroom := h.store.room
  unfold fcAllowed
  split_ifs with hgap
  · simpa using hroom
  · rw [hhigh] at hgap
    unfold Conf.Fits maxSeqGap at hconf
    unfold maxSeqGap at hgap
    show order.length + (min _ conf.personalWindow.toInt).toNat ≤ _
    omega

theorem nextAru_eq {aru tokenAru lastAru : ℕ} (h : aru ≤ min tokenAru lastAru) :
    nextAru aru tokenAru lastAru = .ok (min tokenAru lastAru) := by
  unfold nextAru
  by_cases hlt : lastAru < tokenAru
  · rw [if_pos hlt, if_pos (by omega), Nat.min_eq_right (by omega)]
  · rw [if_neg hlt, if_pos (by omega), Nat.min_eq_left (by omega)]

theorem lt_of_mem_requests {q m : ℕ} (h : q ∈ d.requests m) : d.myAru < q := by
  have hmem := List.mem_of_mem_filter (List.mem_of_mem_take h)
  exact (List.mem_range'_1.mp hmem).1

/-- The deliveries at the end of a visit, once `Aru` has gone up. -/
theorem deliver_good (hseq : Sequenced order) (h : d.Good me order) (aru : ℕ) (hge : d.aru ≤ aru)
    (hle : aru ≤ d.myAru) (numSent : ℕ) : ∃ st, deliver { d with aru := aru } numSent = .ok st ∧
      Good me order { d with aru := aru, store := st } := by
  have hmy := h.myAru_le
  have hstore := h.store
  rw [← h.discarded] at hstore
  obtain ⟨st, hrun, hgood, hlast, -, hexist, hsafe⟩ := hstore.discardPackets_good hseq aru
    (by rw [h.discarded]; exact hge) (by omega)
    fun q hq hq' => h.exist q (by rw [← h.discarded]; exact hq) (by omega)
  have hlo := hgood.lo_le
  obtain ⟨st', hrun', hgood', -, -, hkeeps⟩ := hgood.deliverAgreedPackets_good hseq hmy
    fun q hq hq' => by
      rw [hexist q (by omega) (by omega)]
      exact h.exist q (by omega) hq'
  obtain ⟨st'', hrun'', hgood'', hlast'', hkeeps'⟩ :=
    Store.Good.deliverReliableLoop_good hseq (d.highestSeq - numSent + 1 + numSent -
      max (d.highestSeq - numSent + 1) (st'.lastDelivered + 1))
      (max (d.highestSeq - numSent + 1) (st'.lastDelivered + 1)) hgood'
  have hreliable : st'.deliverReliablePackets (d.highestSeq - numSent + 1) numSent = .ok st'' :=
    hrun''
  have hkept := hkeeps.trans hkeeps'
  refine ⟨st'', ?_, ?_⟩
  · simp only [deliver, hrun, bind, Except.bind, hrun', hreliable]
  · rw [← hlast''] at hgood''
    exact {
      store := hgood''
      discarded := hkept.lastDiscarded.trans hlast
      exist := fun q hq hq' => by
        have hq'' : q ≤ d.myAru := hq'
        rw [hkept.exist, hexist q hq (by omega)]
        exact h.exist q (Nat.lt_of_le_of_lt hge hq) hq'
      myAru_le := hmy
      highest_le := h.highest_le
      own := fun k p hk hp hlt => by
        have hlt' : k < order.length := (List.getElem?_eq_some_iff.mp hk).1
        rw [hkept.exist, hexist (k + 1) hlt hlt']
        exact h.own k p hk hp (Nat.lt_of_le_of_lt hge hlt)
      safe := fun p hp hs => by
        rcases hsafe p (hkept.safe p hp hs) hs with hp | hp
        · exact Nat.le_trans (h.safe p hp hs) hge
        · exact hp }

variable [NeZero n]

/-- What a visit of token `t` comes to, when the daemon has had `ms` to send. -/
structure Visited (me : Fin n) (order : List (Packet (Fin n))) (ms : List DownLink) (d : Daemon n)
    (t : Token n) (v : Visit n) : Prop where
  procId : ∀ p ∈ v.sent, p.procId = me
  resent : ∀ p ∈ v.resent, p ∈ order
  sequenced : Sequenced (order ++ v.sent)
  room : (order ++ v.sent).length ≤ d.aru + 8192
  good : v.daemon.Good me (order ++ v.sent)
  queued : Queued me (order ++ v.sent) v.daemon.downQueue ms
  myAru : d.myAru ≤ v.daemon.myAru
  rounds : v.daemon.receivedTokenRounds = d.receivedTokenRounds + 1
  arq : v.daemon.lastToken.arq = if me = 0 then (t.arq + 1) % 16 else t.arq
  passing : v.daemon.lastToken.passing =
    { t.passing.adjust me v.daemon.myAru with top := (order ++ v.sent).length }
  aru : v.daemon.aru = min v.daemon.lastToken.aru d.lastToken.aru
  /-- The daemon asks for nothing that is below the bound that it passes on. -/
  rtr : ∀ r ∈ v.daemon.lastToken.rtr, v.daemon.lastToken.aru < r
  /-- A token that is held leaves nothing to be done. -/
  held : v.copies = 0 → (order ++ v.sent).length = d.aru

/-- **A visit of the token.** -/
theorem visit_good {conf : Conf} (hconf : conf.Fits) (hseq : Sequenced order)
    (h : d.Good me order) {t : Token n} {ms : List DownLink}
    (htop : t.seq = order.length) (hrtr : ∀ r ∈ t.rtr, d.aru ≤ r)
    (hqueued : Queued me order d.downQueue ms)
    (haru : ∀ o, d.myAru ≤ o → d.aru ≤ min (t.passing.adjust me o).bound d.lastToken.aru) :
    ∃ v, d.visit conf me t = .ok v ∧ Visited me order ms d t v := by
  -- the token is taken up
  have htaken : Good me order { d with
      highestSeq := max d.highestSeq t.seq
      receivedTokenRounds := d.receivedTokenRounds + 1 } :=
    { h with highest_le := max_le h.highest_le (Nat.le_of_eq htop) }
  have hhigh : max d.highestSeq t.seq = order.length := by
    rw [htop]
    exact Nat.max_eq_right h.highest_le
  obtain ⟨resent, hresent, hmem⟩ := answerRetrans_ok htaken hrtr
  obtain ⟨d', sent, hsent, -, hproc, hseq', hgood, hhigh', hqueued', hsends⟩ :=
    sendNewPackets_good _ hseq htaken hhigh hqueued
      (fcAllowed_room htaken hconf hhigh t.flowControl)
  have hmy : d.myAru ≤ d'.advance := by
    rw [show d.myAru = d'.myAru from hsends.myAru.symm]
    exact le_advance d'
  have hbound := (t.passing).bound_adjust_le me d'.advance
  obtain ⟨st, hdeliver, hgood'⟩ := deliver_good hseq' hgood.advance
    (min (t.passing.adjust me d'.advance).bound d.lastToken.aru)
    (by rw [hsends.aru]; exact haru _ hmy) (Nat.le_trans (Nat.min_le_left _ _) hbound) sent.length
  let d₁ : Daemon n := { d' with myAru := d'.advance }
  let token := d₁.passToken conf me t resent.length sent.length
  have haru' : nextAru d₁.aru token.aru d₁.lastToken.aru =
      .ok (min token.aru d.lastToken.aru) := by
    show nextAru d'.aru _ d'.lastToken.aru = _
    rw [hsends.aru, hsends.lastToken]
    exact nextAru_eq (haru _ hmy)
  let d₂ : Daemon n := { d₁ with
    aru := min token.aru d.lastToken.aru
    lastNumRetrans := resent.length
    lastNumSent := sent.length
    tokenCounter := if d₁.highestSeq = min token.aru d.lastToken.aru then d₁.tokenCounter + 1 else 0
    lastToken := token }
  have hdeliver' : d₂.deliver sent.length = .ok st := hdeliver
  have hrun : d.visit conf me t = .ok ⟨{ d₂ with store := st }, resent, sent,
      if me = 0 ∧ d₁.isTokenHold then 0 else copies token.retrans⟩ := by
    unfold visit
    simp only [hresent, hsent, bind, Except.bind]
    rw [haru']
    simp only
    rw [hdeliver']
    rfl
  refine ⟨_, hrun, ?_⟩
  exact {
    procId := hproc
    resent := hmem
    sequenced := hseq'
    room := by rw [← hsends.aru]; exact hgood.store.room
    good := { hgood' with }
    queued := hqueued'
    myAru := hmy
    rounds := hsends.receivedTokenRounds
    arq := rfl
    passing := by
      show Passing.mk d'.highestSeq _ _ = _
      rw [hhigh']
      rfl
    aru := rfl
    rtr := fun r hr => Nat.lt_of_le_of_lt hbound (lt_of_mem_requests hr)
    held := fun hzero => by
      by_cases hhold : me = 0 ∧ d₁.isTokenHold
      · have haru : d'.aru = d'.highestSeq := hhold.2.2.1
        rw [← hhigh', ← haru, hsends.aru]
      · have hcopies : copies token.retrans = 0 := by
          rw [← hzero]
          exact (if_neg hhold).symm
        unfold copies at hcopies
        split_ifs at hcopies }

end Daemon

end ReplicatedScheduler.Spread
