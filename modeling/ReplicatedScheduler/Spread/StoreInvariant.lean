import ReplicatedScheduler.Spread.Store

/-!
# The invariant of a store of packets

**The invariant** (`Store.Good`). The packets were numbered in one order. The store has packets
above `lo` only, each in its own place; it has delivered all up to `dl`, and above that only
reliable ones of one packet. The arrival of a packet, its delivery, and forgetting it are one lemma
each (`insert`, `deliver` and `advance`, `forget`).

**No alarm** (`deliverAgreedPackets_good`, `deliverReliableLoop_good`, `discardPackets_good`). The
three loops that deliver keep the invariant, as long as what they are to deliver exists. The
sequence check of `Deliver_packet` never fails: a packet that is delivered in its turn continues the
message that its sender began (`sequence_check`).
-/

namespace ReplicatedScheduler.Spread

variable {ι : Type}

namespace Store

/-! ## What delivery changes -/

/-- What `Deliver_packet` changes in the store. -/
structure Delivers (st : Store ι) (entry : ℕ) (p : Packet ι) (st' : Store ι) : Prop where
  packets : st'.packets = Function.update st.packets entry (some ⟨p, true⟩)
  delivered : st'.delivered = st.delivered ++ [p]
  lastDiscarded : st'.lastDiscarded = st.lastDiscarded
  lastDelivered : st'.lastDelivered = st.lastDelivered

/-- What delivery leaves as it is: which packets exist, and what is forgotten. A safe packet is
not delivered. -/
structure Keeps (st st' : Store ι) : Prop where
  exist : ∀ q, st'.exist q = st.exist q
  lastDiscarded : st'.lastDiscarded = st.lastDiscarded
  safe : ∀ p ∈ st'.delivered, p.type = .safe → p ∈ st.delivered

theorem Keeps.refl (st : Store ι) : Keeps st st := ⟨fun _ => rfl, rfl, fun _ hp _ => hp⟩

theorem Keeps.trans {st st' st'' : Store ι} (h : Keeps st st') (h' : Keeps st' st'') :
    Keeps st st'' :=
  ⟨fun q => (h'.exist q).trans (h.exist q), h'.lastDiscarded.trans h.lastDiscarded,
    fun p hp hs => h.safe p (h'.safe p hp hs) hs⟩

theorem Keeps.setDelivered {st st' : Store ι} (h : Keeps st st') (n : ℕ) :
    Keeps st { st' with lastDelivered := n } := ⟨h.exist, h.lastDiscarded, h.safe⟩

theorem Delivers.keeps {st st' : Store ι} {q : ℕ} {p : Packet ι} {f : Bool}
    (hp : st.packets (packetEntry q) = some ⟨p, f⟩) (h : Delivers st (packetEntry q) p st')
    (hs : p.type ≠ .safe) : Keeps st st' := by
  refine ⟨fun r => ?_, h.lastDiscarded, fun r hr hsafe => ?_⟩
  · unfold exist
    rw [h.packets]
    by_cases hrq : packetEntry r = packetEntry q
    · rw [hrq, Function.update_self, hp]
      rfl
    · rw [Function.update_of_ne hrq]
  · rw [h.delivered] at hr
    rcases List.mem_append.mp hr with hr | hr
    · exact hr
    · rw [List.mem_singleton.mp hr] at hsafe
      exact absurd hsafe hs

/-! ## The invariant -/

variable [DecidableEq ι]

/-- A store that has packets of `order` above `lo` only, and has delivered all up to `dl`. -/
structure Good (order : List (Packet ι)) (lo dl : ℕ) (st : Store ι) : Prop where
  lo_le : lo ≤ dl
  dl_le : dl ≤ order.length
  room : order.length ≤ lo + 8192
  slot : ∀ k i, st.packets k = some i → order[i.packet.seq - 1]? = some i.packet ∧
    lo < i.packet.seq ∧ packetEntry i.packet.seq = k
  done : ∀ q, lo < q → q ≤ dl → ∃ p, st.packets (packetEntry q) = some ⟨p, true⟩
  early : ∀ k p, st.packets k = some ⟨p, true⟩ → p.seq ≤ dl ∨ p.Single
  inOrder_delivered : inOrder st.delivered = inOrder (order.take dl)
  mem_delivered : ∀ p, p ∈ st.delivered ↔
    p ∈ order ∧ (p.seq ≤ dl ∨ st.packets (packetEntry p.seq) = some ⟨p, true⟩)
  nodup : st.delivered.Nodup
  handed : (st.upQueue, st.handedUp.filter fun h => ¬ h.single) = handUps (inOrder (order.take dl))
  singles : (st.handedUp.filter fun h => h.single) = (st.delivered.filter fun p => p.Single).flatMap
    fun p => p.contents.fragments.map fun f => ⟨p.procId, true, [f.body]⟩

namespace Good

variable {order : List (Packet ι)} {lo dl : ℕ} {st : Store ι}

theorem empty : Good ([] : List (Packet ι)) 0 0 empty := by
  refine ⟨Nat.le_refl _, Nat.le_refl _, Nat.zero_le _, ?_, ?_, ?_, rfl, ?_, List.nodup_nil, rfl, rfl⟩
  · intro k i h
    cases h
  · intro q h h'
    omega
  · intro k p h
    cases h
  · intro p
    simp [Store.empty]

/-- Numbers that may be in use at the same time have different places. -/
theorem eq_of_packetEntry (h : Good order lo dl st) {q r : ℕ} (hq : lo < q) (hr : lo < r)
    (hq' : q ≤ order.length) (hr' : r ≤ order.length) (he : packetEntry q = packetEntry r) :
    q = r := by
  have hroom := h.room
  rw [packetEntry_eq, packetEntry_eq] at he
  omega

/-- What is at the place of `q` is packet `q`. -/
theorem slot_eq (h : Good order lo dl st) {q : ℕ} (hq : lo < q) (hq' : q ≤ order.length)
    {i : PacketInfo ι} (hi : st.packets (packetEntry q) = some i) :
    i.packet.seq = q ∧ order[q - 1]? = some i.packet := by
  obtain ⟨horder, hlo, hentry⟩ := h.slot _ i hi
  have hseq := h.eq_of_packetEntry hlo hq (seq_le horder (by omega)) hq' hentry
  rw [hseq] at horder
  exact ⟨hseq, horder⟩

/-! ### Arrival -/

theorem insert (h : Good order lo dl st) {p : Packet ι} (horder : order[p.seq - 1]? = some p)
    (hlo : lo < p.seq) (hfree : st.packets (packetEntry p.seq) = none) :
    Good order lo dl (st.insert p) := by
  have hother : ∀ {k i}, (st.insert p).packets k = some i →
      (k = packetEntry p.seq ∧ i = ⟨p, false⟩) ∨ st.packets k = some i := by
    intro k i hk
    show _ ∨ _
    by_cases hkp : k = packetEntry p.seq
    · subst hkp
      refine Or.inl ⟨rfl, ?_⟩
      rw [packets_insert, Function.update_self] at hk
      exact (Option.some.inj hk).symm
    · refine Or.inr ?_
      rw [packets_insert, Function.update_of_ne hkp] at hk
      exact hk
  have hsame : ∀ {k i}, st.packets k = some i → (st.insert p).packets k = some i := by
    intro k i hk
    have hkp : k ≠ packetEntry p.seq := by
      rintro rfl
      rw [hfree] at hk
      cases hk
    rw [packets_insert, Function.update_of_ne hkp]
    exact hk
  refine { h with
    slot := fun k i hk => ?slot
    done := fun q hq hq' => (h.done q hq hq').imp fun r hr => hsame hr
    early := fun k q hk => ?early
    mem_delivered := fun q => (h.mem_delivered q).trans ?mem }
  case slot =>
    rcases hother hk with ⟨rfl, rfl⟩ | hk
    · exact ⟨horder, hlo, rfl⟩
    · exact h.slot k i hk
  case early =>
    rcases hother hk with ⟨-, hfalse⟩ | hk
    · cases hfalse
    · exact h.early k q hk
  case mem =>
    refine and_congr_right fun _ => or_congr_right ⟨hsame, fun hk => ?_⟩
    rcases hother hk with ⟨-, hfalse⟩ | hk
    · cases hfalse
    · exact hk

/-- More packets are numbered. -/
theorem extend (h : Good order lo dl st) {new : List (Packet ι)}
    (hseq : Sequenced (order ++ new)) (hroom : (order ++ new).length ≤ lo + 8192) :
    Good (order ++ new) lo dl st := by
  have hdl : dl ≤ order.length := h.dl_le
  have htake : (order ++ new).take dl = order.take dl := List.take_append_of_le_length hdl
  refine { h with
    dl_le := ?dl_le
    room := hroom
    slot := fun k i hk => ?slot
    inOrder_delivered := by rw [htake]; exact h.inOrder_delivered
    mem_delivered := fun p => ?mem
    handed := by rw [htake]; exact h.handed }
  case dl_le =>
    rw [List.length_append]
    omega
  case slot =>
    obtain ⟨horder, hlo, hentry⟩ := h.slot k i hk
    refine ⟨?_, hlo, hentry⟩
    rw [List.getElem?_append_left (List.getElem?_eq_some_iff.mp horder).1]
    exact horder
  case mem =>
    rw [h.mem_delivered p, List.mem_append]
    refine ⟨fun ⟨hp, hd⟩ => ⟨Or.inl hp, hd⟩, fun ⟨hp, hd⟩ => ⟨?_, hd⟩⟩
    rcases hp with hp | hp
    · exact hp
    · -- a new packet is neither delivered nor in the store
      obtain ⟨j, hj, rfl⟩ := List.getElem_of_mem hp
      have hnum := hseq.numbered (order.length + j) new[j]
        (by rw [List.getElem?_append_right (by omega)]; simp)
      rcases hd with hd | hd
      · omega
      · have hle := seq_le (h.slot _ _ hd).1 (by simp only; omega)
        simp only at hle
        omega

/-! ### Delivery -/

theorem handUp_single (up : Option ι → List Body) {p : Packet ι} (hs : p.Single)
    (hup : up none = []) : handUp up p =
      (up, p.contents.fragments.map fun f => ⟨p.procId, true, [f.body]⟩) := by
  have hkey : p.upKey = none := if_pos hs
  have hneg : p.contents.first.index < 0 := by
    rw [show p.contents.first.index = -1 from hs.2]
    decide
  have hsame : Function.update up none [] = up := by
    rw [← hup]
    exact Function.update_eq_self none up
  simp [handUp, hkey, hneg, hup, hsame, hs, Contents.fragments, Packet.first]

theorem single_of_mem_handUp {up : Option ι → List Body} {p : Packet ι} {m : Handed ι}
    (h : m ∈ (handUp up p).2) : m.single = decide p.Single := by
  unfold handUp at h
  split_ifs at h
  · rcases List.mem_cons.mp h with rfl | h
    · rfl
    · obtain ⟨f, -, rfl⟩ := List.mem_map.mp h
      rfl
  · obtain ⟨f, -, rfl⟩ := List.mem_map.mp h
    rfl

/-- The sequence check of a packet that is delivered when its turn is. -/
theorem sequence_check (hseq : Sequenced order) {q : ℕ} {p : Packet ι}
    (hq : order[q]? = some p) (hs : ¬ p.Single) :
    ((handUps (inOrder (order.take q))).1 p.upKey).length + 1 = p.first.index.natAbs := by
  have hwhole : ∀ ps : List (Packet ι), (∀ r ∈ ps, r ∈ order) → ∀ r ∈ inOrder ps,
      r.contents.Whole ∧ (¬ r.first.index < 0 → r.contents.rest = []) :=
    fun ps hps r hr => hseq.whole r (hps r (List.mem_of_mem_filter hr))
  have hkey : p.upKey = some p.procId := if_neg hs
  obtain ⟨-, hup, -⟩ := handUps_eq (fun r hr => by simpa using (List.mem_filter.mp hr).2)
    (hwhole (order.take q) fun r hr => List.mem_of_mem_take hr) p.procId
  rw [hkey, hup]
  have horder : order = order.take q ++ (p :: order.drop (q + 1)) := by
    obtain ⟨hlt, rfl⟩ := List.getElem?_eq_some_iff.mp hq
    rw [← List.drop_eq_getElem_cons hlt, List.take_append_drop]
  have hchained := chained_inOrder p.procId (hseq.chained p.procId) fun r hr => (hseq.whole r hr).1
  rw [horder, inOrder_append, fragmentsOf_append] at hchained
  have hnext := chained_rest [] hchained
  have hcons : inOrder (p :: order.drop (q + 1)) = [p] ++ inOrder (order.drop (q + 1)) := by
    rw [← inOrder_of_not_single hs, ← inOrder_append]
    rfl
  rw [hcons, fragmentsOf_append, fragmentsOf_singleton, if_pos rfl] at hnext
  exact hnext.1.symm

/-- **A packet is delivered**: a reliable one of one packet at any time, any other in its turn. -/
theorem deliver (hseq : Sequenced order) (h : Good order lo dl st) {q dl' : ℕ} {p : Packet ι}
    (hq : lo < q) (hq' : q ≤ order.length) (hp : st.packets (packetEntry q) = some ⟨p, false⟩)
    (hdl : (p.Single ∧ dl' = dl) ∨ (¬ p.Single ∧ q = dl + 1 ∧ dl' = dl + 1)) :
    ∃ st', st.deliverPacket (packetEntry q) p = .ok st' ∧ Good order lo dl' st' ∧
      Delivers st (packetEntry q) p st' := by
  obtain ⟨hpq, horder⟩ := h.slot_eq hq hq' hp
  simp only at hpq horder
  have hle : dl ≤ dl' := by omega
  have hle' : dl' ≤ order.length := by
    have hdl_le := h.dl_le
    omega
  have hcases : ∀ r, r ≤ dl' → r ≤ dl ∨ r = q := by omega
  have hearly : p.seq ≤ dl' ∨ p.Single := by
    rcases hdl with ⟨hs, -⟩ | ⟨-, rfl, rfl⟩
    · exact Or.inr hs
    · exact Or.inl (by omega)
  have htake : inOrder (order.take dl') = inOrder (order.take dl) ++ inOrder [p] := by
    rcases hdl with ⟨hs, rfl⟩ | ⟨-, rfl, rfl⟩
    · rw [inOrder_of_single hs, List.append_nil]
    · rw [Nat.add_sub_cancel] at horder
      rw [← inOrder_append, List.take_add_one, horder]
      rfl
  have hup : st.upQueue = (handUps (inOrder (order.take dl))).1 := congrArg Prod.fst h.handed
  have hmess : st.handedUp.filter (fun m => ¬ m.single) = (handUps (inOrder (order.take dl))).2 :=
    congrArg Prod.snd h.handed
  have hnone : st.upQueue none = [] := by
    rw [hup]
    refine (handUps_eq (fun r hr => by simpa using (List.mem_filter.mp hr).2) (fun r hr => ?_)
      p.procId).1
    exact hseq.whole r (List.mem_of_mem_take (List.mem_of_mem_filter hr))
  have hcheck : (st.upQueue p.upKey).length + 1 = p.first.index.natAbs := by
    rcases hdl with ⟨hs, -⟩ | ⟨hs, rfl, -⟩
    · rw [show p.upKey = none from if_pos hs, hnone, hs.2]
      rfl
    · rw [hup]
      exact sequence_check hseq (by simpa using horder) hs
  -- the packet was not delivered before
  have hfresh : p ∉ st.delivered := by
    rw [h.mem_delivered p]
    rintro ⟨-, hd | hd⟩
    · obtain ⟨r, hr⟩ := h.done p.seq (by omega) hd
      rw [hpq, hp] at hr
      cases hr
    · rw [hpq, hp] at hd
      cases hd
  have hother : ∀ {k i}, Function.update st.packets (packetEntry q) (some ⟨p, true⟩) k = some i →
      (k = packetEntry q ∧ i = ⟨p, true⟩) ∨ (k ≠ packetEntry q ∧ st.packets k = some i) := by
    intro k i hk
    by_cases hkq : k = packetEntry q
    · subst hkq
      rw [Function.update_self] at hk
      exact Or.inl ⟨rfl, (Option.some.inj hk).symm⟩
    · rw [Function.update_of_ne hkq] at hk
      exact Or.inr ⟨hkq, hk⟩
  refine ⟨_, if_neg (not_not.mpr hcheck), ⟨Nat.le_trans h.lo_le hle, hle', h.room, ?slot, ?done,
    ?early, ?inOrder, ?mem, ?nodup, ?handed, ?singles⟩, ⟨rfl, rfl, rfl, rfl⟩⟩
  case slot =>
    intro k i hk
    rcases hother hk with ⟨rfl, rfl⟩ | ⟨-, hk⟩
    · have hslot := h.slot _ _ hp
      exact hslot
    · exact h.slot k i hk
  case done =>
    intro r hr hr'
    by_cases hrq : packetEntry r = packetEntry q
    · exact ⟨p, by simp [hrq]⟩
    · rcases hcases r hr' with hr' | rfl
      · exact (h.done r hr hr').imp fun t ht => by simpa [Function.update_of_ne hrq] using ht
      · exact absurd rfl hrq
  case early =>
    intro k r hk
    rcases hother hk with ⟨-, hr⟩ | ⟨-, hk⟩
    · cases hr
      exact hearly
    · exact (h.early k r hk).imp_left fun hr => Nat.le_trans hr hle
  case inOrder =>
    show inOrder (st.delivered ++ [p]) = _
    rw [inOrder_append, h.inOrder_delivered, htake]
  case mem =>
    intro r
    show r ∈ st.delivered ++ [p] ↔ _
    rw [List.mem_append, List.mem_singleton, h.mem_delivered r]
    constructor
    · rintro (⟨hr, hd | hd⟩ | rfl)
      · exact ⟨hr, Or.inl (Nat.le_trans hd hle)⟩
      · refine ⟨hr, Or.inr ?_⟩
        have hne : packetEntry r.seq ≠ packetEntry q := by
          intro he
          rw [he, hp] at hd
          cases hd
        simpa [Function.update_of_ne hne] using hd
      · exact ⟨List.mem_of_getElem? horder, Or.inr (by simp [hpq])⟩
    · rintro ⟨hr, hd | hd⟩
      · rcases hcases _ hd with hd | hd
        · exact Or.inl ⟨hr, Or.inl hd⟩
        · obtain ⟨j, hj⟩ := List.mem_iff_getElem?.mp hr
          have hnum := hseq.numbered j r hj
          rw [show q - 1 = j by omega, hj] at horder
          exact Or.inr (Option.some.inj horder)
      · rcases hother hd with ⟨-, hrp⟩ | ⟨-, hd⟩
        · cases hrp
          exact Or.inr rfl
        · exact Or.inl ⟨hr, Or.inr hd⟩
  case nodup =>
    exact List.nodup_append.mpr ⟨h.nodup, List.nodup_singleton p, fun a ha b hb hab =>
      hfresh (by rw [← List.mem_singleton.mp hb, ← hab]; exact ha)⟩
  case handed =>
    show ((handUp st.upQueue p).1,
      (st.handedUp ++ (handUp st.upQueue p).2).filter fun m => ¬ m.single) = _
    rw [htake, List.filter_append, hmess]
    by_cases hs : p.Single
    · have hnil : (p.contents.fragments.map fun f =>
          (⟨p.procId, true, [f.body]⟩ : Handed ι)).filter (fun m => ¬ m.single) = [] := by
        simp [List.filter_map, Function.comp_def]
      rw [inOrder_of_single hs, List.append_nil, handUp_single _ hs hnone, hnil, List.append_nil,
        hup]
    · have hall : (handUp st.upQueue p).2.filter (fun m => ¬ m.single) =
          (handUp st.upQueue p).2 := by
        refine List.filter_eq_self.mpr fun m hm => ?_
        simp [single_of_mem_handUp hm, hs]
      rw [inOrder_of_not_single hs, handUps_concat, hall, hup]
  case singles =>
    show (st.handedUp ++ (handUp st.upQueue p).2).filter (fun m => m.single) =
      ((st.delivered ++ [p]).filter fun r => r.Single).flatMap _
    rw [List.filter_append, List.filter_append, List.flatMap_append, h.singles]
    by_cases hs : p.Single
    · rw [handUp_single _ hs hnone]
      simp [hs, List.filter_map, Function.comp_def]
    · have hnil : (handUp st.upQueue p).2.filter (fun m => m.single) = [] := by
        refine List.filter_eq_nil_iff.mpr fun m hm => ?_
        simp [single_of_mem_handUp hm, hs]
      rw [hnil]
      simp [hs]

/-- A packet whose turn it is was delivered before. -/
theorem advance (hseq : Sequenced order) (h : Good order lo dl st) {p : Packet ι}
    (hp : st.packets (packetEntry (dl + 1)) = some ⟨p, true⟩) (hle : dl + 1 ≤ order.length) :
    p.Single ∧ Good order lo (dl + 1) st := by
  have hlo := h.lo_le
  obtain ⟨hpq, horder⟩ := h.slot_eq (by omega) hle hp
  simp only [Nat.add_sub_cancel] at hpq horder
  have hs : p.Single := by
    rcases h.early _ p hp with hd | hs
    · omega
    · exact hs
  have htake : inOrder (order.take (dl + 1)) = inOrder (order.take dl) := by
    rw [List.take_add_one, horder, inOrder_append]
    show _ ++ inOrder [p] = _
    rw [inOrder_of_single hs, List.append_nil]
  refine ⟨hs, { h with
    lo_le := by omega
    dl_le := hle
    done := fun q hq hq' => ?done
    early := fun k r hr => (h.early k r hr).imp_left fun hd => by omega
    inOrder_delivered := by rw [htake]; exact h.inOrder_delivered
    mem_delivered := fun r => (h.mem_delivered r).trans (and_congr_right fun hr => ?mem)
    handed := by rw [htake]; exact h.handed }⟩
  case done =>
    rcases Nat.lt_or_eq_of_le hq' with hq' | rfl
    · exact h.done q hq (by omega)
    · exact ⟨p, hp⟩
  case mem =>
    refine ⟨fun hd => hd.imp_left fun hd => by omega, fun hd => ?_⟩
    rcases hd with hd | hd
    · rcases Nat.lt_or_eq_of_le hd with hd | hd
      · exact Or.inl (by omega)
      · -- the packet with this number is `p`
        obtain ⟨j, hj⟩ := List.mem_iff_getElem?.mp hr
        have hnum := hseq.numbered j r hj
        rw [show j = dl by omega, horder] at hj
        cases hj
        exact Or.inr (by rw [hd]; exact hp)
    · exact Or.inr hd

/-- A delivered packet is forgotten. -/
theorem forget (h : Good order lo dl st) (hlt : lo < dl) : Good order (lo + 1) dl
    { st with packets := Function.update st.packets (packetEntry (lo + 1)) none } := by
  have hdl := h.dl_le
  obtain ⟨p, hp⟩ := h.done (lo + 1) (by omega) hlt
  obtain ⟨hpq, -⟩ := h.slot_eq (by omega) (by omega) hp
  have hkept : ∀ {k i}, Function.update st.packets (packetEntry (lo + 1)) none k = some i →
      k ≠ packetEntry (lo + 1) ∧ st.packets k = some i := by
    intro k i hk
    by_cases hkq : k = packetEntry (lo + 1)
    · rw [hkq, Function.update_self] at hk
      cases hk
    · rw [Function.update_of_ne hkq] at hk
      exact ⟨hkq, hk⟩
  refine { h with
    lo_le := hlt
    room := Nat.le_trans h.room (by omega)
    slot := fun k i hk => ?slot
    done := fun q hq hq' => ?done
    early := fun k r hr => h.early k r (hkept hr).2
    mem_delivered := fun r => (h.mem_delivered r).trans (and_congr_right fun hr => ?mem) }
  case slot =>
    obtain ⟨hne, hk⟩ := hkept hk
    obtain ⟨horder, hlo, hentry⟩ := h.slot k i hk
    refine ⟨horder, Nat.lt_of_le_of_ne hlo fun he => hne ?_, hentry⟩
    rw [← hentry, ← he]
  case done =>
    have hne : packetEntry q ≠ packetEntry (lo + 1) := fun he => by
      have := h.eq_of_packetEntry (by omega) (by omega) (by omega) (by omega) he
      omega
    obtain ⟨r, hr⟩ := h.done q (by omega) hq'
    exact ⟨r, by simpa [Function.update_of_ne hne] using hr⟩
  case mem =>
    refine ⟨fun hd => ?_, fun hd => hd.imp_right fun hd => (hkept hd).2⟩
    rcases hd with hd | hd
    · exact Or.inl hd
    · by_cases he : packetEntry r.seq = packetEntry (lo + 1)
      · rw [he, hp] at hd
        cases hd
        exact Or.inl (by simp only at hpq; omega)
      · exact Or.inr (by simpa [Function.update_of_ne he] using hd)

theorem setLast (h : Good order lo dl st) (a b : ℕ) :
    Good order lo dl { st with lastDiscarded := a, lastDelivered := b } := { h with }

/-! ### The loops -/

theorem deliverAgreedLoop_good (hseq : Sequenced order) (n : ℕ) (h : Good order lo dl st)
    (hdl : st.lastDelivered = dl) (hle : dl + n ≤ order.length)
    (hexist : ∀ q, dl < q → q ≤ dl + n → st.exist q = true) :
    ∃ st' dl', st.deliverAgreedLoop n (dl + 1) = .ok st' ∧ Good order lo dl' st' ∧
      st'.lastDelivered = dl' ∧ dl ≤ dl' ∧ dl' ≤ dl + n ∧ Keeps st st' := by
  induction n generalizing st dl with
  | zero => exact ⟨st, dl, rfl, h, hdl, Nat.le_refl _, Nat.le_refl _, .refl st⟩
  | succ n ih =>
    have hlo := h.lo_le
    have hnext : ∀ (t : Store ι), Keeps st t → Good order lo (dl + 1) t →
        t.lastDelivered = dl + 1 → ∃ st' dl', t.deliverAgreedLoop n (dl + 1 + 1) = .ok st' ∧
          Good order lo dl' st' ∧ st'.lastDelivered = dl' ∧ dl ≤ dl' ∧ dl' ≤ dl + (n + 1) ∧
          Keeps st st' := by
      intro t hkeeps ht hlast
      obtain ⟨st', dl', hrun, hgood, hlast', hge, hle', hkeeps'⟩ := ih ht hlast (by omega)
        fun q hq hq' => by rw [hkeeps.exist]; exact hexist q (by omega) (by omega)
      exact ⟨st', dl', hrun, hgood, hlast', by omega, by omega, hkeeps.trans hkeeps'⟩
    obtain ⟨i, hi⟩ := Option.isSome_iff_exists.mp (hexist (dl + 1) (by omega) (by omega))
    obtain ⟨p, f⟩ := i
    simp only [deliverAgreedLoop, hi]
    cases f with
    | false =>
      by_cases hsafe : p.type = .safe
      · simp only [hsafe, ne_eq, not_true_eq_false, if_false]
        exact ⟨st, dl, rfl, h, hdl, Nat.le_refl _, by omega, .refl st⟩
      · simp only [ne_eq, hsafe, not_false_eq_true, if_true]
        by_cases hs : p.Single
        · obtain ⟨st', hok, hgood, hdel⟩ :=
            h.deliver hseq (by omega) (by omega) hi (Or.inl ⟨hs, rfl⟩)
          obtain ⟨-, hgood⟩ := hgood.advance hseq
            (p := p) (by rw [hdel.packets, Function.update_self]) (by omega)
          rw [hok]
          exact hnext _ ((hdel.keeps hi hsafe).setDelivered _) (hgood.setLast _ _)
            (by simp only [hdel.lastDelivered, hdl])
        · obtain ⟨st', hok, hgood, hdel⟩ :=
            h.deliver hseq (by omega) (by omega) hi (Or.inr ⟨hs, rfl, rfl⟩)
          rw [hok]
          exact hnext _ ((hdel.keeps hi hsafe).setDelivered _) (hgood.setLast _ _)
            (by simp only [hdel.lastDelivered, hdl])
    | true =>
      obtain ⟨hs, hgood⟩ := h.advance hseq hi (by omega)
      simp only [hs.1, reduceCtorEq, or_self, if_false]
      exact hnext _ ((Keeps.refl st).setDelivered _) (hgood.setLast _ _) (by simp only [hdl])

theorem deliverAgreedPackets_good (hseq : Sequenced order) (h : Good order lo st.lastDelivered st)
    {myAru : ℕ} (hle : myAru ≤ order.length)
    (hexist : ∀ q, st.lastDelivered < q → q ≤ myAru → st.exist q = true) :
    ∃ st', st.deliverAgreedPackets myAru = .ok st' ∧ Good order lo st'.lastDelivered st' ∧
      st.lastDelivered ≤ st'.lastDelivered ∧ st'.lastDelivered ≤ max st.lastDelivered myAru ∧
      Keeps st st' := by
  have hdl := h.dl_le
  obtain ⟨st', dl', hrun, hgood, hlast, hge, hle', hkeeps⟩ :=
    deliverAgreedLoop_good hseq (myAru - st.lastDelivered) h rfl (by omega)
      fun q hq hq' => hexist q hq (by omega)
  subst hlast
  exact ⟨st', hrun, hgood, hge, by omega, hkeeps⟩

theorem deliverReliableLoop_good (hseq : Sequenced order) (n i : ℕ) (h : Good order lo dl st) :
    ∃ st', st.deliverReliableLoop n i = .ok st' ∧ Good order lo dl st' ∧
      st'.lastDelivered = st.lastDelivered ∧ Keeps st st' := by
  induction n generalizing st i with
  | zero => exact ⟨st, rfl, h, rfl, .refl st⟩
  | succ n ih =>
    unfold deliverReliableLoop
    cases hi : st.packets (packetEntry i) with
    | none => exact ih (i + 1) h
    | some info =>
      obtain ⟨p, f⟩ := info
      cases f with
      | true => exact ih (i + 1) h
      | false =>
        by_cases hs : p.Single
        · simp only [hs, if_true]
          obtain ⟨horder, hlo, hentry⟩ := h.slot _ _ hi
          simp only at horder hlo hentry
          rw [← hentry] at hi ⊢
          obtain ⟨st', hok, hgood, hdel⟩ :=
            h.deliver hseq hlo (seq_le horder (by omega)) hi (Or.inl ⟨hs, rfl⟩)
          rw [hok]
          obtain ⟨st'', hrun, hgood', hlast, hkeeps⟩ := ih (i + 1) hgood
          refine ⟨st'', hrun, hgood', hlast.trans hdel.lastDelivered,
            (hdel.keeps hi fun hsafe => ?_).trans hkeeps⟩
          rw [hs.1] at hsafe
          cases hsafe
        · simp only [hs, if_false]
          exact ih (i + 1) h

/-- One round of `Discard_packets` delivers the packet, if that is still to be done. -/
theorem deliver_first (hseq : Sequenced order) (h : Good order lo dl st) {p : Packet ι}
    (hp : st.packets (packetEntry (lo + 1)) = some ⟨p, false⟩) (hle : lo + 1 ≤ order.length) :
    lo = dl ∧ ∃ st', st.deliverPacket (packetEntry (lo + 1)) p = .ok st' ∧
      Good order lo (dl + 1) st' ∧ Delivers st (packetEntry (lo + 1)) p st' := by
  have hlo := h.lo_le
  have heq : lo = dl := by
    by_contra hne
    obtain ⟨r, hr⟩ := h.done (lo + 1) (by omega) (by omega)
    rw [hp] at hr
    cases hr
  subst heq
  refine ⟨rfl, ?_⟩
  by_cases hs : p.Single
  · obtain ⟨st', hok, hgood, hdel⟩ := h.deliver hseq (by omega) hle hp (Or.inl ⟨hs, rfl⟩)
    exact ⟨st', hok, (hgood.advance hseq (p := p)
      (by rw [hdel.packets, Function.update_self]) hle).2, hdel⟩
  · exact h.deliver hseq (by omega) hle hp (Or.inr ⟨hs, rfl, rfl⟩)

theorem discardLoop_good (hseq : Sequenced order) (n : ℕ) (h : Good order lo dl st)
    (hle : lo + n ≤ order.length) (hexist : ∀ q, lo < q → q ≤ lo + n → st.exist q = true) :
    ∃ st', st.discardLoop n (lo + 1) = .ok st' ∧ Good order (lo + n) (max dl (lo + n)) st' ∧
      st'.lastDelivered = st.lastDelivered ∧
      (∀ q, lo + n < q → q ≤ order.length → st'.exist q = st.exist q) ∧
      ∀ p ∈ st'.delivered, p.type = .safe → p ∈ st.delivered ∨ p.seq ≤ lo + n := by
  induction n generalizing st lo dl with
  | zero =>
    have hlo := h.lo_le
    exact ⟨st, rfl, by rw [Nat.add_zero, Nat.max_eq_left hlo]; exact h, rfl, fun _ _ _ => rfl,
      fun _ hp _ => Or.inl hp⟩
  | succ n ih =>
    have hlo := h.lo_le
    -- the rest of the loop, after a store that has delivered packet `lo + 1`
    have hnext : ∀ (t : Store ι) (dl' : ℕ), Good order lo dl' t → dl' = max dl (lo + 1) →
        t.lastDelivered = st.lastDelivered → (∀ q, t.exist q = st.exist q) →
        (∀ p ∈ t.delivered, p.type = .safe → p ∈ st.delivered ∨ p.seq ≤ lo + (n + 1)) →
        ∃ st', discardLoop { t with
            packets := Function.update t.packets (packetEntry (lo + 1)) none } n (lo + 1 + 1) =
              .ok st' ∧
          Good order (lo + (n + 1)) (max dl (lo + (n + 1))) st' ∧
          st'.lastDelivered = st.lastDelivered ∧
          (∀ q, lo + (n + 1) < q → q ≤ order.length → st'.exist q = st.exist q) ∧
          ∀ p ∈ st'.delivered, p.type = .safe → p ∈ st.delivered ∨ p.seq ≤ lo + (n + 1) := by
      intro t dl' ht hdl' hlast hsame hsafe
      have hforget := ht.forget (by omega)
      have hexist' : ∀ q, lo + 1 < q → q ≤ order.length → Store.exist { t with
          packets := Function.update t.packets (packetEntry (lo + 1)) none } q = st.exist q := by
        intro q hq hq'
        have hne : packetEntry q ≠ packetEntry (lo + 1) := fun he => by
          have := h.eq_of_packetEntry (by omega) (by omega) hq' (by omega) he
          omega
        rw [← hsame q]
        simp only [exist, Function.update_of_ne hne]
      obtain ⟨st', hrun, hgood, hlast', hexist'', hsafe'⟩ := ih hforget (by omega)
        fun q hq hq' => by rw [hexist' q hq (by omega)]; exact hexist q (by omega) (by omega)
      refine ⟨st', hrun, ?_, hlast'.trans hlast, fun q hq hq' => ?_, fun p hp hs => ?_⟩
      · have hmax : max dl' (lo + 1 + n) = max dl (lo + (n + 1)) := by omega
        rw [hmax, show lo + 1 + n = lo + (n + 1) by omega] at hgood
        exact hgood
      · rw [hexist'' q (by omega) hq', hexist' q (by omega) hq']
      · rcases hsafe' p hp hs with hp | hp
        · exact hsafe p hp hs
        · exact Or.inr (by omega)
    obtain ⟨i, hi⟩ := Option.isSome_iff_exists.mp (hexist (lo + 1) (by omega) (by omega))
    obtain ⟨p, f⟩ := i
    obtain ⟨hpq, -⟩ := h.slot_eq (by omega) (by omega) hi
    simp only [discardLoop, hi]
    cases f with
    | false =>
      obtain ⟨rfl, st', hok, hgood, hdel⟩ := h.deliver_first hseq hi (by omega)
      simp only [hok]
      refine hnext st' (lo + 1) hgood (by omega) hdel.lastDelivered (fun q => ?_) fun r hr _ => ?_
      · unfold exist
        rw [hdel.packets]
        by_cases hq : packetEntry q = packetEntry (lo + 1)
        · rw [hq, Function.update_self, hi]
          rfl
        · rw [Function.update_of_ne hq]
      · rw [hdel.delivered] at hr
        rcases List.mem_append.mp hr with hr | hr
        · exact Or.inl hr
        · rw [List.mem_singleton.mp hr]
          exact Or.inr (by simp only at hpq; omega)
    | true =>
      rcases Nat.lt_or_eq_of_le hlo with hlt | rfl
      · exact hnext st dl h (by omega) rfl (fun _ => rfl) fun _ hp _ => Or.inl hp
      · exact hnext st (lo + 1) (h.advance hseq hi (by omega)).2 (by omega) rfl (fun _ => rfl)
          fun _ hp _ => Or.inl hp

/-- `Discard_packets` forgets all packets up to `aru`, and delivers those that were not. -/
theorem discardPackets_good (hseq : Sequenced order)
    (h : Good order st.lastDiscarded st.lastDelivered st) (aru : ℕ) (hge : st.lastDiscarded ≤ aru)
    (hle : aru ≤ order.length)
    (hexist : ∀ q, st.lastDiscarded < q → q ≤ aru → st.exist q = true) :
    ∃ st', st.discardPackets aru = .ok st' ∧ Good order aru st'.lastDelivered st' ∧
      st'.lastDiscarded = aru ∧ st'.lastDelivered = max st.lastDelivered aru ∧
      (∀ q, aru < q → q ≤ order.length → st'.exist q = st.exist q) ∧
      ∀ p ∈ st'.delivered, p.type = .safe → p ∈ st.delivered ∨ p.seq ≤ aru := by
  have hlo := h.lo_le
  unfold discardPackets
  by_cases haru : aru ≤ st.lastDiscarded
  · obtain rfl : aru = st.lastDiscarded := Nat.le_antisymm haru hge
    rw [if_pos haru]
    exact ⟨st, rfl, h, rfl, (Nat.max_eq_left hlo).symm, fun _ _ _ => rfl,
      fun _ hp _ => Or.inl hp⟩
  · rw [if_neg haru]
    have hsum : st.lastDiscarded + (aru - st.lastDiscarded) = aru := by omega
    obtain ⟨st', hrun, hgood, hlast, hexist', hsafe⟩ :=
      h.discardLoop_good hseq (aru - st.lastDiscarded) (by omega)
        fun q hq hq' => hexist q hq (by omega)
    rw [hsum] at hgood hexist' hsafe
    rw [hrun]
    refine ⟨_, rfl, ?_, rfl, ?_, hexist', hsafe⟩
    · rw [show max st'.lastDelivered aru = max st.lastDelivered aru by rw [hlast]]
      exact hgood.setLast _ _
    · show max st'.lastDelivered aru = _
      rw [hlast]

end Good

end Store

end ReplicatedScheduler.Spread
