import ReplicatedScheduler.Spread.Delivery

/-!
# What is handed up stays handed up

A step of the ring puts messages at the end of what a daemon has handed up (`handedUp_prefix`), and
each of them was handed down by its sender (`Good.handedDown`).
-/

namespace ReplicatedScheduler.Spread

open Lib Lts

/-! ## The store -/

namespace Store

variable {ι : Type}

/-- What was handed up is still there. -/
def Grows (st st' : Store ι) : Prop := st.handedUp <+: st'.handedUp

theorem Grows.refl (st : Store ι) : Grows st st := List.prefix_refl _

theorem Grows.trans {st st' st'' : Store ι} (h : Grows st st') (h' : Grows st' st'') :
    Grows st st'' := List.IsPrefix.trans h h'

variable [DecidableEq ι]

theorem deliverPacket_grows {st st' : Store ι} {entry : ℕ} {p : Packet ι}
    (h : st.deliverPacket entry p = .ok st') : Grows st st' := by
  unfold deliverPacket at h
  split_ifs at h
  obtain rfl := Except.ok.inj h
  exact List.prefix_append _ _

theorem deliverAgreedLoop_grows {k i : ℕ} {st st' : Store ι}
    (h : st.deliverAgreedLoop k i = .ok st') : Grows st st' := by
  induction k generalizing st i with
  | zero =>
    obtain rfl := Except.ok.inj h
    exact Grows.refl st
  | succ k ih =>
    unfold deliverAgreedLoop at h
    split at h
    · split_ifs at h
      · split at h
        · rename_i st₁ hrun
          have hrest := ih h
          exact (deliverPacket_grows hrun).trans hrest
        · cases h
      · obtain rfl := Except.ok.inj h
        exact Grows.refl st
    · split_ifs at h
      have hrest := ih h
      exact hrest
    · cases h

theorem deliverReliableLoop_grows {k i : ℕ} {st st' : Store ι}
    (h : st.deliverReliableLoop k i = .ok st') : Grows st st' := by
  induction k generalizing st i with
  | zero =>
    obtain rfl := Except.ok.inj h
    exact Grows.refl st
  | succ k ih =>
    unfold deliverReliableLoop at h
    split at h
    · split_ifs at h
      · split at h
        · rename_i st₁ hrun
          exact (deliverPacket_grows hrun).trans (ih h)
        · cases h
      · exact ih h
    · exact ih h

theorem discardLoop_grows {k i : ℕ} {st st' : Store ι}
    (h : st.discardLoop k i = .ok st') : Grows st st' := by
  induction k generalizing st i with
  | zero =>
    obtain rfl := Except.ok.inj h
    exact Grows.refl st
  | succ k ih =>
    unfold discardLoop at h
    split at h
    · split at h
      · rename_i st₁ hrun
        have hrest := ih h
        exact (deliverPacket_grows hrun).trans hrest
      · cases h
    · have hrest := ih h
      exact hrest
    · cases h

theorem discardPackets_grows {st st' : Store ι} {aru : ℕ}
    (h : st.discardPackets aru = .ok st') : Grows st st' := by
  unfold discardPackets at h
  split_ifs at h
  · obtain rfl := Except.ok.inj h
    exact Grows.refl st
  · split at h
    · rename_i st₁ hrun
      obtain rfl := Except.ok.inj h
      have hloop := discardLoop_grows hrun
      exact hloop
    · cases h

end Store

/-! ## Daemons -/

namespace Daemon

variable {n : ℕ} {d d' : Daemon n}

theorem handleBcast_grows {p : Packet (Fin n)} (h : d.handleBcast p = .ok d') :
    d.store.Grows d'.store := by
  unfold handleBcast at h
  split_ifs at h
  · obtain rfl := Except.ok.inj h
    exact Store.Grows.refl _
  · obtain rfl := Except.ok.inj h
    exact Store.Grows.refl _
  · simp only at h
    split at h
    · rename_i st hrun
      obtain rfl := Except.ok.inj h
      have hloop := Store.deliverAgreedLoop_grows hrun
      exact hloop
    · cases h
  · simp only at h
    split at h
    · rename_i st hrun
      obtain rfl := Except.ok.inj h
      have hloop := Store.deliverReliableLoop_grows hrun
      exact hloop
    · cases h

theorem sendNewPackets_handedUp {me : Fin n} {k : ℕ} {sent : List (Packet (Fin n))}
    (h : sendNewPackets me k d = .ok (d', sent)) : d'.store.handedUp = d.store.handedUp := by
  induction k generalizing d sent with
  | zero =>
    cases h
    rfl
  | succ k ih =>
    unfold sendNewPackets at h
    split at h
    · cases h
      rfl
    · simp only at h
      split_ifs at h
      split at h
      · rename_i hrun
        cases h
        have hrest := ih hrun
        exact hrest
      · cases h

theorem deliver_grows {numSent : ℕ} {st : Store (Fin n)} (h : d.deliver numSent = .ok st) :
    d.store.Grows st := by
  unfold deliver at h
  simp only [bind, Except.bind] at h
  split at h
  · cases h
  · rename_i st₁ hdiscard
    split at h
    · cases h
    · rename_i st₂ hagreed
      exact (Store.discardPackets_grows hdiscard).trans
        ((Store.deliverAgreedLoop_grows hagreed).trans (Store.deliverReliableLoop_grows h))

variable [NeZero n]

theorem visit_grows {conf : Conf} {me : Fin n} {t : Token n} {v : Visit n}
    (h : d.visit conf me t = .ok v) : d.store.Grows v.daemon.store := by
  unfold visit at h
  simp only [bind, Except.bind] at h
  split at h
  · cases h
  split at h
  · cases h
  rename_i r hsent
  obtain ⟨d₁, sent⟩ := r
  split at h
  · cases h
  split at h
  · cases h
  rename_i st hdeliver
  cases h
  have hsame := sendNewPackets_handedUp hsent
  change d₁.store.handedUp = d.store.handedUp at hsame
  have hgrows := deliver_grows hdeliver
  change d₁.store.handedUp <+: st.handedUp at hgrows
  rw [hsame] at hgrows
  exact hgrows

end Daemon

/-! ## The ring -/

namespace Ring

variable {n : ℕ} {x x' : Ring n}

theorem grows_set {i : Fin n} {d : Daemon n} (h : (x.daemons i).store.Grows d.store) (j : Fin n) :
    (x.daemons j).store.Grows ((x.set i d).daemons j).store := by
  show Store.Grows _ (Function.update x.daemons i d j).store
  by_cases hj : j = i
  · subst hj
    rw [Function.update_self]
    exact h
  · rw [Function.update_of_ne hj]
    exact Store.Grows.refl _

theorem store_set (x : Ring n) {i : Fin n} {d : Daemon n} (h : d.store = (x.daemons i).store)
    (j : Fin n) : ((x.set i d).daemons j).store = (x.daemons j).store := by
  show (Function.update x.daemons i d j).store = _
  by_cases hj : j = i
  · subst hj
    rw [Function.update_self, h]
  · rw [Function.update_of_ne hj]

variable [NeZero n] {conf : Conf}

theorem store_tokenHurry (x : Ring n) (i j : Fin n) :
    ((x.tokenHurry i).daemons j).store = (x.daemons j).store :=
  x.store_set (d := (x.daemons i).hurry i) rfl j

theorem store_handleHurry (x : Ring n) (j : Fin n) :
    (x.handleHurry.daemons j).store = (x.daemons j).store := by
  unfold handleHurry
  split_ifs
  · rw [store_tokenHurry, store_set]
    rfl
  · rfl

theorem store_newMessage (x : Ring n) (i : Fin n) (m : DownLink) (j : Fin n) :
    ((x.newMessage i m).daemons j).store = (x.daemons j).store := by
  have hset := x.store_set (i := i) (d := { x.daemons i with
    downQueue := protNewMessage (x.daemons i).downQueue m }) rfl j
  unfold newMessage
  simp only
  split_ifs
  · rw [store_handleHurry]
    exact hset
  · exact hset
  · exact hset

/-- **A step hands up more, and takes nothing back.** -/
theorem handedUp_prefix {a : Action n} (hstep : step conf x a = some x') (j : Fin n) :
    (x.daemons j).store.handedUp <+: (x'.daemons j).store.handedUp := by
  show (x.daemons j).store.Grows (x'.daemons j).store
  unfold step at hstep
  split_ifs at hstep
  cases a with
  | newMessage i m =>
    cases hstep
    rw [store_newMessage]
    exact Store.Grows.refl _
  | bcast i k =>
    obtain ⟨p, -, rfl⟩ := Option.map_eq_some_iff.mp hstep
    split
    · rename_i d hrun
      exact grows_set (Daemon.handleBcast_grows hrun) j
    · exact Store.Grows.refl _
  | token k =>
    obtain ⟨c, -, rfl⟩ := Option.map_eq_some_iff.mp hstep
    unfold handleToken
    simp only
    split_ifs
    · exact Store.Grows.refl _
    · split
      · rename_i v hrun
        exact grows_set (Daemon.visit_grows hrun) j
      · exact Store.Grows.refl _
    · rw [store_tokenHurry]
      refine grows_set ?_ j
      exact Store.Grows.refl (x.daemons c.dest).store
    · exact Store.Grows.refl _
  | hurryEvent =>
    cases hstep
    rw [store_tokenHurry]
    exact Store.Grows.refl _
  | hurry k =>
    obtain ⟨i, -, rfl⟩ := Option.map_eq_some_iff.mp hstep
    rw [store_handleHurry]
    exact Store.Grows.refl _

/-- A message that is handed up was handed down by its sender. -/
theorem Good.handedDown (h : x.Good) (i : Fin n) {m : Handed (Fin n)}
    (hm : m ∈ (x.daemons i).store.handedUp) : ∃ l ∈ x.submitted m.procId, l.elements = m.mess := by
  by_cases hsingle : m.single = true
  · obtain ⟨l, hl, -, helem⟩ := h.single_reliable i hm hsingle
    exact ⟨l, hl, helem⟩
  · obtain ⟨hsub, -⟩ := assemble_inOrder m.procId [] (h.sequenced.chained m.procId)
      fun p hp => (h.sequenced.whole p hp).1
    have hmem : m.mess ∈ ((x.daemons i).store.handedUp.filter
        fun e => e.procId = m.procId ∧ ¬ e.single).map Handed.mess :=
      List.mem_map_of_mem (List.mem_filter.mpr ⟨hm, by simpa using hsingle⟩)
    have hall := (h.assemble_prefix m.procId).subset
      (hsub.subset ((h.ordered_messages i m.procId).subset hmem))
    exact List.mem_map.mp hall

end Ring

end ReplicatedScheduler.Spread
