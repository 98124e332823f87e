import ReplicatedScheduler.Spread.RingInvariant
import Mathlib.Data.List.Flatten
import Mathlib.Data.List.Perm.Subperm

/-!
# What the ring guarantees

In every run in which no copy of the token arrives 15 or more rounds late (`Timely`), with a
personal window that fits the places for packets:

- `no_alarm`: no daemon ends with an error;
- `token_taken_once`: the copies of the token that a daemon would take up are copies of one token,
  for one daemon;
- `delivered_in_one_order`: of what two daemons have delivered and handed up in order, one is a
  prefix of the other;
- `messages_intact`: what a daemon hands up of a sender are messages that the sender was given,
  whole, in order and none twice;
- `early_is_reliable`: what it hands up out of order was sent as reliable;
- `stable_everywhere`: a packet that a daemon has forgotten, or a safe one that it has delivered, is
  at every daemon;
- `missing_packet_kept`: a packet that a daemon lacks is still to be had from its sender;
- `held_token_idle`: the leader holds the token only when every daemon has every packet.
-/

namespace ReplicatedScheduler.Spread

open Lib Lts

/-! ## Messages of one sender -/

/-- The messages of a sender, and among them those of the packets delivered in order. The others are
the messages of the `Single` packets. -/
theorem assemble_inOrder {ι : Type} [DecidableEq ι] (i : ι) (mess : List Body)
    {ps : List (Packet ι)} (h : Chained mess.length (fragmentsOf i ps))
    (hwhole : ∀ p ∈ ps, p.contents.Whole) :
    (assemble mess (fragmentsOf i (inOrder ps))).Sublist (assemble mess (fragmentsOf i ps)) ∧
      (assemble mess (fragmentsOf i ps)).Perm (assemble mess (fragmentsOf i (inOrder ps)) ++
        (ps.filter fun p => p.Single ∧ p.procId = i).flatMap
          fun p => p.contents.fragments.map fun f => [f.body]) := by
  induction ps generalizing mess with
  | nil => exact ⟨List.Sublist.refl _, List.Perm.refl _⟩
  | cons p ps ih =>
    have hrest : ∀ q ∈ ps, q.contents.Whole := fun q hq => hwhole q (List.mem_cons_of_mem _ hq)
    have hcons : ∀ qs, fragmentsOf i (p :: qs) = fragmentsOf i [p] ++ fragmentsOf i qs :=
      fun qs => fragmentsOf_append i [p] qs
    have hin : inOrder (p :: ps) = inOrder [p] ++ inOrder ps := inOrder_append [p] ps
    rw [hcons] at h ⊢
    rw [fragmentsOf_singleton] at h ⊢
    rw [hin]
    by_cases hi : p.procId = i
    · rw [if_pos hi] at h ⊢
      by_cases hs : p.Single
      · -- a packet of whole messages comes where no message is begun
        have hmess : mess = [] := by
          have habs : p.first.index.natAbs = mess.length + 1 := h.1
          rw [hs.2] at habs
          exact List.length_eq_zero_iff.mp (by simpa using habs.symm)
        subst hmess
        have hall : ∀ f ∈ p.contents.fragments, f.index = -1 := by
          intro f hf
          rcases List.mem_cons.mp hf with rfl | hf
          · exact hs.2
          · exact hwhole p List.mem_cons_self f hf
        have hnext := chained_rest [] h
        rw [chain_whole hall] at hnext
        obtain ⟨hsub, hperm⟩ := ih [] hnext hrest
        rw [inOrder_of_single hs, List.nil_append, assemble_append, chain_whole hall,
          assemble_whole hall, List.filter_cons_of_pos (by simpa using ⟨hs, hi⟩),
          List.flatMap_cons]
        refine ⟨hsub.trans (List.sublist_append_right _ _), ?_⟩
        refine (List.Perm.append_left _ hperm).trans ?_
        rw [← List.append_assoc, ← List.append_assoc]
        exact List.Perm.append_right _ List.perm_append_comm
      · obtain ⟨hsub, hperm⟩ := ih _ (chained_rest _ h) hrest
        rw [inOrder_of_not_single hs, fragmentsOf_append, fragmentsOf_singleton, if_pos hi,
          assemble_append, assemble_append, List.filter_cons_of_neg (by simp [hs]),
          List.append_assoc]
        exact ⟨hsub.append_left _, hperm.append_left _⟩
    · rw [if_neg hi, List.nil_append] at h ⊢
      have hnone : fragmentsOf i (inOrder [p]) = [] :=
        fragmentsOf_of_ne fun q hq => by
          rw [List.mem_singleton.mp (List.mem_of_mem_filter hq)]
          exact hi
      rw [fragmentsOf_append, hnone, List.nil_append, List.filter_cons_of_neg (by simp [hi])]
      exact ih _ h hrest

/-- The messages of the `Single` packets of one sender. -/
theorem single_messages {ι : Type} [DecidableEq ι] (i : ι) (ps : List (Packet ι)) :
    (((ps.filter fun p => p.Single).flatMap fun p => p.contents.fragments.map
        fun f => (⟨p.procId, true, [f.body]⟩ : Handed ι)).filter
          fun m => m.procId = i).map Handed.mess =
      (ps.filter fun p => p.Single ∧ p.procId = i).flatMap
        fun p => p.contents.fragments.map fun f => [f.body] := by
  induction ps with
  | nil => rfl
  | cons p ps ih =>
    by_cases hs : p.Single
    · rw [List.filter_cons_of_pos (by simpa using hs), List.flatMap_cons, List.filter_append,
        List.map_append, ih]
      by_cases hi : p.procId = i
      · rw [List.filter_cons_of_pos (by simpa using ⟨hs, hi⟩), List.flatMap_cons]
        simp [hi, List.filter_map, Function.comp_def]
      · rw [List.filter_cons_of_neg (by simp [hi])]
        simp [hi, List.filter_map, Function.comp_def]
    · rw [List.filter_cons_of_neg (by simpa using hs), List.filter_cons_of_neg (by simp [hs]), ih]

namespace Daemon

/-- The daemon has the packet, or has delivered it. -/
def Has {n : ℕ} (d : Daemon n) (p : Packet (Fin n)) : Prop :=
  p ∈ d.store.delivered ∨ ∃ b, d.store.packets (Store.packetEntry p.seq) = some ⟨p, b⟩

theorem Good.has {n : ℕ} {me : Fin n} {order : List (Packet (Fin n))} {d : Daemon n}
    (hseq : Sequenced order) (h : d.Good me order) {p : Packet (Fin n)} (hp : p ∈ order)
    (hle : p.seq ≤ d.myAru) : d.Has p := by
  by_cases haru : p.seq ≤ d.aru
  · exact Or.inl ((h.store.mem_delivered p).mpr ⟨hp, Or.inl (Nat.le_trans haru h.store.lo_le)⟩)
  · obtain ⟨i, hi⟩ := Option.isSome_iff_exists.mp (h.exist p.seq (Nat.not_le.mp haru) hle)
    obtain ⟨k, hk⟩ := List.mem_iff_getElem?.mp hp
    have hnum := hseq.numbered k p hk
    obtain ⟨-, horder⟩ := h.store.slot_eq (Nat.not_le.mp haru)
      (Nat.le_trans hle h.myAru_le) hi
    rw [hnum, Nat.add_sub_cancel, hk] at horder
    obtain ⟨q, b⟩ := i
    cases horder
    exact Or.inr ⟨b, hi⟩

end Daemon

namespace Ring

variable {n : ℕ} [NeZero n] {x : Ring n}

theorem Good.aru_le (h : x.Good) (i j : Fin n) : (x.daemons i).aru ≤ (x.daemons j).myAru := by
  obtain ⟨r, p, hcirc⟩ := h.token
  exact hcirc.circulating.stable_le_own i j

theorem Good.mem_order (h : x.Good) {i : Fin n} {p : Packet (Fin n)}
    (hp : p ∈ (x.daemons i).store.delivered) : p ∈ x.order :=
  (((h.daemon i).store.mem_delivered p).mp hp).1

theorem Good.handed (h : x.Good) (i : Fin n) :
    (x.daemons i).store.handedUp.filter (fun m => ¬ m.single) =
      (handUps (inOrder (x.order.take (x.daemons i).store.lastDelivered))).2 :=
  congrArg Prod.snd (h.daemon i).store.handed

theorem Good.handed_prefix (h : x.Good) (i : Fin n) :
    (x.daemons i).store.handedUp.filter (fun m => ¬ m.single) <+: (handUps (inOrder x.order)).2 := by
  rw [h.handed i]
  obtain ⟨hs, heq⟩ := handUps_append (inOrder (x.order.take (x.daemons i).store.lastDelivered))
    (inOrder (x.order.drop (x.daemons i).store.lastDelivered))
  rw [← inOrder_append, List.take_append_drop] at heq
  exact ⟨hs, heq.symm⟩

/-- The messages numbered so far are the first of those submitted. -/
theorem Good.assemble_prefix (h : x.Good) (j : Fin n) :
    assemble [] (fragmentsOf j x.order) <+: (x.submitted j).map DownLink.elements := by
  rw [← (assemble_submitted (x.submitted j)).1, ← (h.queued j).fragments, assemble_append]
  exact List.prefix_append _ _

/-- The messages handed up in order are the first of those of the packets in order. -/
theorem Good.ordered_messages (h : x.Good) (i j : Fin n) :
    ((x.daemons i).store.handedUp.filter fun m => m.procId = j ∧ ¬ m.single).map Handed.mess <+:
      assemble [] (fragmentsOf j (inOrder x.order)) := by
  have hsplit : ((x.daemons i).store.handedUp.filter fun m => m.procId = j ∧ ¬ m.single) =
      ((x.daemons i).store.handedUp.filter fun m => ¬ m.single).filter fun m => m.procId = j := by
    rw [List.filter_filter]
    exact List.filter_congr fun m _ => by simp
  have horder := inOrder_append (x.order.take (x.daemons i).store.lastDelivered)
    (x.order.drop (x.daemons i).store.lastDelivered)
  rw [List.take_append_drop] at horder
  obtain ⟨-, -, hmess⟩ := @handUps_eq _ _
    (inOrder (x.order.take (x.daemons i).store.lastDelivered))
    (fun p hp => by simpa using (List.mem_filter.mp hp).2)
    (fun p hp => h.sequenced.whole p (List.mem_of_mem_take (List.mem_of_mem_filter hp))) j
  rw [hsplit, h.handed i, hmess, horder, fragmentsOf_append, assemble_append]
  exact List.prefix_append _ _

/-- A packet that is delivered out of order has whole messages that were sent as reliable. -/
theorem Good.submitted_reliable (h : x.Good) {p : Packet (Fin n)} (hp : p ∈ x.order)
    (hs : p.Single) {f : Fragment} (hf : f ∈ p.contents.fragments) :
    ∃ l ∈ x.submitted p.procId, l.type = .reliable ∧ l.elements = [f.body] := by
  obtain ⟨t, ht, htyped⟩ := (h.queued p.procId).sent p hp rfl f hf
  have hindex : f.index = -1 := by
    rcases List.mem_cons.mp hf with rfl | hf
    · exact hs.2
    · exact (h.sequenced.whole p hp).1 f hf
  obtain ⟨l, hl, htyped⟩ := List.mem_flatMap.mp htyped
  obtain ⟨rfl, helem⟩ := elements_of_typed htyped hindex
  refine ⟨l, hl, ?_, helem⟩
  rw [hs.1] at ht
  rcases ht with ht | ⟨ht, -⟩
  · exact ht.symm
  · rcases ht with ht | ht <;> cases ht

theorem Good.single_reliable (h : x.Good) (i : Fin n) {m : Handed (Fin n)}
    (hm : m ∈ (x.daemons i).store.handedUp) (hsingle : m.single = true) :
    ∃ l ∈ x.submitted m.procId, l.type = .reliable ∧ l.elements = m.mess := by
  have hmem : m ∈ (x.daemons i).store.handedUp.filter fun m => m.single :=
    List.mem_filter.mpr ⟨hm, hsingle⟩
  rw [(h.daemon i).store.singles] at hmem
  obtain ⟨p, hp, hmem⟩ := List.mem_flatMap.mp hmem
  obtain ⟨f, hf, rfl⟩ := List.mem_map.mp hmem
  obtain ⟨hdel, hs⟩ := List.mem_filter.mp hp
  exact h.submitted_reliable (h.mem_order hdel) (of_decide_eq_true hs) hf

/-! ## The guarantees -/

variable {conf : Conf}

/-- The windows that a daemon has unless its configuration says otherwise. -/
def defaultConf : Conf := ⟨160, 20, false⟩

/-- Two daemons send messages of three types, and the second has them first. -/
def twoSenders : List (Action 2) :=
  [.newMessage 0 (.ofBytes .agreed [1]), .newMessage 1 (.ofBytes .safe [2]),
    .newMessage 1 (.ofBytes .reliable [3]), .token 0, .bcast 1 0, .token 1, .bcast 0 1, .token 2,
    .token 3, .token 4, .token 5]

/-- **No daemon ends with an error.** -/
theorem no_alarm (hconf : conf.Fits) (x : Ring n) (h : (machine conf).Reachable Timely x) :
    x.alarm = none :=
  (good_of_reachable hconf h).alarm

theorem no_alarm_two_senders : ∃ x : Ring 2, (machine defaultConf).Reachable Timely x ∧
    (x.order.length = 3 ∧ (x.daemons 0).aru = 2) ∧ x.alarm = none := by
  obtain ⟨x, hx, hrun⟩ := Machine.exists_reachable_of_run (machine defaultConf) Timely
    (fun x => x.order.length = 3 ∧ (x.daemons 0).aru = 2) twoSenders (by decide +kernel)
  exact ⟨x, hx, hrun, no_alarm (by decide) x hx⟩

/-- **One token**: two copies that would be taken up are for the same daemon, and say the same. -/
theorem token_taken_once (hconf : conf.Fits) (x : Ring n) (h : (machine conf).Reachable Timely x)
    {k l : ℕ} {c c' : Copy n} (hc : x.tokens[k]? = some c) (hc' : x.tokens[l]? = some c')
    (htimely : x.Timely (.token k)) (htimely' : x.Timely (.token l))
    (hacc : (x.daemons c.dest).Accepts c.dest c.token)
    (hacc' : (x.daemons c'.dest).Accepts c'.dest c'.token) :
    c.dest = c'.dest ∧ c.round = c'.round ∧ c.token.arq = c'.token.arq ∧
      c.token.passing = c'.token.passing := by
  have hx := good_of_reachable hconf h
  obtain ⟨r, p, hcirc⟩ := hx.token
  have hmem := List.mem_of_getElem? hc
  have hmem' := List.mem_of_getElem? hc'
  obtain ⟨hdest, hround⟩ := hx.turn_of_accepts hcirc.turn hmem (htimely c hc) hacc
  obtain ⟨hdest', hround'⟩ := hx.turn_of_accepts hcirc.turn hmem' (htimely' c' hc') hacc'
  have hd : c.dest = c'.dest := hdest.trans hdest'.symm
  have hr : c.round = c'.round := by rw [hround, hround', hd]
  refine ⟨hd, hr, ?_, ?_⟩
  · rw [(hx.genuine c hmem).arq, (hx.genuine c' hmem').arq, hr]
  · rw [(hx.genuine c hmem).passing hround, (hx.genuine c' hmem').passing hround', hd]

theorem token_taken_once_hurry : ∃ (x : Ring 2) (c c' : Copy 2),
    (machine defaultConf).Reachable Timely x ∧ (x.tokens[1]? = some c ∧ x.tokens[2]? = some c') ∧
      c.dest = c'.dest ∧ c.round = c'.round ∧ c.token.arq = c'.token.arq ∧
        c.token.passing = c'.token.passing := by
  obtain ⟨x, hx, ⟨hacc, hacc'⟩, htimely, htimely'⟩ := Machine.exists_reachable_of_run
    (machine defaultConf) Timely (fun x : Ring 2 =>
      ((x.tokens[1]?.any fun c => (x.daemons c.dest).Accepts c.dest c.token) = true ∧
        (x.tokens[2]?.any fun c => (x.daemons c.dest).Accepts c.dest c.token) = true) ∧
      x.Timely (.token 1) ∧ x.Timely (.token 2))
    [.token 0, .hurryEvent] (by decide +kernel)
  obtain ⟨c, hc, hacc⟩ := (Option.any_eq_true _ _).mp hacc
  obtain ⟨c', hc', hacc'⟩ := (Option.any_eq_true _ _).mp hacc'
  exact ⟨x, c, c', hx, ⟨hc, hc'⟩, token_taken_once (by decide) x hx hc hc' htimely htimely'
    (of_decide_eq_true hacc) (of_decide_eq_true hacc')⟩

/-- **One order**: of what two daemons have delivered in order, one is a prefix of the other; and so
it is with the messages handed up. No packet is delivered twice. -/
theorem delivered_in_one_order (hconf : conf.Fits) (x : Ring n)
    (h : (machine conf).Reachable Timely x) (i j : Fin n) :
    (inOrder (x.daemons i).store.delivered <+: inOrder (x.daemons j).store.delivered ∨
      inOrder (x.daemons j).store.delivered <+: inOrder (x.daemons i).store.delivered) ∧
    ((x.daemons i).store.handedUp.filter (fun m => ¬ m.single) <+:
        (x.daemons j).store.handedUp.filter (fun m => ¬ m.single) ∨
      (x.daemons j).store.handedUp.filter (fun m => ¬ m.single) <+:
        (x.daemons i).store.handedUp.filter fun m => ¬ m.single) ∧
    (x.daemons i).store.delivered.Nodup := by
  have hx := good_of_reachable hconf h
  have hpre : ∀ k, inOrder (x.daemons k).store.delivered <+: inOrder x.order := by
    intro k
    rw [(hx.daemon k).store.inOrder_delivered]
    exact (List.take_prefix _ _).filter _
  exact ⟨List.prefix_or_prefix_of_prefix (hpre i) (hpre j),
    List.prefix_or_prefix_of_prefix (hx.handed_prefix i) (hx.handed_prefix j),
    (hx.daemon i).store.nodup⟩

theorem delivered_in_one_order_two_senders : ∃ x : Ring 2,
    (machine defaultConf).Reachable Timely x ∧
      ((x.daemons 0).store.delivered.length = 2 ∧ (x.daemons 1).store.delivered.length = 3) ∧
      (inOrder (x.daemons 0).store.delivered <+: inOrder (x.daemons 1).store.delivered ∨
        inOrder (x.daemons 1).store.delivered <+: inOrder (x.daemons 0).store.delivered) := by
  obtain ⟨x, hx, hrun⟩ := Machine.exists_reachable_of_run (machine defaultConf) Timely
    (fun x => (x.daemons 0).store.delivered.length = 2 ∧ (x.daemons 1).store.delivered.length = 3)
    twoSenders (by decide +kernel)
  exact ⟨x, hx, hrun, (delivered_in_one_order (by decide) x hx 0 1).1⟩

/-- **At every daemon**: what is forgotten, or safe and delivered. -/
theorem stable_everywhere (hconf : conf.Fits) (x : Ring n)
    (h : (machine conf).Reachable Timely x) (i j : Fin n) {p : Packet (Fin n)}
    (hp : p ∈ (x.daemons i).store.delivered)
    (hstable : p.seq ≤ (x.daemons i).store.lastDiscarded ∨ p.type = .safe) :
    (x.daemons j).Has p := by
  have hx := good_of_reachable hconf h
  have hle : p.seq ≤ (x.daemons i).aru := by
    rcases hstable with hle | hsafe
    · rw [← (hx.daemon i).discarded]
      exact hle
    · exact (hx.daemon i).safe p hp hsafe
  exact (hx.daemon j).has hx.sequenced (hx.mem_order hp) (Nat.le_trans hle (hx.aru_le i j))

theorem stable_everywhere_two_senders : ∃ (x : Ring 2) (p : Packet (Fin 2)),
    (machine defaultConf).Reachable Timely x ∧ p.type = .safe ∧ (x.daemons 1).Has p := by
  obtain ⟨x, hx, hrun⟩ := Machine.exists_reachable_of_run (machine defaultConf) Timely
    (fun x : Ring 2 => ((x.daemons 0).store.delivered.any fun p => p.type = .safe) = true)
    twoSenders (by decide +kernel)
  obtain ⟨p, hp, hsafe⟩ := List.any_eq_true.mp hrun
  exact ⟨x, p, hx, of_decide_eq_true hsafe,
    stable_everywhere (by decide) x hx 0 1 hp (Or.inr (of_decide_eq_true hsafe))⟩

/-- **A packet that a daemon lacks is kept by its sender**, which answers a request for it. -/
theorem missing_packet_kept (hconf : conf.Fits) (x : Ring n)
    (h : (machine conf).Reachable Timely x) (j : Fin n) {p : Packet (Fin n)} (hp : p ∈ x.order)
    (hlacks : (x.daemons j).myAru < p.seq) :
    (x.daemons p.procId).answerRetrans [p.seq] = .ok [p] := by
  have hx := good_of_reachable hconf h
  have haru : (x.daemons p.procId).aru < p.seq := Nat.lt_of_le_of_lt (hx.aru_le _ j) hlacks
  obtain ⟨k, hk⟩ := List.mem_iff_getElem?.mp hp
  have hnum := hx.sequenced.numbered k p hk
  have hexist := (hx.daemon p.procId).own k p hk rfl (by omega)
  rw [← hnum] at hexist
  obtain ⟨i, hi⟩ := Option.isSome_iff_exists.mp hexist
  have hlen : p.seq ≤ x.order.length := by
    have hlt := (List.getElem?_eq_some_iff.mp hk).1
    omega
  obtain ⟨-, horder⟩ := (hx.daemon p.procId).store.slot_eq haru hlen hi
  rw [hnum, Nat.add_sub_cancel, hk] at horder
  simp only [Daemon.answerRetrans, if_neg (Nat.not_lt.mpr (Nat.le_of_lt haru)), hi]
  rw [Option.some.inj horder]

theorem missing_packet_kept_two_senders : ∃ (x : Ring 2) (p : Packet (Fin 2)),
    (machine defaultConf).Reachable Timely x ∧ (x.daemons 0).myAru < p.seq ∧
      (x.daemons p.procId).answerRetrans [p.seq] = .ok [p] := by
  obtain ⟨x, hx, hrun⟩ := Machine.exists_reachable_of_run (machine defaultConf) Timely
    (fun x : Ring 2 => (x.order.any fun p => (x.daemons 0).myAru < p.seq) = true)
    twoSenders (by decide +kernel)
  obtain ⟨p, hp, hlacks⟩ := List.any_eq_true.mp hrun
  have hlacks := of_decide_eq_true hlacks
  exact ⟨x, p, hx, hlacks, missing_packet_kept (by decide) x hx 0 hp hlacks⟩

/-- **Messages arrive whole, in order and once.** -/
theorem messages_intact (hconf : conf.Fits) (x : Ring n)
    (h : (machine conf).Reachable Timely x) (i j : Fin n) :
    (((x.daemons i).store.handedUp.filter fun m => m.procId = j ∧ ¬ m.single).map
        Handed.mess).Sublist ((x.submitted j).map DownLink.elements) ∧
      (((x.daemons i).store.handedUp.filter fun m => m.procId = j).map Handed.mess).Subperm
        ((x.submitted j).map DownLink.elements) := by
  have hx := good_of_reachable hconf h
  have hst := (hx.daemon i).store
  obtain ⟨hsub, hperm⟩ := assemble_inOrder j [] (hx.sequenced.chained j)
    fun p hp => (hx.sequenced.whole p hp).1
  have hall := (hx.assemble_prefix j).sublist
  have hordered := hx.ordered_messages i j
  refine ⟨(hordered.sublist.trans hsub).trans hall, ?_⟩
  refine List.Subperm.trans ?_ (hperm.symm.subperm.trans hall.subperm)
  have hsplit := (List.filter_append_perm (fun m : Handed (Fin n) => !m.single)
    ((x.daemons i).store.handedUp.filter fun m => m.procId = j)).map Handed.mess
  refine hsplit.symm.subperm.trans ?_
  rw [List.map_append]
  refine List.Subperm.append ?_ ?_
  · rw [List.filter_filter]
    refine List.Sublist.subperm ?_
    convert hordered.sublist using 3
    simp [and_comm]
  · -- the single packets delivered are some of those numbered
    have hsome : ((x.daemons i).store.delivered.filter fun p => p.Single ∧ p.procId = j).Subperm
        (x.order.filter fun p => p.Single ∧ p.procId = j) :=
      (hst.nodup.filter _).subperm fun p hp => List.mem_filter.mpr
        ⟨hx.mem_order (List.mem_of_mem_filter hp), (List.mem_filter.mp hp).2⟩
    have hswap : ((x.daemons i).store.handedUp.filter fun m => m.procId = j).filter
          (fun m => !!m.single) =
        ((x.daemons i).store.handedUp.filter fun m => m.single).filter fun m => m.procId = j := by
      rw [List.filter_filter, List.filter_filter]
      exact List.filter_congr fun m _ => by simp [Bool.and_comm]
    rw [hswap, hst.singles, single_messages]
    obtain ⟨ps, hps, hsublist⟩ := hsome
    exact ⟨_, List.Perm.flatMap_right _ hps, hsublist.flatMap _⟩

theorem messages_intact_two_senders : ∃ x : Ring 2, (machine defaultConf).Reachable Timely x ∧
    (x.daemons 1).store.handedUp.length = 3 ∧
      (((x.daemons 1).store.handedUp.filter fun m => m.procId = 1 ∧ ¬ m.single).map
        Handed.mess).Sublist ((x.submitted 1).map DownLink.elements) := by
  obtain ⟨x, hx, hrun⟩ := Machine.exists_reachable_of_run (machine defaultConf) Timely
    (fun x : Ring 2 => (x.daemons 1).store.handedUp.length = 3) twoSenders (by decide +kernel)
  exact ⟨x, hx, hrun, (messages_intact (by decide) x hx 1 1).1⟩

/-- **Only reliable messages are handed up out of order.** -/
theorem early_is_reliable (hconf : conf.Fits) (x : Ring n)
    (h : (machine conf).Reachable Timely x) (i : Fin n) {m : Handed (Fin n)}
    (hm : m ∈ (x.daemons i).store.handedUp) (hsingle : m.single = true) :
    ∃ l ∈ x.submitted m.procId, l.type = .reliable ∧ l.elements = m.mess :=
  (good_of_reachable hconf h).single_reliable i hm hsingle

theorem early_is_reliable_two_senders : ∃ (x : Ring 2) (m : Handed (Fin 2)),
    (machine defaultConf).Reachable Timely x ∧ m.mess = [[3]] ∧
      ∃ l ∈ x.submitted m.procId, l.type = .reliable ∧ l.elements = m.mess := by
  obtain ⟨x, hx, hrun⟩ := Machine.exists_reachable_of_run (machine defaultConf) Timely
    (fun x : Ring 2 => ((x.daemons 1).store.handedUp.any
      fun m => m.single = true ∧ m.mess = [[3]]) = true) twoSenders (by decide +kernel)
  obtain ⟨m, hm, hrun⟩ := List.any_eq_true.mp hrun
  obtain ⟨hsingle, hmess⟩ := of_decide_eq_true hrun
  exact ⟨x, m, hx, hmess, early_is_reliable (by decide) x hx 1 hm hsingle⟩

/-- **The leader holds the token only when every daemon has every packet.** -/
theorem held_token_idle (hconf : conf.Fits) (x : Ring n) (h : (machine conf).Reachable Timely x)
    {k : ℕ} {c : Copy n} (hc : x.tokens[k]? = some c) (htimely : x.Timely (.token k))
    (hacc : (x.daemons c.dest).Accepts c.dest c.token) {v : Daemon.Visit n}
    (hvisit : (x.daemons c.dest).visit conf c.dest c.token = .ok v) (hheld : v.copies = 0)
    (j : Fin n) : ((x.afterVisit c.dest v).daemons j).myAru = (x.order ++ v.sent).length := by
  have hx := good_of_reachable hconf h
  obtain ⟨v', hrun, hv, hgood⟩ := hx.visit hconf (List.mem_of_getElem? hc) (htimely c hc) hacc
  obtain rfl : v = v' := Except.ok.inj (hvisit.symm.trans hrun)
  refine Nat.le_antisymm (hgood.daemon j).myAru_le ?_
  rw [hv.held hheld]
  by_cases hj : j = c.dest
  · rw [hj]
    show _ ≤ (Function.update x.daemons c.dest v.daemon c.dest).myAru
    rw [Function.update_self]
    exact Nat.le_trans (hx.aru_le c.dest c.dest) hv.myAru
  · show _ ≤ (Function.update x.daemons c.dest v.daemon j).myAru
    rw [Function.update_of_ne hj]
    exact hx.aru_le c.dest j

theorem held_token_idle_third_round : ∃ (x : Ring 2) (v : Daemon.Visit 2),
    (machine defaultConf).Reachable Timely x ∧ v.copies = 0 ∧
      ((x.afterVisit 0 v).daemons 1).myAru = (x.order ++ v.sent).length := by
  obtain ⟨x, hx, hrun, htimely⟩ := Machine.exists_reachable_of_run (machine defaultConf) Timely
    (fun x : Ring 2 => (x.tokens[4]?.any fun c => c.dest = 0 ∧
      (x.daemons c.dest).Accepts c.dest c.token ∧
      (((x.daemons c.dest).visit defaultConf c.dest c.token).toOption.any
        fun v => v.copies = 0) = true) = true ∧ x.Timely (.token 4))
    [.token 0, .token 1, .token 2, .token 3] (by decide +kernel)
  obtain ⟨c, hc, hrun⟩ := (Option.any_eq_true _ _).mp hrun
  obtain ⟨hdest, hacc, hany⟩ := of_decide_eq_true hrun
  obtain ⟨v, hv, hheld⟩ := (Option.any_eq_true _ _).mp hany
  have hheld := of_decide_eq_true hheld
  have hvisit : (x.daemons c.dest).visit defaultConf c.dest c.token = .ok v := by
    cases hrun : (x.daemons c.dest).visit defaultConf c.dest c.token with
    | ok w =>
      rw [hrun] at hv
      exact congrArg _ (Option.some.inj hv)
    | error e =>
      rw [hrun] at hv
      cases hv
  rw [← hdest]
  exact ⟨x, v, hx, hheld, held_token_idle (by decide) x hx hc htimely hacc hvisit hheld 1⟩

end Ring

end ReplicatedScheduler.Spread
