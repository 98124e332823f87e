import ReplicatedScheduler.Spread.RingDaemon

/-!
# The invariant of the ring
-/

namespace ReplicatedScheduler.Spread

open Lib Lts

namespace Ring

variable {n : ℕ} [NeZero n] {x : Ring n} {conf : Conf}

def rounds (x : Ring n) (i : Fin n) : ℕ := (x.daemons i).receivedTokenRounds

/-- A copy of the token says what its sender passed on in the round of the copy. -/
structure Genuine (x : Ring n) (c : Copy n) : Prop where
  round_le : c.round ≤ x.rounds (c.dest - 1)
  arq : c.token.arq = c.round % 16
  passing : c.round = x.rounds (c.dest - 1) →
    c.token.passing = (x.daemons (c.dest - 1)).lastToken.passing
  rtr : c.round = x.rounds (c.dest - 1) →
    ∀ r ∈ c.token.rtr, (x.daemons (c.dest - 1)).lastToken.aru < r

/-- The token is with `p` or on its way there. -/
structure Circulates (x : Ring n) (r : ℕ) (p : Fin n) : Prop where
  turn : Turn x.rounds r p
  seq : (x.daemons (p - 1)).lastToken.seq = x.order.length
  circulating : Circulating (turnTime x.rounds) (fun i => (x.daemons i).lastToken.aru)
    (fun i => (x.daemons i).myAru) (fun i => (x.daemons i).aru)
    (x.daemons (p - 1)).lastToken.passing

structure Good (x : Ring n) : Prop where
  alarm : x.alarm = none
  sequenced : Sequenced x.order
  daemon : ∀ i, (x.daemons i).Good i x.order
  queued : ∀ i, Daemon.Queued i x.order (x.daemons i).downQueue (x.submitted i)
  packets : ∀ p ∈ x.packets, p ∈ x.order
  arq : ∀ i, (x.daemons i).lastToken.arq = x.rounds i % 16
  genuine : ∀ c ∈ x.tokens, x.Genuine c
  token : ∃ r p, x.Circulates r p

theorem circulates_start : (start n).Circulates 0 0 where
  turn := fun i => by simp [rounds, start, Daemon.start]
  seq := rfl
  circulating := by
    refine ⟨fun i k hik => ?_, fun i => Nat.le_refl _, fun i => Nat.le_refl _,
      fun k => Or.inl (Nat.le_refl _), fun i hi => ?_, fun i k => Nat.le_refl _,
      fun i => Nat.le_refl _, fun i k _ => Nat.le_refl _⟩
    · simpa [turnTime, rounds, start, Daemon.start, Fin.ext_iff] using hik
    · cases hi

theorem good_start : (start n).Good where
  alarm := rfl
  sequenced :=
    { numbered := fun k p hk => by cases hk
      chained := fun i => trivial
      whole := fun p hp => by cases hp }
  daemon := Daemon.good_start
  queued := fun i =>
    { fragments := rfl
      queue := fun e he => by cases he
      sent := fun p hp => by cases hp }
  packets := fun p hp => by cases hp
  arq := fun i => rfl
  genuine := fun c hc => by
    obtain rfl := List.mem_singleton.mp hc
    exact ⟨Nat.le_refl _, rfl, fun _ => rfl, fun _ r hr => by cases hr⟩
  token := ⟨0, 0, circulates_start⟩

/-! ## Steps without the token -/

section Frame

variable {x' : Ring n}

theorem Genuine.frame {c : Copy n} (h : x.Genuine c)
    (hsame : ∀ j, Daemon.Frame (x.daemons j) (x'.daemons j)) : x'.Genuine c := by
  have hrounds : x'.rounds (c.dest - 1) = x.rounds (c.dest - 1) :=
    (hsame _).receivedTokenRounds
  have haru : (x'.daemons (c.dest - 1)).lastToken.aru =
      (x.daemons (c.dest - 1)).lastToken.aru := congrArg Passing.bound (hsame _).passing
  exact {
    round_le := by rw [hrounds]; exact h.round_le
    arq := h.arq
    passing := fun hc => by rw [(hsame _).passing]; exact h.passing (hc.trans hrounds)
    rtr := fun hc => by rw [haru]; exact h.rtr (hc.trans hrounds) }

theorem Circulates.frame {r : ℕ} {p : Fin n} (h : x.Circulates r p)
    (hsame : ∀ j, Daemon.Frame (x.daemons j) (x'.daemons j)) (horder : x'.order = x.order)
    (hmy : ∀ j, (x'.daemons j).myAru ≤ x.order.length) : x'.Circulates r p := by
  have hrounds : x'.rounds = x.rounds := funext fun j => (hsame j).receivedTokenRounds
  have haru : (fun j => (x'.daemons j).aru) = fun j => (x.daemons j).aru :=
    funext fun j => (hsame j).aru
  have hlast : (fun j => (x'.daemons j).lastToken.aru) = fun j => (x.daemons j).lastToken.aru :=
    funext fun j => congrArg Passing.bound (hsame j).passing
  have hseq : (x'.daemons (p - 1)).lastToken.seq = (x.daemons (p - 1)).lastToken.seq :=
    congrArg Passing.top (hsame _).passing
  refine ⟨by rw [hrounds]; exact h.turn, by rw [hseq, horder]; exact h.seq, ?_⟩
  rw [hrounds, haru, hlast, (hsame _).passing]
  refine h.circulating.grow (fun j => (hsame j).myAru) fun j => ?_
  show _ ≤ (x.daemons (p - 1)).lastToken.seq
  rw [h.seq]
  exact hmy j

/-- A step in which no packet is numbered and the token is not passed on. -/
theorem Good.frame (h : x.Good) (hsame : ∀ j, Daemon.Frame (x.daemons j) (x'.daemons j))
    (horder : x'.order = x.order) (halarm : x'.alarm = none)
    (hdaemon : ∀ j, (x'.daemons j).Good j x.order)
    (hqueued : ∀ j, Daemon.Queued j x.order (x'.daemons j).downQueue (x'.submitted j))
    (hpackets : ∀ p ∈ x'.packets, p ∈ x.order) (htokens : ∀ c ∈ x'.tokens, x'.Genuine c) :
    x'.Good := by
  obtain ⟨r, p, hcirc⟩ := h.token
  exact {
    alarm := halarm
    sequenced := by rw [horder]; exact h.sequenced
    daemon := by rw [horder]; exact hdaemon
    queued := by rw [horder]; exact hqueued
    packets := by rw [horder]; exact hpackets
    arq := fun j => by
      rw [(hsame j).arq, h.arq j]
      exact congrArg (· % 16) (hsame j).receivedTokenRounds.symm
    genuine := htokens
    token := ⟨r, p, hcirc.frame hsame horder fun j => (hdaemon j).myAru_le⟩ }

omit [NeZero n] in
theorem frame_set {i : Fin n} {d : Daemon n} (hd : Daemon.Frame (x.daemons i) d) (j : Fin n) :
    Daemon.Frame (x.daemons j) ((x.set i d).daemons j) := by
  refine (Function.forall_update_iff x.daemons fun j d => Daemon.Frame (x.daemons j) d).mpr ?_ j
  exact ⟨hd, fun k _ => .refl _⟩

theorem Good.set (h : x.Good) {i : Fin n} {d : Daemon n} (hgood : d.Good i x.order)
    (hframe : Daemon.Frame (x.daemons i) d) (hqueue : d.downQueue = (x.daemons i).downQueue) :
    (x.set i d).Good := by
  refine h.frame (frame_set hframe) rfl h.alarm ?_ ?_ h.packets
    fun c hc => (h.genuine c hc).frame (frame_set hframe)
  · exact (Function.forall_update_iff x.daemons fun j d => d.Good j x.order).mpr
      ⟨hgood, fun j _ => h.daemon j⟩
  · refine (Function.forall_update_iff x.daemons
      fun j d => Daemon.Queued j x.order d.downQueue (x.submitted j)).mpr
      ⟨?_, fun j _ => h.queued j⟩
    rw [hqueue]
    exact h.queued i

/-- The last token of a daemon is sent. -/
theorem Good.sendToken (h : x.Good) (i : Fin n) (k : ℕ)
    (hrtr : ∀ r ∈ (x.daemons i).lastToken.rtr, (x.daemons i).lastToken.aru < r) :
    (x.sendToken i k).Good := by
  have hsame : ∀ j, Daemon.Frame (x.daemons j) ((x.sendToken i k).daemons j) := fun j => .refl _
  refine h.frame hsame rfl h.alarm h.daemon h.queued h.packets fun c hc => ?_
  rcases List.mem_append.mp hc with hc | hc
  · exact (h.genuine c hc).frame hsame
  · obtain rfl := (List.mem_replicate.mp hc).2
    have hprev : i + 1 - 1 = i := add_sub_cancel_right i 1
    refine ⟨?_, h.arq i, fun _ => ?_, fun _ => ?_⟩
    · show x.rounds i ≤ x.rounds (i + 1 - 1)
      rw [hprev]
    · show (x.daemons i).lastToken.passing = (x.daemons (i + 1 - 1)).lastToken.passing
      rw [hprev]
    · show ∀ r ∈ (x.daemons i).lastToken.rtr, (x.daemons (i + 1 - 1)).lastToken.aru < r
      rw [hprev]
      exact hrtr

theorem Good.tokenHurry (h : x.Good) (i : Fin n) : (x.tokenHurry i).Good := by
  have hset : (x.set i ((x.daemons i).hurry i)).Good :=
    h.set { h.daemon i with } ⟨rfl, Nat.le_refl _, rfl, rfl, rfl⟩ rfl
  refine hset.sendToken i _ ?_
  rw [Ring.set]
  simp [Daemon.hurry]

theorem Good.handleHurry (h : x.Good) : x.handleHurry.Good := by
  unfold Ring.handleHurry
  split_ifs
  · have hset : (x.set 0 { x.daemons 0 with tokenCounter := 0 }).Good :=
      h.set { h.daemon 0 with } ⟨rfl, Nat.le_refl _, rfl, rfl, rfl⟩ rfl
    exact hset.tokenHurry 0
  · exact h

theorem Good.newMessage (h : x.Good) (i : Fin n) (m : DownLink) : (x.newMessage i m).Good := by
  have hqueue : Good { x.set i { x.daemons i with
        downQueue := protNewMessage (x.daemons i).downQueue m } with
      submitted := Function.update x.submitted i (x.submitted i ++ [m]) } := by
    have hsame := frame_set (x := x) (i := i) (d := { x.daemons i with
      downQueue := protNewMessage (x.daemons i).downQueue m }) ⟨rfl, Nat.le_refl _, rfl, rfl, rfl⟩
    refine h.frame hsame rfl h.alarm ?_ (fun j => ?_) h.packets
      fun c hc => (h.genuine c hc).frame hsame
    · exact (Function.forall_update_iff x.daemons fun j d => d.Good j x.order).mpr
        ⟨{ h.daemon i with }, fun j _ => h.daemon j⟩
    · by_cases hj : j = i
      · subst hj
        simp only [Ring.set, Function.update_self]
        exact (h.queued j).submit m
      · simp only [Ring.set, Function.update_of_ne hj]
        exact h.queued j
  unfold Ring.newMessage
  simp only
  split_ifs
  · exact hqueue.handleHurry
  · exact hqueue.frame (fun j => .refl _) rfl hqueue.alarm hqueue.daemon hqueue.queued
      hqueue.packets fun c hc => (hqueue.genuine c hc).frame fun j => .refl _
  · exact hqueue

theorem Good.bcast (h : x.Good) (i : Fin n) {p : Packet (Fin n)} (hp : p ∈ x.packets) :
    ∃ d, (x.daemons i).handleBcast p = .ok d ∧ (x.set i d).Good := by
  obtain ⟨k, hk⟩ := List.mem_iff_getElem?.mp (h.packets p hp)
  have hseq := h.sequenced.numbered k p hk
  obtain ⟨d, hrun, hgood, hqueue, hframe⟩ :=
    Daemon.handleBcast_good h.sequenced (h.daemon i) (p := p) (by rw [hseq]; exact hk)
  exact ⟨d, hrun, h.set hgood hframe hqueue⟩

end Frame

/-! ## The step with the token -/

/-- **Only the daemon whose turn it is takes a token up, and only the newest.** -/
theorem Good.turn_of_accepts (h : x.Good) {r : ℕ} {p : Fin n} (hturn : Turn x.rounds r p)
    {c : Copy n} (hc : c ∈ x.tokens) (htimely : x.rounds c.dest < c.round + 15)
    (haccept : (x.daemons c.dest).Accepts c.dest c.token) :
    c.dest = p ∧ c.round = x.rounds (c.dest - 1) := by
  have hgen := h.genuine c hc
  have hle := hgen.round_le
  have hprev := hturn.prev_le c.dest
  have harq : c.round % 16 = (x.rounds c.dest + lead c.dest) % 16 := by
    rw [← hgen.arq]
    unfold Daemon.Accepts at haccept
    rw [h.arq] at haccept
    unfold lead
    split_ifs at haccept ⊢
    · rw [haccept, Nat.add_zero]
    · rw [haccept]
      omega
  have hlead : lead c.dest ≤ 1 := by
    unfold lead
    split_ifs <;> omega
  have heq : c.round = x.rounds c.dest + lead c.dest := by omega
  have hlast : x.rounds (c.dest - 1) = x.rounds c.dest + lead c.dest := by omega
  exact ⟨hturn.eq_of_prev hlast, by omega⟩

theorem Good.afterVisit (h : x.Good) {r : ℕ} {p : Fin n} (hcirc : x.Circulates r p) {t : Token n}
    (hpassing : t.passing = (x.daemons (p - 1)).lastToken.passing)
    (harq : t.arq = (x.rounds p + lead p) % 16) {v : Daemon.Visit n}
    (hv : Daemon.Visited p x.order (x.submitted p) (x.daemons p) t v) :
    (x.afterVisit p v).Good := by
  let y : Ring n := { x.set p v.daemon with
    packets := x.packets ++ v.resent ++ v.sent
    order := x.order ++ v.sent }
  have hself : y.daemons p = v.daemon := Function.update_self ..
  have hother : ∀ j, j ≠ p → y.daemons j = x.daemons j := fun j hj => Function.update_of_ne hj ..
  have hof : ∀ f : Daemon n → ℕ, (fun j => f (y.daemons j)) =
      Function.update (fun j => f (x.daemons j)) p (f v.daemon) := by
    intro f
    funext j
    by_cases hj : j = p
    · rw [hj, hself, Function.update_self]
    · rw [hother j hj, Function.update_of_ne hj]
  have hrounds : y.rounds = Function.update x.rounds p (x.rounds p + 1) := by
    have hrounds := hof Daemon.receivedTokenRounds
    rw [hv.rounds] at hrounds
    exact hrounds
  have hprev : p + 1 - 1 = p := add_sub_cancel_right p 1
  obtain ⟨r', hnext⟩ := hcirc.turn.next
  have hy : y.Good := {
    alarm := h.alarm
    sequenced := hv.sequenced
    daemon := fun j => by
      by_cases hj : j = p
      · rw [hj, hself]
        exact hv.good
      · rw [hother j hj]
        refine (h.daemon j).extend hv.sequenced (Nat.le_trans hv.room ?_) fun q hq hqj => ?_
        · exact Nat.add_le_add_right (hcirc.circulating.stable_mono p j (hcirc.turn.time_le j)) _
        · exact hj (hqj.symm.trans (hv.procId q hq))
    queued := fun j => by
      by_cases hj : j = p
      · rw [hj, hself]
        exact hv.queued
      · rw [hother j hj]
        exact (h.queued j).extend fun q hq hqj => hj (hqj.symm.trans (hv.procId q hq))
    packets := fun q hq => by
      rcases List.mem_append.mp hq with hq | hq
      · refine List.mem_append_left _ ?_
        rcases List.mem_append.mp hq with hq | hq
        · exact h.packets q hq
        · exact hv.resent q hq
      · exact List.mem_append_right _ hq
    arq := fun j => by
      rw [hrounds]
      by_cases hj : j = p
      · rw [hj, hself, Function.update_self, hv.arq, harq]
        unfold lead
        split_ifs
        · omega
        · rfl
      · rw [hother j hj, Function.update_of_ne hj]
        exact h.arq j
    genuine := fun c hc => by
      have hgen := h.genuine c hc
      by_cases hj : c.dest - 1 = p
      · -- the copy is older than what `p` passes on now
        have hlt : c.round < y.rounds (c.dest - 1) := by
          rw [hrounds, hj, Function.update_self]
          exact Nat.lt_succ_of_le (hj ▸ hgen.round_le)
        exact ⟨hlt.le, hgen.arq, fun he => absurd he hlt.ne, fun he => absurd he hlt.ne⟩
      · have hsame : y.rounds (c.dest - 1) = x.rounds (c.dest - 1) := by
          rw [hrounds, Function.update_of_ne hj]
        refine ⟨by rw [hsame]; exact hgen.round_le, hgen.arq, fun he => ?_, fun he => ?_⟩
        · rw [hother _ hj]
          exact hgen.passing (he.trans hsame)
        · rw [hother _ hj]
          exact hgen.rtr (he.trans hsame)
    token := by
      refine ⟨r', p + 1, by rw [hrounds]; exact hnext, ?_, ?_⟩
      · rw [hprev, hself]
        exact congrArg Passing.top hv.passing
      · have hbound : v.daemon.lastToken.aru =
            ((x.daemons (p - 1)).lastToken.passing.adjust p v.daemon.myAru).bound := by
          rw [← hpassing]
          exact congrArg Passing.bound hv.passing
        have htop : (x.daemons (p - 1)).lastToken.passing.top ≤ (x.order ++ v.sent).length := by
          show (x.daemons (p - 1)).lastToken.seq ≤ _
          rw [hcirc.seq, List.length_append]
          exact Nat.le_add_right _ _
        have hpass := hcirc.circulating.pass hcirc.turn.time_le hv.myAru htop hv.good.myAru_le
          hcirc.turn.lt_time
        rw [← hbound, ← hpassing, ← hv.aru, ← hv.passing] at hpass
        rw [hprev, hself, hrounds, turnTime_update, hof fun d => d.lastToken.aru, hof Daemon.myAru,
          hof Daemon.aru]
        exact hpass }
  refine hy.sendToken p v.copies ?_
  rw [hself]
  exact hv.rtr

/-- **A token that is taken up** finds everything that the visit needs. -/
theorem Good.visit (hconf : conf.Fits) (h : x.Good) {c : Copy n} (hc : c ∈ x.tokens)
    (htimely : x.rounds c.dest < c.round + 15)
    (haccept : (x.daemons c.dest).Accepts c.dest c.token) :
    ∃ v, (x.daemons c.dest).visit conf c.dest c.token = .ok v ∧
      Daemon.Visited c.dest x.order (x.submitted c.dest) (x.daemons c.dest) c.token v ∧
      (x.afterVisit c.dest v).Good := by
  obtain ⟨r, p, hcirc⟩ := h.token
  obtain ⟨hdest, hround⟩ := h.turn_of_accepts hcirc.turn hc htimely haccept
  have hgen := h.genuine c hc
  obtain ⟨dest, round, t⟩ := c
  simp only at hdest hround hgen haccept ⊢
  subst hdest
  have hpassing := hgen.passing hround
  have hstable := hcirc.circulating.stable_le dest (dest - 1)
  have htop : t.seq = x.order.length := (congrArg Passing.top hpassing).trans hcirc.seq
  obtain ⟨v, hrun, hv⟩ := Daemon.visit_good hconf h.sequenced (h.daemon dest) htop
    (fun r hr => Nat.le_of_lt (Nat.lt_of_le_of_lt hstable (hgen.rtr hround r hr)))
    (h.queued dest) fun o ho => by
      rw [hpassing]
      exact hcirc.circulating.stable_le_min ho
  refine ⟨v, hrun, hv, h.afterVisit hcirc hpassing ?_ hv⟩
  rw [hgen.arq, ← hcirc.turn.prev_self, ← hround]

theorem Good.handleToken (hconf : conf.Fits) (h : x.Good) {c : Copy n} (hc : c ∈ x.tokens)
    (htimely : x.rounds c.dest < c.round + 15) : (x.handleToken conf c.dest c.token).Good := by
  unfold Ring.handleToken
  simp only
  split_ifs with hwrap haccept hsame
  · exact h
  · obtain ⟨v, hrun, -, hgood⟩ := h.visit hconf hc htimely haccept
    rw [hrun]
    exact hgood
  · have hset : (x.set c.dest { x.daemons c.dest with
        lastToken := { (x.daemons c.dest).lastToken with retrans := c.token.retrans } }).Good :=
      h.set { h.daemon c.dest with } ⟨rfl, Nat.le_refl _, rfl, rfl, rfl⟩ rfl
    exact hset.tokenHurry c.dest
  · exact h

theorem good_step (hconf : conf.Fits) {x' : Ring n}
    {a : Action n} (h : x.Good) (htimely : x.Timely a) (hstep : step conf x a = some x') :
    x'.Good := by
  unfold step at hstep
  rw [h.alarm] at hstep
  simp only [Option.isSome_none, Bool.false_eq_true, if_false] at hstep
  cases a with
  | newMessage i m =>
    cases hstep
    exact h.newMessage i m
  | bcast i k =>
    obtain ⟨p, hp, hstep⟩ := Option.map_eq_some_iff.mp hstep
    obtain ⟨d, hrun, hgood⟩ := h.bcast i (List.mem_of_getElem? hp)
    rw [hrun] at hstep
    rw [← hstep]
    exact hgood
  | token k =>
    obtain ⟨c, hc, rfl⟩ := Option.map_eq_some_iff.mp hstep
    exact h.handleToken hconf (List.mem_of_getElem? hc) (htimely c hc)
  | hurryEvent =>
    cases hstep
    exact h.tokenHurry 0
  | hurry k =>
    obtain ⟨i, -, rfl⟩ := Option.map_eq_some_iff.mp hstep
    exact h.handleHurry

/-! ## What a step records -/

theorem newMessage_records (x : Ring n) (i : Fin n) (m : DownLink) :
    (x.newMessage i m).order = x.order ∧
      (x.newMessage i m).submitted = Function.update x.submitted i (x.submitted i ++ [m]) := by
  unfold Ring.newMessage Ring.handleHurry
  simp only
  split_ifs <;> exact ⟨rfl, rfl⟩

/-- A step that hands no message down may number packets. -/
theorem step_records {x' : Ring n} {a : Action n} (hstep : step conf x a = some x') :
    (∃ i m, a = .newMessage i m ∧ x' = x.newMessage i m) ∨
      ((∀ i m, a ≠ .newMessage i m) ∧ x'.submitted = x.submitted ∧ x.order <+: x'.order) := by
  unfold step at hstep
  split_ifs at hstep
  cases a with
  | newMessage i m =>
    cases hstep
    exact Or.inl ⟨i, m, rfl, rfl⟩
  | bcast i k =>
    obtain ⟨p, -, rfl⟩ := Option.map_eq_some_iff.mp hstep
    refine Or.inr ⟨by simp, ?_⟩
    split <;> exact ⟨rfl, List.prefix_refl _⟩
  | token k =>
    obtain ⟨c, -, rfl⟩ := Option.map_eq_some_iff.mp hstep
    refine Or.inr ⟨by simp, ?_⟩
    unfold Ring.handleToken
    simp only
    split_ifs
    · exact ⟨rfl, List.prefix_refl _⟩
    · split
      · exact ⟨rfl, List.prefix_append _ _⟩
      · exact ⟨rfl, List.prefix_refl _⟩
    · exact ⟨rfl, List.prefix_refl _⟩
    · exact ⟨rfl, List.prefix_refl _⟩
  | hurryEvent =>
    cases hstep
    exact Or.inr ⟨by simp, rfl, List.prefix_refl _⟩
  | hurry k =>
    obtain ⟨i, -, rfl⟩ := Option.map_eq_some_iff.mp hstep
    refine Or.inr ⟨by simp, ?_⟩
    unfold Ring.handleHurry
    split_ifs <;> exact ⟨rfl, List.prefix_refl _⟩

theorem good_of_reachable (hconf : conf.Fits)
    {x : Ring n} (h : (machine conf).Reachable Timely x) : x.Good :=
  h.invariant good_start fun _ _ _ h hok hs => good_step hconf h hok hs

end Ring

end ReplicatedScheduler.Spread
