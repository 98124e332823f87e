import ReplicatedScheduler.Spread.Delivery

/-!
# What one group gets

Sessions of one group read those messages that are for it. The daemons carry any other messages
besides, of any type.

**Theorem (`one_stream`).** When all messages for the group are sent as agreed, fifo or safe
(`Ordered`), each daemon hands them up as one stream: of what two daemons have handed up, one is a
prefix of the other, and what is in it of one sender is a prefix of what the sender was given for the
group.
-/

namespace ReplicatedScheduler.Spread

open Lib Lts

variable {n : ℕ} {γ : Type}

/-- The message for the group that is handed up, if it is one, with its sender. -/
def Handed.read (g : List Body → Option γ) (m : Handed (Fin n)) : Option (Fin n × γ) :=
  (g m.mess).map fun c => (m.procId, c)

/-- The messages for the group that a daemon has handed up. -/
def Daemon.feed (g : List Body → Option γ) (d : Daemon n) : List (Fin n × γ) :=
  d.store.handedUp.filterMap (Handed.read g)

theorem read_of (g : List Body → Option γ) (j : Fin n) (ms : List (Handed (Fin n))) :
    ((ms.filterMap (Handed.read g)).filter fun e => e.1 = j).map Prod.snd =
      ((ms.filter fun m => m.procId = j).map Handed.mess).filterMap g := by
  induction ms with
  | nil => rfl
  | cons m ms ih =>
    by_cases hj : m.procId = j <;> cases hread : g m.mess <;>
      simp [Handed.read, hj, hread] <;> simpa using ih

namespace Ring

/-- The messages for the group, in the order of the packets. -/
def stream (g : List Body → Option γ) (x : Ring n) : List (Fin n × γ) :=
  (handUps (inOrder x.order)).2.filterMap (Handed.read g)

/-- The messages for the group are not sent as reliable. -/
def Ordered (g : List Body → Option γ) (x : Ring n) : Prop :=
  ∀ i, ∀ m ∈ x.submitted i, m.type = .reliable → g m.elements = none

variable {g : List Body → Option γ} {x x' : Ring n}

/-- The stream grows at its end. -/
theorem stream_prefix (h : x.order <+: x'.order) : x.stream g <+: x'.stream g := by
  obtain ⟨new, hnew⟩ := h
  obtain ⟨hs, heq⟩ := handUps_append (inOrder x.order) (inOrder new)
  unfold stream
  rw [← hnew, inOrder_append, heq, List.filterMap_append]
  exact List.prefix_append _ _

variable [NeZero n]

/-- What a daemon has handed up for the group is the beginning of the stream. -/
theorem Good.feed_prefix (h : x.Good) (hg : x.Ordered g) (i : Fin n) :
    (x.daemons i).feed g <+: x.stream g := by
  have hread : ∀ m ∈ (x.daemons i).store.handedUp, Handed.read g m =
      if (!m.single) = true then Handed.read g m else none := by
    intro m hm
    split_ifs with hs
    · rfl
    · obtain ⟨l, hl, htype, helem⟩ := h.single_reliable i hm (by simpa using hs)
      rw [Handed.read, ← helem, hg _ l hl htype]
      rfl
  have hfeed : (x.daemons i).feed g =
      ((x.daemons i).store.handedUp.filter fun m => ¬ m.single).filterMap (Handed.read g) := by
    rw [Daemon.feed, List.filterMap_congr hread, List.filterMap_filter]
    exact List.filterMap_congr fun m _ => by simp
  rw [hfeed]
  exact (h.handed_prefix i).filterMap _

/-- The part of the stream that is one sender's. -/
theorem Good.stream_of (h : x.Good) (hg : x.Ordered g) (j : Fin n) :
    ((x.stream g).filter fun e => e.1 = j).map Prod.snd <+:
      (x.submitted j).filterMap fun m => g m.elements := by
  obtain ⟨hsub, hperm⟩ := assemble_inOrder j [] (h.sequenced.chained j)
    fun p hp => (h.sequenced.whole p hp).1
  obtain ⟨-, -, hmess⟩ := @handUps_eq _ _ (inOrder x.order)
    (fun p hp => by simpa using (List.mem_filter.mp hp).2)
    (fun p hp => h.sequenced.whole p (List.mem_of_mem_filter hp)) j
  have hsender : ((x.stream g).filter fun e => e.1 = j).map Prod.snd =
      (assemble [] (fragmentsOf j (inOrder x.order))).filterMap g := by
    rw [← hmess, stream, read_of]
  have hnone : ((x.order.filter fun p => p.Single ∧ p.procId = j).flatMap
      fun p => p.contents.fragments.map fun f => [f.body]).filterMap g = [] := by
    refine List.filterMap_eq_nil_iff.mpr fun mess hmem => ?_
    obtain ⟨p, hp, hmem⟩ := List.mem_flatMap.mp hmem
    obtain ⟨f, hf, rfl⟩ := List.mem_map.mp hmem
    obtain ⟨hp, hs⟩ := List.mem_filter.mp hp
    obtain ⟨l, hl, htype, helem⟩ := h.submitted_reliable hp (of_decide_eq_true hs).1 hf
    rw [← helem]
    exact hg _ l hl htype
  have hlen : ((assemble [] (fragmentsOf j (inOrder x.order))).filterMap g).length =
      ((assemble [] (fragmentsOf j x.order)).filterMap g).length := by
    rw [(hperm.filterMap g).length_eq, List.filterMap_append, hnone, List.append_nil]
  have hpre := (h.assemble_prefix j).filterMap g
  rw [List.filterMap_map] at hpre
  rw [hsender, (hsub.filterMap g).eq_of_length hlen]
  exact hpre

/-! ## Runs -/

/-- A message for the group is not sent as reliable, and no copy of the token is late. -/
def GroupTimely (g : List Body → Option γ) (x : Ring n) (a : Action n) : Prop :=
  x.Timely a ∧ ∀ i m, a = .newMessage i m → m.type = .reliable → g m.elements = none

omit [NeZero n] in
theorem groupTimely_newMessage {g : List Body → Option γ} {x : Ring n} {i : Fin n} {m : DownLink} :
    (m.type = .reliable → g m.elements = none) ↔ x.GroupTimely g (.newMessage i m) where
  mp h := ⟨trivial, fun _ _ he => by cases he; exact h⟩
  mpr h := h.2 i m rfl

omit [NeZero n] in
theorem groupTimely_of_ne {g : List Body → Option γ} {x : Ring n} {a : Action n}
    (ha : ∀ i m, a ≠ .newMessage i m) : x.Timely a ↔ x.GroupTimely g a where
  mp h := ⟨h, fun i m he => absurd he (ha i m)⟩
  mpr := And.left

instance (g : List Body → Option γ) (x : Ring n) : (a : Action n) → Decidable (x.GroupTimely g a)
  | .newMessage _ _ => decidable_of_iff _ groupTimely_newMessage
  | .bcast _ _ => decidable_of_iff _ (groupTimely_of_ne fun _ _ he => nomatch he)
  | .token _ => decidable_of_iff _ (groupTimely_of_ne fun _ _ he => nomatch he)
  | .hurryEvent => decidable_of_iff _ (groupTimely_of_ne fun _ _ he => nomatch he)
  | .hurry _ => decidable_of_iff _ (groupTimely_of_ne fun _ _ he => nomatch he)

variable {conf : Conf}

theorem ordered_step {a : Action n} (hx : x.Ordered g)
    (ha : ∀ i m, a = .newMessage i m → m.type = .reliable → g m.elements = none)
    (hstep : step conf x a = some x') : x'.Ordered g := by
  rcases step_records hstep with ⟨i, m, rfl, rfl⟩ | ⟨-, hsub, -⟩
  · intro j l hl htype
    rw [(newMessage_records x i m).2] at hl
    by_cases hj : j = i
    · subst hj
      rw [Function.update_self] at hl
      rcases List.mem_append.mp hl with hl | hl
      · exact hx j l hl htype
      · obtain rfl := List.mem_singleton.mp hl
        exact ha j l rfl htype
    · rw [Function.update_of_ne hj] at hl
      exact hx j l hl htype
  · intro j l hl htype
    rw [hsub] at hl
    exact hx j l hl htype

theorem ordered_of_reachable (h : (machine conf).Reachable (GroupTimely g) x) : x.Ordered g :=
  h.invariant (P := Ordered g) (fun i m hm => by cases hm)
    fun _ _ _ hx hok hs => ordered_step hx hok.2 hs

/-- **A group gets one stream**, in which the messages of each sender are in order. -/
theorem one_stream (hconf : conf.Fits) (g : List Body → Option γ) (x : Ring n)
    (h : (machine conf).Reachable (GroupTimely g) x) (i j : Fin n) :
    ((x.daemons i).feed g <+: (x.daemons j).feed g ∨
      (x.daemons j).feed g <+: (x.daemons i).feed g) ∧
    (((x.daemons i).feed g).filter fun e => e.1 = j).map Prod.snd <+:
      (x.submitted j).filterMap fun m => g m.elements := by
  have hx := good_of_reachable hconf (h.mono fun _ _ hok => hok.1)
  have hg := ordered_of_reachable h
  exact ⟨List.prefix_or_prefix_of_prefix (hx.feed_prefix hg i) (hx.feed_prefix hg j),
    (((hx.feed_prefix hg i).filter _).map _).trans (hx.stream_of hg j)⟩

/-- The messages of `twoSenders` that are not reliable. -/
theorem one_stream_two_senders : ∃ x : Ring 2,
    (machine defaultConf).Reachable (GroupTimely fun m => if m = [[3]] then none else some m) x ∧
      ((x.daemons 1).feed fun m => if m = [[3]] then none else some m).length = 2 ∧
      ((((x.daemons 1).feed fun m => if m = [[3]] then none else some m).filter
        fun e => e.1 = 0).map Prod.snd <+:
          (x.submitted 0).filterMap fun m => if m.elements = [[3]] then none else some m.elements) := by
  obtain ⟨x, hx, hrun⟩ := Machine.exists_reachable_of_run (machine defaultConf)
    (GroupTimely fun m => if m = [[3]] then none else some m) (fun x : Ring 2 =>
      ((x.daemons 1).feed fun m => if m = [[3]] then none else some m).length = 2)
    twoSenders (by decide +kernel)
  exact ⟨x, hx, hrun, (one_stream (by decide) _ x hx 1 0).2⟩

end Ring

end ReplicatedScheduler.Spread
