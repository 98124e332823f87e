import ReplicatedScheduler.ServerGroup

/-!
# Servers that wait for the state

**Theorem (`never_wedged`).** In a run that meets `KeepsHope`, once nothing is in flight and every
member has handled the whole agreed order, every member serves.

A server asks for the state once, at its own join. Only a server that serves answers; one that
waits itself drops the `StateReq`. A view of one member makes a server start by itself. What a
waiting server can hope for is one of these (`Hope`):

* a `StateRep` to it is in flight,
* a view of one member is ahead of it in the order, or
* some other member has yet to handle its `StateReq`.

A crash may take the last hope away, and so may a waiting server that drops the `StateReq`.
`KeepsHope` asks that neither does, and that the replay of a buffer is not ended by a null url.
-/

namespace ReplicatedScheduler

open JavaLib Lib Lts

/-! ## What a waiting server does -/

/-- A view of one member. -/
def Agreed.Alone (a : Agreed) : Prop := a.delivery.2.Alone

instance (a : Agreed) : Decidable a.Alone := inferInstanceAs (Decidable (Msg.Alone _))

/-- The sender of a `StateReq`. -/
def Agreed.asker : Agreed → Option SpreadGroup
  | .server g .stateReq => some g
  | _ => none

namespace Member

/-- A server that goes on waiting has not met a view of one member. -/
theorem waiting_deliver {m : Member} (hserv : m.handlers.serving = false)
    (hnone : m.handlers.stateSender = none) {a : Agreed}
    (h : (m.deliver a).handlers.serving = false) :
    ¬ a.Alone ∧ (m.deliver a).handlers.stateSender = none := by
  cases a with
  | view info =>
    rcases m.deliver_view info with ⟨-, -, hd, -⟩ | ⟨hnot, hd, -⟩
    · rw [hd] at h
      cases h
    · rw [hd]
      exact ⟨fun halone => hnot ⟨halone, hnone⟩, hnone⟩
  | server sender msg =>
    rw [(deliver_waiting hserv sender msg).1]
    exact ⟨id, hnone⟩

/-- A server that is not alone at its own join asks for the state. -/
theorem sends_own_join {m : Member} {members : List SpreadGroup}
    (h : ¬ (Agreed.view ⟨true, .join m.handlers.privateGroup, members⟩).Alone) :
    m.sends (.view ⟨true, .join m.handlers.privateGroup, members⟩) = [.stateReq] := by
  have hlen : members.length ≠ 1 := fun hlen => h ⟨rfl, hlen⟩
  simp [sends, Agreed.delivery, ServerHandlers.handle, ServerHandlers.onMembershipInfo,
    MembershipInfo.getMembers, MembershipInfo.isCausedByJoin, MembershipInfo.getJoined, hlen]

/-- A server that serves answers a `StateReq`. -/
theorem sends_stateReq {m : Member} (h : m.handlers.serving = true) (g : SpreadGroup) :
    m.sends (.server g .stateReq) = [.stateRep g m.handlers.scheduler] :=
  (deliver_serving h g .stateReq).2

end Member

/-- The replay of a buffer comes to a request whose duplicate check meets a null url. -/
def ReplayMeetsNull (s : SchedulerImp) : List RequestInfo → Prop
  | [] => False
  | ri :: buffer =>
    ri.msg.MeetsNull s ∨ ReplayMeetsNull (onReq s ri.sender ri.msg).scheduler buffer

instance decidableReplayMeetsNull :
    ∀ (s : SchedulerImp) (buffer : List RequestInfo), Decidable (ReplayMeetsNull s buffer)
  | _, [] => isFalse id
  | s, ri :: buffer =>
    have := decidableReplayMeetsNull (onReq s ri.sender ri.msg).scheduler buffer
    inferInstanceAs (Decidable (_ ∨ _))

/-- Such a request is all that ends a replay. -/
theorem processBuffer_ends {s : SchedulerImp} {buffer : List RequestInfo}
    (h : ¬ ReplayMeetsNull s buffer) : (processBuffer s buffer).escaped = none := by
  induction buffer generalizing s with
  | nil => rfl
  | cons ri buffer ih =>
    obtain ⟨hri, hrest⟩ := not_or.mp h
    rcases onReq_cases s ri.sender ri.msg with ⟨-, -, hesc⟩ | ⟨hmeets, -⟩
    · simp only [processBuffer, bufferedRequest_eq, hesc]
      exact ih hrest
    · exact absurd hmeets hri

namespace ServerGroup

/-! ## Hope -/

/-- A server that does not serve yet. -/
def Waiting (x : ServerGroup) (g : SpreadGroup) : Prop :=
  ∃ m ∈ x.servers g, m.handlers.serving = false

instance (x : ServerGroup) (g : SpreadGroup) : Decidable (x.Waiting g) :=
  inferInstanceAs (Decidable (∃ m ∈ x.servers g, m.handlers.serving = false))

/-- A server that has not handled its own join yet. -/
def Unasked (x : ServerGroup) (g : SpreadGroup) : Prop := ∃ m ∈ x.servers g, m.next = m.joined

/-- The `StateReq` of `g` is sent and not handled by `d` yet. -/
def HasToAnswer (x : ServerGroup) (d g : SpreadGroup) : Prop :=
  g ∈ x.requested ∨ ∃ m ∈ x.servers d, Agreed.server g .stateReq ∈ x.log.drop m.next

/-- What a waiting server can hope for when member `gone` is left out. -/
def Hope (x : ServerGroup) (gone : Option SpreadGroup) (g : SpreadGroup) : Prop :=
  (∃ rep ∈ x.inFlight, rep.dest = g) ∨
    (∃ m ∈ x.servers g, ∃ a ∈ x.log.drop m.next, a.Alone) ∨
    ∃ d ∈ x.members, d ≠ g ∧ gone ≠ some d ∧ (x.Unasked g ∨ x.HasToAnswer d g)

instance (x : ServerGroup) (g : SpreadGroup) : Decidable (x.Unasked g) :=
  inferInstanceAs (Decidable (∃ m ∈ x.servers g, m.next = m.joined))

instance (x : ServerGroup) (d g : SpreadGroup) : Decidable (x.HasToAnswer d g) :=
  inferInstanceAs (Decidable (_ ∨ _))

instance (x : ServerGroup) (gone : Option SpreadGroup) (g : SpreadGroup) :
    Decidable (x.Hope gone g) :=
  inferInstanceAs (Decidable (_ ∨ _ ∨ _))

/-- No step takes away the last hope of a waiting member: a crash that leaves it alone or leaves
it another hope; a `StateReq` dropped by a server that waits; a replay that runs to its end. -/
def KeepsHope (x : ServerGroup) : Action → Prop
  | .crash d => ∀ g ∈ x.members, g ≠ d → x.Waiting g →
      x.members.erase d = [g] ∨ x.Hope (some d) g
  | .deliver d => ∀ m ∈ x.servers d, m.handlers.serving = false →
      ∀ a ∈ x.log[m.next]?, ∀ g ∈ a.asker, g ≠ d → g ∈ x.members → x.Waiting g →
        x.Hope (some d) g
  | .receive i => ∀ rep ∈ x.inFlight[i]?, ∀ m ∈ x.servers rep.dest, m.handlers.serving = false →
      ¬ ReplayMeetsNull rep.scheduler m.handlers.buffer
  | _ => True

instance (x : ServerGroup) : ∀ a, Decidable (x.KeepsHope a)
  | .crash _ | .deliver _ | .receive _ => by unfold KeepsHope; infer_instance
  | .join _ | .request _ _ | .clientFailure _ _ | .order _ | .lose _ => instDecidableTrue

/-- Nothing is in flight to a member and every member has handled the whole order. -/
def Quiescent (x : ServerGroup) : Prop :=
  x.requested = [] ∧ (∀ rep ∈ x.inFlight, rep.dest ∉ x.members) ∧
    ∀ g ∈ x.members, ∀ m ∈ x.servers g, m.next = x.log.length

instance (x : ServerGroup) : Decidable x.Quiescent :=
  inferInstanceAs (Decidable (_ ∧ _ ∧ _))

/-- Once everything is handled, every member serves. -/
def NotWedged (x : ServerGroup) : Prop :=
  x.Quiescent → ∀ g ∈ x.members, ∃ m ∈ x.servers g, m.handlers.serving = true

instance (x : ServerGroup) : Decidable x.NotWedged :=
  inferInstanceAs (Decidable (_ → _))

/-! ## The members and their places in the order -/

/-- A server at its place in the order. -/
structure Placed (log : List Agreed) (g : SpreadGroup) (m : Member) : Prop where
  own : m.handlers.privateGroup = g
  joined : m.joined ≤ m.next
  next : m.next ≤ log.length
  view : ∃ members, log[m.joined]? = some (.view ⟨true, .join g, members⟩)
  sender : m.handlers.serving = false → m.handlers.stateSender = none

/-- The members are the servers that are alive, each at its place. -/
structure Tracked (x : ServerGroup) : Prop where
  nodup : x.members.Nodup
  members : ∀ g, g ∈ x.members ↔ ∃ m, x.Alive g m
  placed : ∀ g m, x.servers g = some m → Placed x.log g m

theorem tracked_start : Tracked start := by
  constructor <;> simp [start, Alive]

theorem Placed.append {log : List Agreed} {g : SpreadGroup} {m : Member} (h : Placed log g m)
    (more : List Agreed) : Placed (log ++ more) g m where
  own := h.own
  joined := h.joined
  next := by
    rw [List.length_append]
    exact Nat.le_add_right_of_le h.next
  view := h.view.imp fun _ hview => getElem?_of_append hview more
  sender := h.sender

theorem Placed.deliver {log : List Agreed} {g : SpreadGroup} {m : Member} (h : Placed log g m)
    {a : Agreed} (ha : log[m.next]? = some a) : Placed log g (m.deliver a) where
  own := by
    rw [← h.own]
    cases a with
    | view info => rcases m.deliver_view info with ⟨-, -, hd, -⟩ | ⟨-, hd, -⟩ <;> rw [hd]
    | server sender msg =>
      cases hserv : m.handlers.serving with
      | true => rw [(Member.deliver_serving hserv sender msg).1]
      | false => rw [(Member.deliver_waiting hserv sender msg).1]
  joined := Nat.le_succ_of_le h.joined
  next := (List.getElem?_eq_some_iff.mp ha).1
  view := h.view
  sender := fun hs => by
    have hserv := Member.waiting_of_deliver hs
    exact (Member.waiting_deliver hserv (h.sender hserv) hs).2

/-- A server that does not serve after a `StateRep` did not get to the end of the replay. -/
theorem Placed.receive {log : List Agreed} {g : SpreadGroup} {m : Member} (h : Placed log g m)
    {rep : StateReply} (hok : m.handlers.serving = false →
      ¬ ReplayMeetsNull rep.scheduler m.handlers.buffer) :
    Placed log g (m.receive rep) ∧ (m.receive rep).handlers.serving = true := by
  have hescapes : (processBuffer rep.scheduler m.handlers.buffer).escaped ≠ none →
      m.handlers.serving = true := fun hesc => by
    by_contra hne
    exact hesc (processBuffer_ends (hok (by simpa using hne)))
  have hserves : (m.receive rep).handlers.serving = true := by
    rcases m.receive_cases rep with ⟨-, -, hr⟩ | ⟨-, hesc, hr⟩ | ⟨hsome, hr⟩ <;> rw [hr]
    · exact hescapes hesc
    · by_contra hne
      exact hsome (h.sender (by simpa using hne))
  refine ⟨?_, hserves⟩
  exact {
    own := by
      rw [← h.own]
      rcases m.receive_cases rep with ⟨-, -, hr⟩ | ⟨-, -, hr⟩ | ⟨-, hr⟩ <;> rw [hr]
    joined := h.joined
    next := h.next
    view := h.view
    sender := fun hs => by
      rw [hserves] at hs
      cases hs }

/-- The order grows. -/
theorem Tracked.append {x : ServerGroup} (h : Tracked x) (more : List Agreed) :
    Tracked { x with log := x.log ++ more } where
  nodup := h.nodup
  members := h.members
  placed := fun g m hm => (h.placed g m hm).append more

/-- One server changes and stays alive. -/
theorem Tracked.setServer {x : ServerGroup} (h : Tracked x) {g : SpreadGroup} {m m' : Member}
    (hm : x.Alive g m) (hplaced : Placed x.log g m') (halive : m'.alive = true) :
    Tracked { x with servers := Function.update x.servers g (some m') } where
  nodup := h.nodup
  members := fun d => by
    rw [h.members d]
    by_cases hdg : d = g
    · subst hdg
      exact ⟨fun _ => ⟨m', Function.update_self .., halive⟩, fun _ => ⟨m, hm⟩⟩
    · simp only [Alive, Function.update_of_ne hdg]
  placed := fun d m'' hm'' => by
    rcases servers_update hm'' with ⟨rfl, rfl⟩ | ⟨-, hm''⟩
    · exact hplaced
    · exact h.placed d m'' hm''

theorem Tracked.join {x : ServerGroup} (h : Tracked x) {g : SpreadGroup}
    (hg : x.servers g = none) : Tracked (x.afterJoin g) where
  nodup := by
    refine List.nodup_append.mpr ⟨h.nodup, List.nodup_singleton g, ?_⟩
    rintro d hd _ hmem rfl
    obtain rfl := List.mem_singleton.mp hmem
    obtain ⟨m, hm, -⟩ := (h.members d).mp hd
    rw [hg] at hm
    cases hm
  members := fun d => by
    show d ∈ x.members ++ [g] ↔ ∃ m, Function.update x.servers g _ d = some m ∧ m.alive = true
    rw [List.mem_append, List.mem_singleton, h.members d]
    by_cases hdg : d = g
    · subst hdg
      exact ⟨fun _ => ⟨_, Function.update_self .., rfl⟩, fun _ => Or.inr rfl⟩
    · simp only [Alive, Function.update_of_ne hdg, hdg, or_false]
  placed := fun d m hm => by
    rcases servers_update hm with ⟨rfl, rfl⟩ | ⟨-, hm⟩
    · exact ⟨rfl, Nat.le_refl _, by simp [afterJoin], ⟨x.members ++ [d], by simp [afterJoin]⟩,
        fun _ => rfl⟩
    · exact (h.placed d m hm).append _

theorem Tracked.crash {x : ServerGroup} (h : Tracked x) {g : SpreadGroup} {m : Member}
    (hm : x.servers g = some m) : Tracked (x.afterCrash g m) where
  nodup := h.nodup.erase g
  members := fun d => by
    show d ∈ x.members.erase g ↔ ∃ m', Function.update x.servers g _ d = some m' ∧ m'.alive = true
    rw [h.nodup.mem_erase_iff, h.members d]
    by_cases hdg : d = g
    · subst hdg
      simp
    · simp only [Alive, Function.update_of_ne hdg, ne_eq, hdg, not_false_iff, true_and]
  placed := fun d m' hm' => by
    rcases servers_update hm' with ⟨rfl, rfl⟩ | ⟨-, hm'⟩
    · exact { (h.placed d m hm).append _ with }
    · exact (h.placed d m' hm').append _

theorem tracked_step {x x' : ServerGroup} {a : Action} (h : Tracked x) (hok : x.KeepsHope a)
    (hstep : x.step a = some x') : Tracked x' := by
  cases step_cases hstep with
  | join g hg => exact h.join hg
  | crash g m hm => exact h.crash hm.1
  | request sender r => exact h.append _
  | clientFailure sender client => exact h.append _
  | order i g hg => exact { h.append [.server g .stateReq] with }
  | lose i g hg hdead => exact { h with }
  | deliver g m a hm ha =>
    exact { h.setServer hm ((h.placed g m hm.1).deliver ha) hm.2 with }
  | receive i rep m hrep hm =>
    exact { h.setServer hm ((h.placed _ m hm.1).receive (hok rep hrep m hm.1)).1 hm.2 with }

theorem tracked_of_reachable {x : ServerGroup} (h : machine.Reachable KeepsHope x) : Tracked x :=
  h.invariant (P := Tracked) tracked_start fun _ _ _ hx hok hstep => tracked_step hx hok hstep

/-! ## No hope is lost -/

/-- Every waiting member has hope. -/
def Hopeful (x : ServerGroup) : Prop := ∀ g ∈ x.members, x.Waiting g → x.Hope none g

/-- What keeps hope: replies stay in flight, and who had to answer still has to. -/
theorem Hope.mono {x x' : ServerGroup} {gone : Option SpreadGroup} {g : SpreadGroup}
    (h : x.Hope gone g)
    (hself : ∀ m ∈ x.servers g, ∃ m' ∈ x'.servers g, m'.next = m.next ∧ m'.joined = m.joined)
    (hlog : ∃ more, x'.log = x.log ++ more)
    (hreplies : ∀ rep ∈ x.inFlight, rep.dest = g → rep ∈ x'.inFlight)
    (hmembers : ∀ d ∈ x.members, gone ≠ some d → d ∈ x'.members)
    (hanswer : ∀ d ∈ x.members, gone ≠ some d → d ≠ g → x.HasToAnswer d g → x'.HasToAnswer d g) :
    x'.Hope none g := by
  rcases h with ⟨rep, hrep, hdest⟩ | ⟨m, hm, a, ha, halone⟩ | ⟨d, hd, hdg, hgone, hdue⟩
  · exact Or.inl ⟨rep, hreplies rep hrep hdest, hdest⟩
  · obtain ⟨m', hm', hnext, -⟩ := hself m hm
    obtain ⟨more, hmore⟩ := hlog
    refine Or.inr (Or.inl ⟨m', hm', a, ?_, halone⟩)
    rw [hmore, hnext]
    exact mem_drop_append ha more
  · refine Or.inr (Or.inr ⟨d, hmembers d hd hgone, hdg, by simp, ?_⟩)
    rcases hdue with ⟨m, hm, hjoined⟩ | hdue
    · obtain ⟨m', hm', hnext, hjoined'⟩ := hself m hm
      exact Or.inl ⟨m', hm', by rw [hnext, hjoined', hjoined]⟩
    · exact Or.inr (hanswer d hd hgone hdg hdue)

theorem Hope.append {x : ServerGroup} {g : SpreadGroup} (h : x.Hope none g) (more : List Agreed) :
    Hope { x with log := x.log ++ more } none g :=
  h.mono (fun m hm => ⟨m, hm, rfl, rfl⟩) ⟨more, rfl⟩ (fun _ hrep _ => hrep) (fun _ hd _ => hd)
    fun _ _ _ _ => Or.imp_right fun ⟨m, hm, hahead⟩ => ⟨m, hm, mem_drop_append hahead more⟩

theorem Hopeful.join {x : ServerGroup} (h : Hopeful x) (hx : Tracked x) {g : SpreadGroup}
    (hg : x.servers g = none) : Hopeful (x.afterJoin g) := by
  intro d hd ⟨m, hm, hserv⟩
  rcases servers_update hm with ⟨rfl, rfl⟩ | ⟨hdg, hm⟩
  · -- the joiner: alone, or there is another member to ask
    cases hmembers : x.members with
    | nil =>
      refine Or.inr (Or.inl ⟨_, hm, _, mem_drop_concat (Nat.le_refl _) _, rfl, ?_⟩)
      simp [hmembers]
    | cons d' members =>
      have hd' : d' ∈ x.members := by
        rw [hmembers]
        exact List.mem_cons_self
      refine Or.inr (Or.inr ⟨d', List.mem_append_left _ hd', ?_, by simp, Or.inl ⟨_, hm, rfl⟩⟩)
      rintro rfl
      obtain ⟨m', hm', -⟩ := (hx.members _).mp hd'
      rw [hg] at hm'
      cases hm'
  · have hd' : d ∈ x.members := by
      rcases List.mem_append.mp hd with hd | hd
      · exact hd
      · exact absurd (List.mem_singleton.mp hd) hdg
    refine (h d hd' ⟨m, hm, hserv⟩).mono (fun m' hm' => ⟨m', servers_afterJoin hg hm', rfl, rfl⟩)
      ⟨_, rfl⟩ (fun _ hrep _ => hrep) (fun _ hd _ => List.mem_append_left _ hd) ?_
    exact fun _ _ _ _ => Or.imp_right fun ⟨m', hm', hahead⟩ =>
      ⟨m', servers_afterJoin hg hm', mem_drop_append hahead _⟩

theorem Hopeful.crash {x : ServerGroup} (hx : Tracked x) {d : SpreadGroup} {m : Member}
    (hok : x.KeepsHope (.crash d)) : Hopeful (x.afterCrash d m) := by
  intro g hg ⟨m', hm', hserv⟩
  obtain ⟨hgd, hg⟩ := hx.nodup.mem_erase_iff.mp hg
  rcases servers_update hm' with ⟨heq, -⟩ | ⟨-, hold⟩
  · exact absurd heq hgd
  rcases hok g hg hgd ⟨m', hold, hserv⟩ with halone | hhope
  · -- the view of the crash makes `g` start
    refine Or.inr (Or.inl ⟨m', hm', _, mem_drop_concat (hx.placed g m' hold).next _, rfl, ?_⟩)
    exact congrArg List.length halone
  · refine hhope.mono (fun m'' hm'' => ⟨m'', servers_update_of_ne hgd hm'' _, rfl, rfl⟩)
      ⟨_, rfl⟩ (fun _ hrep _ => hrep) (fun d' hd' hgone => ?_) ?_
    · exact hx.nodup.mem_erase_iff.mpr ⟨fun heq => hgone (by rw [heq]), hd'⟩
    · intro d' _ hgone _
      exact Or.imp_right fun ⟨m'', hm'', hahead⟩ =>
        ⟨m'', servers_update_of_ne (fun heq => hgone (by rw [heq])) hm'' _,
          mem_drop_append hahead _⟩

theorem Hopeful.order {x : ServerGroup} (h : Hopeful x) (hx : Tracked x) {i : ℕ}
    {g : SpreadGroup} (hg : x.requested[i]? = some g) :
    Hopeful { x with log := x.log ++ [.server g .stateReq],
                     requested := x.requested.eraseIdx i } := by
  intro d hd hw
  refine (h d hd hw).mono (fun m hm => ⟨m, hm, rfl, rfl⟩) ⟨_, rfl⟩ (fun _ hrep _ => hrep)
    (fun _ hd' _ => hd') ?_
  rintro d' hd' - - (hreq | ⟨m, hm, hahead⟩)
  · by_cases hdg : d = g
    · subst hdg
      obtain ⟨m, hm, -⟩ := (hx.members d').mp hd'
      exact Or.inr ⟨m, hm, mem_drop_concat (hx.placed d' m hm).next _⟩
    · exact Or.inl (mem_eraseIdx_of_ne hg hreq hdg)
  · exact Or.inr ⟨m, hm, mem_drop_append hahead _⟩

theorem Hopeful.lose {x : ServerGroup} (h : Hopeful x) (hx : Tracked x) {i : ℕ}
    {g : SpreadGroup} (hg : x.requested[i]? = some g)
    (hdead : ∀ m, x.servers g = some m → m.alive = false) :
    Hopeful { x with requested := x.requested.eraseIdx i } := by
  intro d hd hw
  refine (h d hd hw).mono (fun m hm => ⟨m, hm, rfl, rfl⟩) ⟨[], by simp⟩ (fun _ hrep _ => hrep)
    (fun _ hd' _ => hd') fun d' _ _ _ => Or.imp_left fun hreq => ?_
  refine mem_eraseIdx_of_ne hg hreq ?_
  rintro rfl
  obtain ⟨m, hm, halive⟩ := (hx.members d).mp hd
  rw [hdead m hm] at halive
  cases halive

/-- A waiting server that delivers a message and goes on waiting. -/
theorem Hope.deliver_self {x : ServerGroup} (hx : Tracked x) {g : SpreadGroup} {m : Member}
    {a : Agreed} (hm : x.servers g = some m) (ha : x.log[m.next]? = some a)
    (hserv : m.handlers.serving = false) (hserv' : (m.deliver a).handlers.serving = false)
    (h : x.Hope none g) : (x.afterDeliver g m a).Hope none g := by
  have hplaced := hx.placed g m hm
  have halone := (Member.waiting_deliver hserv (hplaced.sender hserv) hserv').1
  have hself : (x.afterDeliver g m a).servers g = some (m.deliver a) := Function.update_self ..
  rcases h with ⟨rep, hrep, hdest⟩ | ⟨m', hm', b, hb, hballone⟩ | ⟨d, hd, hdg, -, hdue⟩
  · exact Or.inl ⟨rep, List.mem_append_left _ hrep, hdest⟩
  · rw [hm] at hm'
    cases hm'
    rw [drop_eq_cons ha] at hb
    rcases List.mem_cons.mp hb with rfl | hb
    · exact absurd hballone halone
    · exact Or.inr (Or.inl ⟨m.deliver a, hself, b, hb, hballone⟩)
  · refine Or.inr (Or.inr ⟨d, hd, hdg, by simp, Or.inr ?_⟩)
    rcases hdue with ⟨m', hm', hnext⟩ | hreq | ⟨m', hm', hahead⟩
    · -- the server handles its own join
      rw [hm] at hm'
      cases hm'
      obtain ⟨members, hview⟩ := hplaced.view
      rw [← hnext, ha, ← hplaced.own] at hview
      obtain rfl := Option.some.inj hview
      refine Or.inl (List.mem_append_right _ ?_)
      rw [Member.sends_own_join halone]
      exact List.mem_cons_self
    · exact Or.inl (List.mem_append_left _ hreq)
    · exact Or.inr ⟨m', servers_update_of_ne hdg hm' _, hahead⟩

theorem Hopeful.deliver {x : ServerGroup} (h : Hopeful x) (hx : Tracked x) {d : SpreadGroup}
    {m : Member} {a : Agreed} (hm : x.servers d = some m) (ha : x.log[m.next]? = some a)
    (hok : x.KeepsHope (.deliver d)) : Hopeful (x.afterDeliver d m a) := by
  intro g hg ⟨m', hm', hserv'⟩
  rcases servers_update hm' with ⟨rfl, rfl⟩ | ⟨hgd, hold⟩
  · have hserv := Member.waiting_of_deliver hserv'
    exact Hope.deliver_self hx hm ha hserv hserv' (h g hg ⟨m, hm, hserv⟩)
  have hmono : ∀ gone, x.Hope gone g → (gone ≠ some d → a ≠ .server g .stateReq) →
      (x.afterDeliver d m a).Hope none g := by
    intro gone hhope hne
    refine hhope.mono (fun m'' hm'' => ⟨m'', servers_update_of_ne hgd hm'' _, rfl, rfl⟩)
      ⟨[], ?_⟩ (fun _ hrep _ => List.mem_append_left _ hrep) (fun _ hd' _ => hd') ?_
    · exact (List.append_nil _).symm
    · rintro d' - hgone - (hreq | ⟨m'', hm'', hahead⟩)
      · exact Or.inl (List.mem_append_left _ hreq)
      · refine Or.inr ?_
        by_cases hd' : d' = d
        · subst hd'
          rw [hm] at hm''
          cases hm''
          rw [drop_eq_cons ha] at hahead
          refine ⟨m.deliver a, Function.update_self .., ?_⟩
          exact (List.mem_cons.mp hahead).resolve_left fun heq => hne hgone heq.symm
        · exact ⟨m'', servers_update_of_ne hd' hm'' _, hahead⟩
  by_cases hreq : a = .server g .stateReq
  · subst hreq
    cases hserv : m.handlers.serving with
    | true =>
      refine Or.inl ⟨⟨g, d, m.handlers.scheduler.copy, m.next⟩, List.mem_append_right _ ?_, rfl⟩
      rw [Member.sends_stateReq hserv]
      exact List.mem_cons_self
    | false =>
      exact hmono (some d) (hok m hm hserv _ ha g rfl hgd hg ⟨m', hold, hserv'⟩)
        fun hne => absurd rfl hne
  · exact hmono none (h g hg ⟨m', hold, hserv'⟩) fun _ => hreq

theorem Hopeful.receive {x : ServerGroup} (h : Hopeful x) (hx : Tracked x) {i : ℕ}
    {rep : StateReply} {m : Member} (hrep : x.inFlight[i]? = some rep)
    (hm : x.servers rep.dest = some m) (hok : x.KeepsHope (.receive i)) :
    Hopeful (x.afterReceive i rep m) := by
  intro g hg ⟨m', hm', hserv'⟩
  rcases servers_update hm' with ⟨rfl, rfl⟩ | ⟨hne, hold⟩
  · rw [((hx.placed _ m hm).receive (hok rep hrep m hm)).2] at hserv'
    cases hserv'
  have hkeep : ∀ d m', x.servers d = some m' → ∃ m'' ∈ (x.afterReceive i rep m).servers d,
      m''.next = m'.next ∧ m''.joined = m'.joined := by
    intro d m' hm'
    by_cases hd : d = rep.dest
    · subst hd
      rw [hm] at hm'
      cases hm'
      exact ⟨m.receive rep, Function.update_self .., rfl, rfl⟩
    · exact ⟨m', servers_update_of_ne hd hm' _, rfl, rfl⟩
  refine (h g hg ⟨m', hold, hserv'⟩).mono (hkeep g) ⟨[], (List.append_nil _).symm⟩ ?_
    (fun _ hd _ => hd) ?_
  · rintro rep' hrep' rfl
    refine mem_eraseIdx_of_ne hrep hrep' ?_
    rintro rfl
    exact hne rfl
  · intro d _ _ _
    refine Or.imp_right fun ⟨m₁, hm₁, hahead⟩ => ?_
    obtain ⟨m₂, hm₂, hnext, -⟩ := hkeep d m₁ hm₁
    exact ⟨m₂, hm₂, by rw [hnext]; exact hahead⟩

theorem hopeful_step {x x' : ServerGroup} {a : Action} (hx : Tracked x) (h : Hopeful x)
    (hok : x.KeepsHope a) (hstep : x.step a = some x') : Hopeful x' := by
  cases step_cases hstep with
  | join g hg => exact h.join hx hg
  | crash g m hm => exact Hopeful.crash hx hok
  | request sender r => exact fun g hg hw => (h g hg hw).append _
  | clientFailure sender client => exact fun g hg hw => (h g hg hw).append _
  | order i g hg => exact h.order hx hg
  | lose i g hg hdead => exact h.lose hx hg hdead
  | deliver g m a hm ha => exact h.deliver hx hm.1 ha hok
  | receive i rep m hrep hm => exact h.receive hx hrep hm.1 hok

theorem hopeful_of_reachable {x : ServerGroup} (h : machine.Reachable KeepsHope x) : Hopeful x :=
  h.invariant_of (fun _ => tracked_of_reachable) (P := Hopeful) (by simp [Hopeful, machine, start])
    fun _ _ _ hx hh hok hstep => hopeful_step hx hh hok hstep

/-- Once everything is handled nothing is left to hope for. -/
theorem Quiescent.not_hope {x : ServerGroup} (hx : Tracked x) (hq : x.Quiescent)
    {gone : Option SpreadGroup} {g : SpreadGroup} (hg : g ∈ x.members) : ¬ x.Hope gone g := by
  obtain ⟨hrequested, hreplies, hhandled⟩ := hq
  have hahead : ∀ d ∈ x.members, ∀ m ∈ x.servers d, x.log.drop m.next = [] := fun d hd m hm => by
    rw [hhandled d hd m hm, List.drop_length]
  rintro (⟨rep, hrep, rfl⟩ | ⟨m, hm, a, ha, -⟩ | ⟨d, hd, -, -, hdue⟩)
  · exact hreplies rep hrep hg
  · rw [hahead g hg m hm] at ha
    cases ha
  · rcases hdue with ⟨m, hm, hnext⟩ | hreq | ⟨m, hm, ha⟩
    · -- its own join is in the order
      obtain ⟨members, hview⟩ := (hx.placed g m hm).view
      have hlt := (List.getElem?_eq_some_iff.mp hview).1
      rw [← hnext, hhandled g hg m hm] at hlt
      exact Nat.lt_irrefl _ hlt
    · rw [hrequested] at hreq
      cases hreq
    · rw [hahead d hd m hm] at ha
      cases ha

end ServerGroup

open ServerGroup

/-- **The group never wedges, unless a step takes away the last hope of a waiting member.** -/
theorem never_wedged (x : ServerGroup) (h : machine.Reachable KeepsHope x) : x.NotWedged := by
  have hx := tracked_of_reachable h
  intro hq g hg
  obtain ⟨m, hm, -⟩ := (hx.members g).mp hg
  refine ⟨m, hm, ?_⟩
  by_contra hne
  exact hq.not_hope hx hg (hopeful_of_reachable h g hg ⟨m, hm, by simpa using hne⟩)

/-- Servers `b` and `c` wait for the state of `a`, which crashes before it answers: each drops the
`StateReq` of the other, and neither is ever alone. -/
theorem group_wedged : ¬ ∀ x, machine.Reachable anyStep x → x.NotWedged := by
  intro hall
  obtain ⟨x, hx, hnot⟩ := Machine.exists_reachable_of_run machine anyStep (fun x => ¬ x.NotWedged)
    [.join (str "a"), .deliver (str "a"), .join (str "b"), .join (str "c"),
      .deliver (str "b"), .deliver (str "c"), .order 0, .order 0, .crash (str "a"),
      .deliver (str "b"), .deliver (str "b"), .deliver (str "b"), .deliver (str "b"),
      .deliver (str "c"), .deliver (str "c"), .deliver (str "c")] (by decide +kernel)
  exact hnot (hall x hx)

/-- Server `c` waits when `a` crashes, and `b`, which serves by then, answers it. -/
theorem never_wedged_donor_left : ∃ x, machine.Reachable KeepsHope x ∧
    (x.Quiescent ∧ x.members = [str "b", str "c"]) ∧ x.NotWedged := by
  obtain ⟨x, hx, hrun⟩ := Machine.exists_reachable_of_run machine KeepsHope
    (fun x => x.Quiescent ∧ x.members = [str "b", str "c"])
    [.join (str "a"), .deliver (str "a"), .join (str "b"), .deliver (str "b"), .order 0,
      .deliver (str "a"), .deliver (str "a"), .deliver (str "b"), .receive 0,
      .join (str "c"), .deliver (str "c"), .crash (str "a"), .order 0,
      .deliver (str "b"), .deliver (str "b"), .deliver (str "b"),
      .deliver (str "c"), .deliver (str "c"), .receive 0] (by decide +kernel)
  exact ⟨x, hx, hrun, never_wedged x hx⟩

end ReplicatedScheduler
