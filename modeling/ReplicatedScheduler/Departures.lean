import ReplicatedScheduler.ServerHandlers
import ReplicatedScheduler.Lib.Machine
import ReplicatedScheduler.Lib.Replay

/-!
# Clients that depart

**Theorem (`departed_client_holds_no_task`).** In a run that meets `KeepsHope`, once nothing is in
flight and everything is handled, every task that is being processed at a server is a current
member's.

A server learns of a departure from the other clients: each of them broadcasts a `ClientFailure`
when it sees the departed client leave or disconnect. A view caused by the network names nobody,
and no client reports it. So a task of a client that is gone can hope for one of these (`Hope`):

* a `ClientFailure` that names the client is in flight,
* a message that ends the task is in flight, or
* some member has yet to see the client leave or disconnect.

`KeepsHope` asks that no departure, no loss of messages and no late `getTask` request leaves a
task of a departed client without hope.

**The machine** `ClientGroup.machine`. Servers are fixed and handle one agreed order of messages,
each at its own pace, with all tasks of a failed client shifted. Every client sees the views of
the group `users` from its own join on. A client that is gone may come back under the same private
group. Messages of one client are ordered as they were sent, and the requests of a client that is
gone before a `ClientFailure` that names it.
-/

namespace ReplicatedScheduler

open JavaLib Lib Lts

/-! ## What clients report -/

namespace MembershipInfo

def isCausedByLeave (msg : MembershipInfo) : Bool :=
  match msg.cause with
  | .leave _ => true
  | _ => false

def isCausedByDisconnect (msg : MembershipInfo) : Bool :=
  match msg.cause with
  | .disconnect _ => true
  | _ => false

/-- The private group of the member who left, null unless a leave or a disconnect caused the
message. -/
def getLeft (msg : MembershipInfo) : Option SpreadGroup :=
  match msg.regular, msg.cause with
  | true, .leave left => some left
  | true, .disconnect disconnected => some disconnected
  | _, _ => none

/-- The private group of the member who disconnected, null unless a disconnect caused the
message. -/
def getDisconnected (msg : MembershipInfo) : Option SpreadGroup :=
  match msg.regular, msg.cause with
  | true, .disconnect disconnected => some disconnected
  | _, _ => none

/-- The handler of a `RemoteScheduler` for the views of `users`: the `ClientFailure` that it
broadcasts. A null group ends it with an exception. -/
def failures (msg : MembershipInfo) : List ServerMsg :=
  if msg.isCausedByDisconnect then
    msg.getDisconnected.toList.map fun d => .clientFailure (some d)
  else if msg.isCausedByLeave then
    msg.getLeft.toList.map fun d => .clientFailure (some d)
  else []

end MembershipInfo

/-- The client that a message reports. -/
def ServerMsg.reports : ServerMsg → Option SpreadGroup
  | .clientFailure client => client
  | _ => none

/-- The task that a message ends. -/
def ServerMsg.ends : ServerMsg → Option Task
  | .req (.endTaskReq _ t) => t
  | _ => none

def ServerMsg.isReq : ServerMsg → Bool
  | .req _ => true
  | _ => false

def ServerMsg.isGetTaskReq : ServerMsg → Bool
  | .req (.getTaskReq _) => true
  | _ => false

/-! ## The machine -/

/-- A server, with the position of the next message that it handles. -/
structure Follower where
  scheduler : SchedulerImp
  next : ℕ
  deriving DecidableEq

/-- The scheduler after one message of the agreed order. -/
def handled (s : SchedulerImp) (p : SpreadGroup × ServerMsg) : SchedulerImp :=
  (mainHandler SchedulerImp.shiftAllTasksFromClient s p.1 p.2).scheduler

structure ClientGroup (ι : Type) where
  members : List SpreadGroup
  /-- The membership messages of `users`, in order. -/
  views : List MembershipInfo
  /-- The number of views that a member has handled or has joined after. -/
  seen : SpreadGroup → ℕ
  /-- What clients have sent and is not ordered yet, with the sender. -/
  inFlight : List (SpreadGroup × ServerMsg)
  /-- The agreed order of messages to `servers`. -/
  log : List (SpreadGroup × ServerMsg)
  servers : ι → Follower

namespace ClientGroup

variable {ι : Type}

inductive Action (ι : Type)
  | join (c : SpreadGroup)
  | issue (c : SpreadGroup) (r : Req)
  | leave (c : SpreadGroup)
  | disconnect (c : SpreadGroup)
  /-- The network takes members out of the group, together. -/
  | network (gone : List SpreadGroup)
  /-- What a client that is gone has in flight is lost with its daemon. -/
  | lose (c : SpreadGroup)
  /-- A client handles its next view. -/
  | see (c : SpreadGroup)
  /-- A message in flight is ordered. -/
  | order (k : ℕ)
  /-- A server handles its next message. -/
  | deliver (i : ι)

def start : ClientGroup ι := ⟨[], [], fun _ => 0, [], [], fun _ => ⟨SchedulerImp.empty, 0⟩⟩

/-- The scheduler of a server that has handled the whole order. -/
def agreed (x : ClientGroup ι) : SchedulerImp := x.log.foldl handled SchedulerImp.empty

/-- The members without those that are gone. -/
def remaining (x : ClientGroup ι) (gone : List SpreadGroup) : List SpreadGroup :=
  x.members.filter (· ∉ gone)

def afterRemoval (x : ClientGroup ι) (cause : Cause) (gone : List SpreadGroup) : ClientGroup ι :=
  { x with
    members := x.remaining gone
    views := x.views ++ [⟨true, cause, x.remaining gone⟩] }

def afterLoss (x : ClientGroup ι) (c : SpreadGroup) : ClientGroup ι :=
  { x with inFlight := x.inFlight.filter (·.1 ≠ c) }

/-- A message in flight may be ordered next: its sender has sent nothing before it, and a
`ClientFailure` of a client that is gone comes after the client's requests. -/
def MayOrder (x : ClientGroup ι) (k : ℕ) (p : SpreadGroup × ServerMsg) : Prop :=
  (∀ q ∈ x.inFlight.take k, q.1 ≠ p.1) ∧
    ∀ c ∈ p.2.reports, c ∈ x.members ∨ ∀ q ∈ x.inFlight, q.1 = c → q.2.isReq = false

instance (x : ClientGroup ι) (k : ℕ) (p : SpreadGroup × ServerMsg) : Decidable (x.MayOrder k p) :=
  inferInstanceAs (Decidable (_ ∧ _))

def step [DecidableEq ι] (x : ClientGroup ι) : Action ι → Option (ClientGroup ι)
  | .join c =>
    if c ∈ x.members then none
    else some { x with
      members := x.members ++ [c]
      views := x.views ++ [⟨true, .join c, x.members ++ [c]⟩]
      seen := Function.update x.seen c x.views.length }
  | .issue c r =>
    if c ∈ x.members then some { x with inFlight := x.inFlight ++ [(c, .req r)] } else none
  | .leave c => if c ∈ x.members then some (x.afterRemoval (.leave c) [c]) else none
  | .disconnect c => if c ∈ x.members then some (x.afterRemoval (.disconnect c) [c]) else none
  | .network gone => if gone ⊆ x.members then some (x.afterRemoval .network gone) else none
  | .lose c => if c ∈ x.members then none else some (x.afterLoss c)
  | .see c =>
    if c ∈ x.members then
      x.views[x.seen c]?.map fun v => { x with
        seen := Function.update x.seen c (x.seen c + 1)
        inFlight := x.inFlight ++ v.failures.map fun m => (c, m) }
    else none
  | .order k =>
    x.inFlight[k]?.bind fun p =>
      if x.MayOrder k p then
        some { x with inFlight := x.inFlight.eraseIdx k, log := x.log ++ [p] }
      else none
  | .deliver i =>
    x.log[(x.servers i).next]?.map fun p => { x with
      servers := Function.update x.servers i
        ⟨handled (x.servers i).scheduler p, (x.servers i).next + 1⟩ }

def machine [DecidableEq ι] : Machine (ClientGroup ι) (Action ι) := ⟨start, step⟩

/-- The steps, one rule for each kind. -/
inductive Step [DecidableEq ι] (x : ClientGroup ι) : Action ι → ClientGroup ι → Prop
  | join (c : SpreadGroup) (hc : c ∉ x.members) :
      Step x (.join c) { x with
        members := x.members ++ [c]
        views := x.views ++ [⟨true, .join c, x.members ++ [c]⟩]
        seen := Function.update x.seen c x.views.length }
  | issue (c : SpreadGroup) (r : Req) :
      Step x (.issue c r) { x with inFlight := x.inFlight ++ [(c, .req r)] }
  | leave (c : SpreadGroup) : Step x (.leave c) (x.afterRemoval (.leave c) [c])
  | disconnect (c : SpreadGroup) : Step x (.disconnect c) (x.afterRemoval (.disconnect c) [c])
  | network (gone : List SpreadGroup) : Step x (.network gone) (x.afterRemoval .network gone)
  | lose (c : SpreadGroup) : Step x (.lose c) (x.afterLoss c)
  | see (c : SpreadGroup) (v : MembershipInfo) (hv : x.views[x.seen c]? = some v) :
      Step x (.see c) { x with
        seen := Function.update x.seen c (x.seen c + 1)
        inFlight := x.inFlight ++ v.failures.map fun m => (c, m) }
  | order (k : ℕ) (p : SpreadGroup × ServerMsg) (hp : x.inFlight[k]? = some p) :
      Step x (.order k) { x with inFlight := x.inFlight.eraseIdx k, log := x.log ++ [p] }
  | deliver (i : ι) (p : SpreadGroup × ServerMsg) (hp : x.log[(x.servers i).next]? = some p) :
      Step x (.deliver i) { x with
        servers := Function.update x.servers i
          ⟨handled (x.servers i).scheduler p, (x.servers i).next + 1⟩ }

theorem step_cases [DecidableEq ι] {x x' : ClientGroup ι} {a : Action ι}
    (h : x.step a = some x') : Step x a x' := by
  cases a with
  | join c =>
    simp only [step] at h
    split_ifs at h with hc
    cases h
    exact .join c hc
  | issue c r =>
    simp only [step] at h
    split_ifs at h
    cases h
    exact .issue c r
  | leave c =>
    simp only [step] at h
    split_ifs at h
    cases h
    exact .leave c
  | disconnect c =>
    simp only [step] at h
    split_ifs at h
    cases h
    exact .disconnect c
  | network gone =>
    simp only [step] at h
    split_ifs at h
    cases h
    exact .network gone
  | lose c =>
    simp only [step] at h
    split_ifs at h
    cases h
    exact .lose c
  | see c =>
    simp only [step] at h
    split_ifs at h
    obtain ⟨v, hv, rfl⟩ := Option.map_eq_some_iff.mp h
    exact .see c v hv
  | order k =>
    obtain ⟨p, hp, h⟩ := Option.bind_eq_some_iff.mp h
    split_ifs at h
    cases h
    exact .order k p hp
  | deliver i =>
    obtain ⟨p, hp, rfl⟩ := Option.map_eq_some_iff.mp h
    exact .deliver i p hp

/-! ## Hope for the tasks of departed clients -/

/-- Nothing is in flight, and every member and every server has handled everything. -/
def Quiescent (x : ClientGroup ι) : Prop :=
  x.inFlight = [] ∧ (∀ c ∈ x.members, x.seen c = x.views.length) ∧
    ∀ i, (x.servers i).next = x.log.length

/-- Every task that is being processed at a server is a current member's. -/
def HeldByMembers (x : ClientGroup ι) : Prop :=
  ∀ i, ∀ e ∈ (x.servers i).scheduler.processingTasks.entries, e.2 ∈ x.members

instance (x : ClientGroup Bool) : Decidable x.Quiescent := inferInstanceAs (Decidable (_ ∧ _ ∧ _))

instance (x : ClientGroup Bool) : Decidable x.HeldByMembers := inferInstanceAs (Decidable (∀ _, _))

/-- What the entry of a departed client can hope for, when the members `gone` leave too. -/
def Hope (x : ClientGroup ι) (gone : List SpreadGroup) (e : Task × SpreadGroup) : Prop :=
  (∃ p ∈ x.inFlight, p.2.reports = some e.2 ∨ p.2.ends = some e.1) ∨
    ∃ d ∈ x.members, d ∉ gone ∧
      ∃ v ∈ x.views.drop (x.seen d), .clientFailure (some e.2) ∈ v.failures

instance (x : ClientGroup ι) (gone : List SpreadGroup) (e : Task × SpreadGroup) :
    Decidable (x.Hope gone e) := inferInstanceAs (Decidable (_ ∨ _))

/-- When members go, every task of a client that is gone has hope, or somebody who stays is told
by this view. -/
def RemovalKeepsHope (x : ClientGroup ι) (cause : Cause) (gone : List SpreadGroup) : Prop :=
  ∀ e ∈ x.agreed.processingTasks.entries, e.2 ∉ x.remaining gone →
    x.Hope gone e ∨ ((∃ d ∈ x.members, d ∉ gone) ∧
      .clientFailure (some e.2) ∈ MembershipInfo.failures ⟨true, cause, x.remaining gone⟩)

instance (x : ClientGroup ι) (cause : Cause) (gone : List SpreadGroup) :
    Decidable (x.RemovalKeepsHope cause gone) := inferInstanceAs (Decidable (∀ e ∈ _, _))

/-- A step that leaves no task of a departed client without hope. -/
def KeepsHope (x : ClientGroup ι) : Action ι → Prop
  | .leave c => x.RemovalKeepsHope (.leave c) [c]
  | .disconnect c => x.RemovalKeepsHope (.disconnect c) [c]
  | .network gone => x.RemovalKeepsHope .network gone
  | .lose c =>
    ∀ e ∈ x.agreed.processingTasks.entries, e.2 ∉ x.members → (x.afterLoss c).Hope [] e
  | .order k =>
    ∀ p ∈ x.inFlight[k]?, p.1 ∉ x.members → p.2.isGetTaskReq →
      ∀ t ∈ x.agreed.waitingTasks.head?, x.Hope [] (t, p.1)
  | _ => True

instance (x : ClientGroup ι) : ∀ a, Decidable (x.KeepsHope a)
  | .leave _ => inferInstanceAs (Decidable (RemovalKeepsHope ..))
  | .disconnect _ => inferInstanceAs (Decidable (RemovalKeepsHope ..))
  | .network _ => inferInstanceAs (Decidable (RemovalKeepsHope ..))
  | .lose _ => inferInstanceAs (Decidable (∀ e ∈ _, _))
  | .order _ => inferInstanceAs (Decidable (∀ p ∈ _, _))
  | .join _ | .issue _ _ | .see _ | .deliver _ => instDecidableTrue

/-! ## The invariant -/

/-- Every task of a departed client has hope, and every server is where the order takes it. -/
structure Watched (x : ClientGroup ι) : Prop where
  seen : ∀ c ∈ x.members, x.seen c ≤ x.views.length
  hope : ∀ e ∈ x.agreed.processingTasks.entries, e.2 ∉ x.members → x.Hope [] e
  next : ∀ i, (x.servers i).next ≤ x.log.length
  servers : ∀ i, (x.servers i).scheduler =
    replay handled SchedulerImp.empty x.log (x.servers i).next

theorem watched_start : Watched (start (ι := ι)) where
  seen := fun c hc => by cases hc
  hope := fun e he => by cases he
  next := fun _ => Nat.le_refl _
  servers := fun _ => rfl

/-- What a message does to the entries of the map: it takes some away, or hands the first task to
its sender. -/
theorem mem_entries_handled {s : SchedulerImp} {p : SpreadGroup × ServerMsg}
    {e : Task × SpreadGroup} (he : e ∈ (handled s p).processingTasks.entries) :
    (e ∈ s.processingTasks.entries ∧ p.2.reports ≠ some e.2 ∧ p.2.ends ≠ some e.1) ∨
      (p.2.isGetTaskReq = true ∧ e.2 = p.1 ∧ s.waitingTasks.head? = some e.1) := by
  obtain ⟨sender, m⟩ := p
  rw [← HashMap.get?_eq_some, ← SchedulerImp.ledger_holder] at he
  rw [← HashMap.get?_eq_some, ← SchedulerImp.ledger_holder]
  cases m with
  | stateReq => exact Or.inl ⟨he, (Option.some_ne_none _).symm, (Option.some_ne_none _).symm⟩
  | clientFailure client =>
    replace he : (s.shiftAllTasksFromClient client).1.ledger.holder e.1 = some e.2 := he
    rw [SchedulerImp.holder_shiftAllTasksFromClient] at he
    split_ifs at he with hclient
    refine Or.inl ⟨he, fun hreports => ?_, (Option.some_ne_none _).symm⟩
    exact hclient (he.trans hreports.symm)
  | req r =>
    replace he : (onReq s sender r).scheduler.ledger.holder e.1 = some e.2 := he
    rw [ledger_onReq] at he
    cases r with
    | newTaskReq id url =>
      refine Or.inl ⟨?_, (Option.some_ne_none _).symm, (Option.some_ne_none _).symm⟩
      simp only [Req.effect] at he
      split_ifs at he
      · exact he
      · exact he
    | getTaskReq id =>
      simp only [Req.effect, WorkQueue.handOut, SchedulerImp.ledger_waiting] at he
      cases hw : s.waitingTasks with
      | nil =>
        rw [hw] at he
        exact Or.inl ⟨he, (Option.some_ne_none _).symm, (Option.some_ne_none _).symm⟩
      | cons t ts =>
        rw [hw] at he
        replace he : Function.update s.ledger.holder t (some sender) e.1 = some e.2 := he
        by_cases het : e.1 = t
        · rw [het, Function.update_self] at he
          exact Or.inr ⟨rfl, (Option.some.inj he).symm, by rw [het]; rfl⟩
        · rw [Function.update_of_ne het] at he
          exact Or.inl ⟨he, (Option.some_ne_none _).symm, (Option.some_ne_none _).symm⟩
    | endTaskReq id t =>
      cases t with
      | none => exact Or.inl ⟨he, (Option.some_ne_none _).symm, (Option.some_ne_none _).symm⟩
      | some t =>
        replace he : Function.update s.ledger.holder t none e.1 = some e.2 := he
        by_cases het : e.1 = t
        · rw [het, Function.update_self] at he
          cases he
        · rw [Function.update_of_ne het] at he
          refine Or.inl ⟨he, (Option.some_ne_none _).symm, fun hends => ?_⟩
          exact het (Option.some.inj hends).symm

/-- Hope stays when messages stay in flight and those who have to report stay. -/
theorem Hope.mono {x x' : ClientGroup ι} {gone gone' : List SpreadGroup} {e : Task × SpreadGroup}
    (h : x.Hope gone e)
    (hflight : ∀ p ∈ x.inFlight, p.2.reports = some e.2 ∨ p.2.ends = some e.1 → p ∈ x'.inFlight)
    (hview : ∀ d ∈ x.members, d ∉ gone →
      ∀ v ∈ x.views.drop (x.seen d), .clientFailure (some e.2) ∈ v.failures → x'.Hope gone' e) :
    x'.Hope gone' e := by
  rcases h with ⟨p, hp, hfor⟩ | ⟨d, hd, hgone, v, hv, hfails⟩
  · exact Or.inl ⟨p, hflight p hp hfor, hfor⟩
  · exact hview d hd hgone v hv hfails

/-- Only the messages in flight and the order change, and those that the task hopes for stay. -/
theorem Hope.setInFlight {x : ClientGroup ι} {e : Task × SpreadGroup} (h : x.Hope [] e)
    {inFlight : List (SpreadGroup × ServerMsg)} (log : List (SpreadGroup × ServerMsg))
    (hflight : ∀ p ∈ x.inFlight, p.2.reports = some e.2 ∨ p.2.ends = some e.1 → p ∈ inFlight) :
    Hope { x with inFlight := inFlight, log := log } [] e :=
  h.mono hflight fun d hd hgone v hv hfails => Or.inr ⟨d, hd, hgone, v, hv, hfails⟩

theorem Watched.join {x : ClientGroup ι} (h : Watched x) {c : SpreadGroup} (hc : c ∉ x.members) :
    Watched { x with
      members := x.members ++ [c]
      views := x.views ++ [⟨true, .join c, x.members ++ [c]⟩]
      seen := Function.update x.seen c x.views.length } where
  seen := fun d hd => by
    show Function.update x.seen c x.views.length d ≤ (x.views ++ _).length
    rw [List.length_append]
    rcases List.mem_append.mp hd with hd | hd
    · rw [Function.update_of_ne (ne_of_mem_of_not_mem hd hc)]
      exact Nat.le_add_right_of_le (h.seen d hd)
    · rw [List.mem_singleton.mp hd, Function.update_self]
      exact Nat.le_add_right _ _
  hope := fun e he hgone => by
    rw [List.mem_append, not_or] at hgone
    refine (h.hope e he hgone.1).mono (fun p hp _ => hp) fun d hd _ v hv hfails => ?_
    refine Or.inr ⟨d, List.mem_append_left _ hd, List.not_mem_nil, v, ?_, hfails⟩
    show v ∈ (x.views ++ _).drop (Function.update x.seen c x.views.length d)
    rw [Function.update_of_ne (ne_of_mem_of_not_mem hd hc)]
    exact mem_drop_append hv _
  next := h.next
  servers := h.servers

theorem Watched.removal {x : ClientGroup ι} (h : Watched x) {cause : Cause}
    {gone : List SpreadGroup} (hok : x.RemovalKeepsHope cause gone) :
    Watched (x.afterRemoval cause gone) where
  seen := fun d hd => by
    show x.seen d ≤ (x.views ++ _).length
    rw [List.length_append]
    exact Nat.le_add_right_of_le (h.seen d (List.mem_filter.mp hd).1)
  hope := fun e he hgone => by
    have hstays : ∀ d ∈ x.members, d ∉ gone → d ∈ x.remaining gone := fun d hd hdg =>
      List.mem_filter.mpr ⟨hd, by simpa using hdg⟩
    rcases hok e he hgone with hhope | ⟨⟨d, hd, hdg⟩, hfails⟩
    · refine hhope.mono (fun p hp _ => hp) fun d hd hdg v hv hfails => ?_
      exact Or.inr ⟨d, hstays d hd hdg, List.not_mem_nil, v, mem_drop_append hv _, hfails⟩
    · exact Or.inr ⟨d, hstays d hd hdg, List.not_mem_nil, _,
        mem_drop_concat (h.seen d hd) _, hfails⟩
  next := h.next
  servers := h.servers

theorem Watched.see {x : ClientGroup ι} (h : Watched x) {c : SpreadGroup} {v : MembershipInfo}
    (hv : x.views[x.seen c]? = some v) :
    Watched { x with
      seen := Function.update x.seen c (x.seen c + 1)
      inFlight := x.inFlight ++ v.failures.map fun m => (c, m) } where
  seen := fun d hd => by
    show Function.update x.seen c (x.seen c + 1) d ≤ x.views.length
    by_cases hdc : d = c
    · rw [hdc, Function.update_self]
      exact (List.getElem?_eq_some_iff.mp hv).1
    · rw [Function.update_of_ne hdc]
      exact h.seen d hd
  hope := fun e he hgone => by
    refine (h.hope e he hgone).mono (fun p hp _ => List.mem_append_left _ hp) ?_
    intro d hd _ w hw hfails
    by_cases hdc : d = c
    · subst hdc
      rw [drop_eq_cons hv] at hw
      rcases List.mem_cons.mp hw with rfl | hw
      · -- the report is sent now
        exact Or.inl ⟨(d, .clientFailure (some e.2)),
          List.mem_append_right _ (List.mem_map.mpr ⟨_, hfails, rfl⟩), Or.inl rfl⟩
      · refine Or.inr ⟨d, hd, List.not_mem_nil, w, ?_, hfails⟩
        show w ∈ x.views.drop (Function.update x.seen d (x.seen d + 1) d)
        rw [Function.update_self]
        exact hw
    · refine Or.inr ⟨d, hd, List.not_mem_nil, w, ?_, hfails⟩
      show w ∈ x.views.drop (Function.update x.seen c (x.seen c + 1) d)
      rw [Function.update_of_ne hdc]
      exact hw
  next := h.next
  servers := h.servers

/-- A message that is ordered releases the tasks that it is about, or hands one out. -/
theorem Watched.order {x : ClientGroup ι} (h : Watched x) {k : ℕ} {p : SpreadGroup × ServerMsg}
    (hp : x.inFlight[k]? = some p) (hok : x.KeepsHope (.order k)) :
    Watched { x with inFlight := x.inFlight.eraseIdx k, log := x.log ++ [p] } where
  seen := h.seen
  hope := fun e he hgone => by
    replace he : e ∈ ((x.log ++ [p]).foldl handled SchedulerImp.empty).processingTasks.entries := he
    rw [List.foldl_append] at he
    have hstays : ∀ q ∈ x.inFlight, q ≠ p → q ∈ x.inFlight.eraseIdx k := fun q hq hqp =>
      mem_eraseIdx_of_ne hp hq hqp
    rcases mem_entries_handled he with ⟨hold, hreports, hends⟩ | ⟨hget, hsender, hfirst⟩
    · refine (h.hope e hold hgone).setInFlight _ fun q hq hfor => hstays q hq ?_
      rintro rfl
      exact hfor.elim hreports hends
    · have hhope : x.Hope [] e := by
        obtain ⟨t, c⟩ := e
        obtain rfl : c = p.1 := hsender
        exact hok p hp hgone hget t hfirst
      refine hhope.setInFlight _ fun q hq hfor => hstays q hq ?_
      rintro rfl
      obtain ⟨sender, m⟩ := q
      cases m with
      | stateReq | clientFailure => cases hget
      | req r =>
        cases r with
        | newTaskReq | endTaskReq => cases hget
        | getTaskReq id => rcases hfor with hfor | hfor <;> cases hfor
  next := fun i => by
    show (x.servers i).next ≤ (x.log ++ [p]).length
    rw [List.length_append]
    exact Nat.le_add_right_of_le (h.next i)
  servers := fun i => by
    rw [replay_append _ _ (h.next i)]
    exact h.servers i

theorem Watched.deliver [DecidableEq ι] {x : ClientGroup ι} (h : Watched x) {i : ι}
    {p : SpreadGroup × ServerMsg} (hp : x.log[(x.servers i).next]? = some p) :
    Watched { x with
      servers := Function.update x.servers i
        ⟨handled (x.servers i).scheduler p, (x.servers i).next + 1⟩ } where
  seen := h.seen
  hope := h.hope
  next := fun j => by
    by_cases hji : j = i
    · subst hji
      simp only [Function.update_self]
      exact (List.getElem?_eq_some_iff.mp hp).1
    · simp only [Function.update_of_ne hji]
      exact h.next j
  servers := fun j => by
    by_cases hji : j = i
    · subst hji
      simp only [Function.update_self]
      rw [replay_succ _ _ hp, ← h.servers j]
    · simp only [Function.update_of_ne hji]
      exact h.servers j

theorem watched_step [DecidableEq ι] {x x' : ClientGroup ι} {a : Action ι} (h : Watched x)
    (hok : x.KeepsHope a) (hstep : x.step a = some x') : Watched x' := by
  cases step_cases hstep with
  | join c hc => exact h.join hc
  | issue c r =>
    refine { h with hope := fun e he hgone => ?_ }
    exact (h.hope e he hgone).setInFlight x.log fun p hp _ => List.mem_append_left _ hp
  | leave c => exact h.removal hok
  | disconnect c => exact h.removal hok
  | network gone => exact h.removal hok
  | lose c => exact { h with hope := hok }
  | see c v hv => exact h.see hv
  | order k p hp => exact h.order hp hok
  | deliver i p hp => exact h.deliver hp

theorem watched_of_reachable [DecidableEq ι] {x : ClientGroup ι}
    (h : machine.Reachable KeepsHope x) : Watched x :=
  h.invariant (P := Watched) watched_start fun _ _ _ hx hok hstep => watched_step hx hok hstep

/-- Once everything is handled nothing is left to hope for. -/
theorem Quiescent.not_hope {x : ClientGroup ι} (hq : x.Quiescent) {gone : List SpreadGroup}
    {e : Task × SpreadGroup} : ¬ x.Hope gone e := by
  obtain ⟨hflight, hseen, -⟩ := hq
  rintro (⟨p, hp, -⟩ | ⟨d, hd, -, v, hv, -⟩)
  · rw [hflight] at hp
    cases hp
  · rw [hseen d hd, List.drop_length] at hv
    cases hv

end ClientGroup

open ClientGroup

/-- **A departed client holds no task, unless a step takes away the last hope of one.** -/
theorem departed_client_holds_no_task {ι : Type} [DecidableEq ι] (x : ClientGroup ι)
    (h : machine.Reachable KeepsHope x) (hq : x.Quiescent) : x.HeldByMembers := by
  have hx := watched_of_reachable h
  intro i e he
  have hserver : (x.servers i).scheduler = x.agreed := by
    rw [hx.servers i, hq.2.2 i, replay, List.take_length]
    rfl
  rw [hserver] at he
  by_contra hgone
  exact hq.not_hope (hx.hope e he hgone)

/-- The network takes client `a` out of the group. Client `b` sees it, reports nothing, and the
task of `a` stays with it on both servers. -/
theorem departed_client_keeps_task : ¬ ∀ x : ClientGroup Bool, machine.Reachable anyStep x →
    x.Quiescent → x.HeldByMembers := by
  intro hall
  obtain ⟨x, hx, hq, hnot⟩ := Machine.exists_reachable_of_run (machine (ι := Bool)) anyStep
    (fun x => x.Quiescent ∧ ¬ x.HeldByMembers)
    [.join (str "a"), .join (str "b"), .issue (str "a") (.newTaskReq 1 (some (str "u"))),
      .issue (str "a") (.getTaskReq 3), .order 0, .order 0,
      .deliver true, .deliver true, .deliver false, .deliver false,
      .network [str "a"], .see (str "b"), .see (str "b")] (by decide +kernel)
  exact hnot (hall x hx hq)

/-- The same, and the last client disconnects. -/
example : ∃ x : ClientGroup Bool, machine.Reachable anyStep x ∧ x.Quiescent ∧ ¬ x.HeldByMembers :=
  Machine.exists_reachable_of_run (machine (ι := Bool)) anyStep
    (fun x => x.Quiescent ∧ ¬ x.HeldByMembers)
    [.join (str "a"), .issue (str "a") (.newTaskReq 1 (some (str "u"))),
      .issue (str "a") (.getTaskReq 3), .order 0, .order 0,
      .deliver true, .deliver true, .deliver false, .deliver false,
      .disconnect (str "a")] (by decide +kernel)

/-- Client `a` disconnects and client `b` reports it. -/
theorem departed_client_holds_no_task_reported : ∃ x : ClientGroup Bool,
    machine.Reachable KeepsHope x ∧ (x.Quiescent ∧ x.members = [str "b"]) ∧ x.HeldByMembers := by
  obtain ⟨x, hx, hq, hmembers⟩ := Machine.exists_reachable_of_run (machine (ι := Bool)) KeepsHope
    (fun x => x.Quiescent ∧ x.members = [str "b"])
    [.join (str "a"), .join (str "b"), .issue (str "a") (.newTaskReq 1 (some (str "u"))),
      .issue (str "a") (.getTaskReq 3), .order 0, .order 0, .deliver true, .deliver true,
      .disconnect (str "a"), .see (str "b"), .see (str "b"), .order 0,
      .deliver true, .deliver false, .deliver false, .deliver false] (by decide +kernel)
  exact ⟨x, hx, ⟨hq, hmembers⟩, departed_client_holds_no_task x hx hq⟩

end ReplicatedScheduler
