import ReplicatedScheduler.MainHandlers
import ReplicatedScheduler.Lib.Machine

/-!
# Clients that fail and come back

**Theorem (`task_held_once`).** In a run that meets `NoStaleFailure`, no two connected processes
hold the same task, and every task that a connected process holds is still its own on the servers.

`Users` is the group of clients with the servers, which are in agreement and so are one
scheduler. A process sends to the order through its connection, first in first out; joins and
disconnects are ordered with its messages. Every process sees the disconnects that are ordered
after its own join, one after another, and broadcasts a `ClientFailure` for each. A process
holds a task from the answer to its `GetTaskReq` until it issues `endTask` or disconnects, and
ends only tasks that it holds, as `Client_UI` and `Client_Simple` do.

**One step.** A message is ordered and handled in one step; all tasks of a failed client are
shifted (`shiftAllTasksFromClient`).

One disconnect gives as many `ClientFailure`s as there are processes that see it, and they name
the client by its private group, which a process that reconnects has again. One that is handled
late takes the tasks of the new process. `NoStaleFailure` asks that it has none then.
-/

namespace ReplicatedScheduler

open JavaLib Lib Lts

/-- A process connected under some private group. -/
structure Process where
  /-- Tells the processes of one private group apart. -/
  number : ℕ
  held : List Task
  /-- The number of disconnects that it has seen, once its join is ordered. -/
  seen : Option ℕ
  deriving DecidableEq

/-- What a connection sends to the order. A request has the number of the process. -/
inductive Post
  | join (number : ℕ)
  | disconnect
  | request (number : ℕ) (r : Req)
  | failure (client : SpreadGroup)
  deriving DecidableEq

structure Users where
  scheduler : SchedulerImp
  /-- The number of the next process. -/
  next : ℕ
  live : SpreadGroup → Option Process
  /-- What a connection has sent and is not ordered yet. -/
  outbox : SpreadGroup → List Post
  /-- The private groups that disconnected, in order. -/
  left : List SpreadGroup

/-- The tasks handed out by the replies among the messages sent. -/
def handedOut (sent : List Output) : List Task :=
  sent.filterMap fun
    | .reply _ (.getTaskRep _ res true) => res
    | _ => none

/-- A process may end a task that it holds. -/
def Process.MayIssue (p : Process) : Req → Prop
  | .endTaskReq _ t => ∃ t' ∈ t, t' ∈ p.held
  | _ => True

instance (p : Process) (r : Req) : Decidable (p.MayIssue r) := by
  unfold Process.MayIssue
  split <;> infer_instance

/-- The process after it has issued a request. -/
def Process.issue (p : Process) : Req → Process
  | .endTaskReq _ (some t) => { p with held := p.held.erase t }
  | _ => p

/-- The task that a message ends. -/
def Post.ends : Post → Option Task
  | .request _ (.endTaskReq _ t) => t
  | _ => none

/-- The client that a message reports. -/
def Post.reports : Post → Option SpreadGroup
  | .failure client => some client
  | _ => none

theorem filterMap_ends_concat (es : List Post) {e : Post} (h : e.ends = none) :
    (es ++ [e]).filterMap Post.ends = es.filterMap Post.ends := by
  rw [List.filterMap_append, List.filterMap_cons_none h, List.filterMap_nil, List.append_nil]

/-- A request that is issued ends what the process no longer holds. -/
theorem Process.issue_perm {p : Process} {r : Req} (hr : p.MayIssue r) (es : List Post) :
    ((p.issue r).held ++ (es ++ [Post.request p.number r]).filterMap Post.ends).Perm
      (p.held ++ es.filterMap Post.ends) := by
  cases r with
  | newTaskReq id url =>
    rw [filterMap_ends_concat es rfl]
    exact List.Perm.refl _
  | getTaskReq id =>
    rw [filterMap_ends_concat es rfl]
    exact List.Perm.refl _
  | endTaskReq id t =>
    obtain ⟨t, rfl, ht⟩ := hr
    rw [List.filterMap_append, ← List.append_assoc]
    refine (List.perm_append_singleton t _).trans ?_
    rw [← List.cons_append]
    exact (List.perm_cons_erase ht).symm.append_right _

/-! ## The machine -/

namespace Users

/-- No client is connected, and the servers have no task. -/
def start : Users := ⟨SchedulerImp.empty, 0, fun _ => none, fun _ => [], []⟩

inductive Action
  | connect (c : SpreadGroup)
  | disconnect (c : SpreadGroup)
  | issue (c : SpreadGroup) (r : Req)
  /-- The process of `c` sees the next disconnect. -/
  | see (c : SpreadGroup)
  /-- The next message of the connection of `c` is ordered and handled. -/
  | order (c : SpreadGroup)
  deriving DecidableEq

/-- Connection `c` sends a message. -/
def send (x : Users) (c : SpreadGroup) (e : Post) : Users :=
  { x with outbox := Function.update x.outbox c (x.outbox c ++ [e]) }

/-- The process of `c` becomes `p`. -/
def setLive (x : Users) (c : SpreadGroup) (p : Option Process) : Users :=
  { x with live := Function.update x.live c p }

/-- The process of `c`, changed by `f` if it is number `n`. -/
def changed (x : Users) (c : SpreadGroup) (n : ℕ) (f : Process → Process) : Option Process :=
  (x.live c).map fun p => if p.number = n then f p else p

/-- What the order does with a message of `c`. -/
def handle (x : Users) (c : SpreadGroup) : Post → Users
  | .join n => x.setLive c (x.changed c n fun p => { p with seen := some x.left.length })
  | .disconnect => { x with left := x.left ++ [c] }
  | .request n r =>
    let h := mainHandler SchedulerImp.shiftAllTasksFromClient x.scheduler c (.req r)
    Users.setLive { x with scheduler := h.scheduler } c
      (x.changed c n fun p => { p with held := p.held ++ handedOut h.sent })
  | .failure client => { x with
      scheduler := (mainHandler SchedulerImp.shiftAllTasksFromClient x.scheduler c
        (.clientFailure (some client))).scheduler }

def step (x : Users) : Action → Option Users
  | .connect c =>
    if x.live c = none then
      some (({ x with next := x.next + 1 }.setLive c (some ⟨x.next, [], none⟩)).send c
        (.join x.next))
    else none
  | .disconnect c =>
    (x.live c).map fun _ => (x.setLive c none).send c .disconnect
  | .issue c r =>
    match x.live c with
    | some p =>
      if p.MayIssue r then some ((x.setLive c (some (p.issue r))).send c (.request p.number r))
      else none
    | none => none
  | .see c =>
    match x.live c with
    | some p =>
      match p.seen with
      | some k =>
        x.left[k]?.map fun d =>
          (x.setLive c (some { p with seen := some (k + 1) })).send c (.failure d)
      | none => none
    | none => none
  | .order c =>
    match x.outbox c with
    | e :: rest => some (Users.handle { x with outbox := Function.update x.outbox c rest } c e)
    | [] => none

def machine : Machine Users Action := ⟨start, step⟩

/-- The steps, one rule for each. -/
inductive Step (x : Users) : Action → Users → Prop
  | connect (c : SpreadGroup) (h : x.live c = none) :
      Step x (.connect c) (({ x with next := x.next + 1 }.setLive c (some ⟨x.next, [], none⟩)).send c
        (.join x.next))
  | disconnect (c : SpreadGroup) (p : Process) (h : x.live c = some p) :
      Step x (.disconnect c) ((x.setLive c none).send c .disconnect)
  | issue (c : SpreadGroup) (r : Req) (p : Process) (h : x.live c = some p) (hr : p.MayIssue r) :
      Step x (.issue c r) ((x.setLive c (some (p.issue r))).send c (.request p.number r))
  | see (c d : SpreadGroup) (p : Process) (k : ℕ) (h : x.live c = some p) (hk : p.seen = some k)
      (hd : x.left[k]? = some d) :
      Step x (.see c) ((x.setLive c (some { p with seen := some (k + 1) })).send c (.failure d))
  | order (c : SpreadGroup) (e : Post) (rest : List Post) (h : x.outbox c = e :: rest) :
      Step x (.order c) (Users.handle { x with outbox := Function.update x.outbox c rest } c e)

theorem step_cases {x x' : Users} {a : Action} (h : x.step a = some x') : Step x a x' := by
  cases a with
  | connect c =>
    simp only [step] at h
    split_ifs at h with hc
    cases h
    exact .connect c hc
  | disconnect c =>
    obtain ⟨p, hp, rfl⟩ := Option.map_eq_some_iff.mp h
    exact .disconnect c p hp
  | issue c r =>
    simp only [step] at h
    split at h
    · next p hp =>
      split_ifs at h with hr
      cases h
      exact .issue c r p hp hr
    · cases h
  | see c =>
    simp only [step] at h
    split at h
    · next p hp =>
      split at h
      · next k hk =>
        obtain ⟨d, hd, rfl⟩ := Option.map_eq_some_iff.mp h
        exact .see c d p k hp hk hd
      · cases h
    · cases h
  | order c =>
    simp only [step] at h
    split at h
    · next e rest he =>
      cases h
      exact .order c e rest he
    · cases h

/-! ## Held tasks -/

/-- No two connected processes hold the same task. -/
def HeldOnce (x : Users) : Prop :=
  ∀ c d p q, x.live c = some p → x.live d = some q → ∀ t ∈ p.held, t ∈ q.held → c = d

/-- Every task that a connected process holds is its own on the servers. -/
def HeldIsAssigned (x : Users) : Prop :=
  ∀ c p, x.live c = some p → ∀ t ∈ p.held, x.scheduler.processingTasks.get? t = some c

/-- The tasks that the connected process of `c` holds, and those that messages of `c` still to be
handled end. -/
def tasksOf (x : Users) (c : SpreadGroup) : List Task :=
  ((x.live c).map Process.held).getD [] ++ (x.outbox c).filterMap Post.ends

/-- A `ClientFailure` that is handled finds no task of the client it reports held, and none about
to be ended. -/
def NoStaleFailure (x : Users) : Action → Prop
  | .order c => ∀ e ∈ (x.outbox c).head?, ∀ d ∈ e.reports, x.tasksOf d = []
  | _ => True

instance (x : Users) (a : Action) : Decidable (x.NoStaleFailure a) := by
  unfold NoStaleFailure
  split <;> infer_instance

/-! ## The invariant -/

/-- The tasks of every client are distinct and assigned to it on the servers. -/
structure Owned (x : Users) : Prop where
  unique : x.scheduler.ledger.Unique
  nodup : ∀ c, (x.tasksOf c).Nodup
  holder : ∀ c, ∀ t ∈ x.tasksOf c, x.scheduler.ledger.holder t = some c

theorem owned_start : Owned start where
  unique := fun t => by simp [start, WorkQueue.count]
  nodup := fun c => by simp [tasksOf, start]
  holder := fun c t ht => by simp [tasksOf, start] at ht

/-- The tasks of one client become some of `ts`, which are its own on the servers now. -/
theorem Owned.setTasks {x : Users} (h : Owned x) {s : SchedulerImp} {c : SpreadGroup}
    {p : Option Process} {es : List Post} {ts : List Task} (hunique : s.ledger.Unique)
    (hsub : ((p.map Process.held).getD [] ++ es.filterMap Post.ends).Subperm ts)
    (hnodup : ts.Nodup) (hholder : ∀ t ∈ ts, s.ledger.holder t = some c)
    (hother : ∀ d t, d ≠ c → x.scheduler.ledger.holder t = some d → s.ledger.holder t = some d)
    (next : ℕ) :
    Owned { x with scheduler := s, next := next, live := Function.update x.live c p,
                   outbox := Function.update x.outbox c es } := by
  have htasks : ∀ d, tasksOf { x with
      scheduler := s, next := next, live := Function.update x.live c p,
      outbox := Function.update x.outbox c es } d =
        if d = c then (p.map Process.held).getD [] ++ es.filterMap Post.ends else x.tasksOf d := by
    intro d
    by_cases hdc : d = c
    · subst hdc
      simp [tasksOf]
    · simp [tasksOf, hdc]
  obtain ⟨l, hperm, hsub⟩ := hsub
  refine ⟨hunique, fun d => ?_, fun d t ht => ?_⟩
  · rw [htasks]
    split_ifs
    · exact hperm.nodup_iff.mp (hsub.nodup hnodup)
    · exact h.nodup d
  · rw [htasks] at ht
    split_ifs at ht with hdc
    · rw [hdc]
      exact hholder t (hsub.subset (hperm.mem_iff.mpr ht))
    · exact hother d t hdc (h.holder d t ht)

/-- The servers do not change, and a client's tasks become fewer. -/
theorem Owned.shrink {x : Users} (h : Owned x) {c : SpreadGroup} {p : Option Process}
    {es : List Post} (next : ℕ)
    (hsub : ((p.map Process.held).getD [] ++ es.filterMap Post.ends).Subperm (x.tasksOf c)) :
    Owned { x with next := next, live := Function.update x.live c p,
                   outbox := Function.update x.outbox c es } :=
  h.setTasks h.unique hsub (h.nodup c) (h.holder c) (fun _ _ _ => id) next

/-- A message that ends no task leaves the connection. -/
theorem Owned.drop {x : Users} (h : Owned x) {c : SpreadGroup} {e : Post} {rest : List Post}
    (he : x.outbox c = e :: rest) (hends : e.ends = none) :
    (∀ d, tasksOf { x with outbox := Function.update x.outbox c rest } d = x.tasksOf d) ∧
      Owned { x with outbox := Function.update x.outbox c rest } := by
  have htasks : ∀ d,
      tasksOf { x with outbox := Function.update x.outbox c rest } d = x.tasksOf d := by
    intro d
    by_cases hdc : d = c
    · subst hdc
      simp [tasksOf, he, hends]
    · simp [tasksOf, hdc]
  refine ⟨htasks, h.unique, fun d => ?_, fun d t ht => ?_⟩
  · rw [htasks]
    exact h.nodup d
  · rw [htasks] at ht
    exact h.holder d t ht

/-- What a request does to the tasks of the clients: nothing, hand one out, or end one. -/
theorem holder_onReq {s : SchedulerImp} (h : s.ledger.Unique) (c : SpreadGroup) (n : ℕ) (r : Req) :
    ((Post.request n r).ends = none ∧ handedOut (onReq s c r).sent = [] ∧
        (onReq s c r).scheduler.ledger.holder = s.ledger.holder) ∨
      (∃ t, (Post.request n r).ends = none ∧ handedOut (onReq s c r).sent = [t] ∧
        s.ledger.holder t = none ∧
        (onReq s c r).scheduler.ledger.holder = Function.update s.ledger.holder t (some c)) ∨
      ∃ t, (Post.request n r).ends = some t ∧ handedOut (onReq s c r).sent = [] ∧
        (onReq s c r).scheduler.ledger.holder = Function.update s.ledger.holder t none := by
  rw [ledger_onReq]
  cases r with
  | newTaskReq id url =>
    refine Or.inl ⟨rfl, ?_, ?_⟩
    · rcases s.newTask_cases url with ⟨-, hs⟩ | ⟨-, -, hs⟩ | ⟨-, hs⟩ <;>
        simp [onReq, onNewTaskReq, hs, handedOut]
    · simp only [Req.effect]
      split_ifs <;> rfl
  | getTaskReq id =>
    cases hget : s.getTask with
    | ok p =>
      obtain ⟨hw, -⟩ := SchedulerImp.ledger_getTask hget c
      refine Or.inr (Or.inl ⟨p.1, rfl, ?_, h.holder_eq_none ?_, ?_⟩)
      · simp [onReq, onGetTaskReq, hget, handedOut]
      · rw [SchedulerImp.ledger_waiting, hw]
        exact List.mem_cons_self
      · simp [Req.effect, WorkQueue.handOut, hw]
    | error e =>
      obtain ⟨hw, rfl⟩ := SchedulerImp.getTask_eq_error hget
      refine Or.inl ⟨rfl, ?_, ?_⟩
      · simp [onReq, onGetTaskReq, hget, handedOut]
      · simp [Req.effect, WorkQueue.handOut, hw]
  | endTaskReq id t =>
    cases t with
    | none => exact Or.inl ⟨rfl, rfl, rfl⟩
    | some t => exact Or.inr (Or.inr ⟨t, rfl, rfl, rfl⟩)

/-- The process of `c` after a change has what it had and what the change adds, at most. -/
theorem held_changed (x : Users) (c : SpreadGroup) (n : ℕ) {f : Process → Process}
    {ts : List Task} (hf : ∀ p, (f p).held = p.held ++ ts) :
    (((x.changed c n f).map Process.held).getD []).Sublist
      (((x.live c).map Process.held).getD [] ++ ts) := by
  unfold changed
  cases x.live c with
  | none => exact List.nil_sublist _
  | some p =>
    simp only [Option.map_some, Option.getD_some]
    split_ifs
    · rw [hf]
    · exact List.sublist_append_left _ _

/-- A request that is handled: its client keeps its tasks, gets one more or ends one. -/
theorem tasks_request {x : Users} (h : Owned x) {c : SpreadGroup} {n : ℕ} {r : Req}
    {rest : List Post} (he : x.outbox c = .request n r :: rest) {held : List Task}
    (hheld : held = ((x.live c).map Process.held).getD [] ++
      handedOut (onReq x.scheduler c r).sent) :
    (held ++ rest.filterMap Post.ends).Nodup ∧
      (∀ t ∈ held ++ rest.filterMap Post.ends,
        (onReq x.scheduler c r).scheduler.ledger.holder t = some c) ∧
      ∀ d t, d ≠ c → x.scheduler.ledger.holder t = some d →
        (onReq x.scheduler c r).scheduler.ledger.holder t = some d := by
  have hnodup := h.nodup c
  have hholder := h.holder c
  rw [tasksOf, he] at hnodup hholder
  rcases holder_onReq h.unique c n r with ⟨hends, hout, hnew⟩ | ⟨t, hends, hout, hfree, hnew⟩ |
    ⟨t, hends, hout, hnew⟩
  · rw [List.filterMap_cons_none hends] at hnodup hholder
    rw [hheld, hout, List.append_nil, hnew]
    exact ⟨hnodup, hholder, fun _ _ _ => id⟩
  · rw [List.filterMap_cons_none hends] at hnodup hholder
    have hne : ∀ t' d, x.scheduler.ledger.holder t' = some d → t' ≠ t := by
      rintro t' d ht' rfl
      rw [hfree] at ht'
      cases ht'
    rw [hheld, hout, hnew, List.append_assoc, List.singleton_append]
    refine ⟨List.nodup_middle.mpr (List.nodup_cons.mpr
      ⟨fun hmem => hne t c (hholder t hmem) rfl, hnodup⟩), ?_, ?_⟩
    · intro t' ht'
      rcases List.mem_cons.mp (List.perm_middle.mem_iff.mp ht') with rfl | ht'
      · exact Function.update_self ..
      · rw [Function.update_of_ne (hne t' c (hholder t' ht'))]
        exact hholder t' ht'
    · intro d t' _ ht'
      rw [Function.update_of_ne (hne t' d ht')]
      exact ht'
  · rw [List.filterMap_cons_some hends] at hnodup hholder
    obtain ⟨hfresh, hnodup⟩ := List.nodup_cons.mp (List.nodup_middle.mp hnodup)
    rw [hheld, hout, hnew, List.append_nil]
    refine ⟨hnodup, ?_, ?_⟩
    · intro t' ht'
      have htt : t' ≠ t := by
        rintro rfl
        exact hfresh ht'
      rw [Function.update_of_ne htt]
      exact hholder t' (List.perm_middle.mem_iff.mpr (List.mem_cons_of_mem t ht'))
    · intro d t' hdc ht'
      have htt : t' ≠ t := by
        rintro rfl
        rw [hholder t' (List.perm_middle.mem_iff.mpr List.mem_cons_self)] at ht'
        exact hdc (Option.some.inj ht').symm
      rw [Function.update_of_ne htt]
      exact ht'

theorem Owned.request {x : Users} (h : Owned x) {c : SpreadGroup} {n : ℕ} {r : Req}
    {rest : List Post} (he : x.outbox c = .request n r :: rest) :
    Owned (handle { x with outbox := Function.update x.outbox c rest } c (.request n r)) := by
  obtain ⟨hnodup, hholder, hother⟩ := tasks_request h he rfl
  have hsub := held_changed x c n (f := fun p =>
    { p with held := p.held ++ handedOut (onReq x.scheduler c r).sent }) fun _ => rfl
  exact h.setTasks (unique_onReq h.unique c r) (hsub.append_right _).subperm hnodup hholder
    hother x.next

/-- A `ClientFailure` that reports a client without tasks takes no task from any client. -/
theorem Owned.failure {x : Users} (h : Owned x) {c d : SpreadGroup} (hd : x.tasksOf d = []) :
    Owned (x.handle c (.failure d)) where
  unique := SchedulerImp.unique_shiftAllTasksFromClient h.unique (some d)
  nodup := h.nodup
  holder := fun b t ht => by
    have hbd : b ≠ d := by
      rintro rfl
      have ht' : t ∈ x.tasksOf b := ht
      rw [hd] at ht'
      cases ht'
    show (x.scheduler.shiftAllTasksFromClient (some d)).1.ledger.holder t = some b
    rw [SchedulerImp.holder_shiftAllTasksFromClient, h.holder b t ht, if_neg]
    simpa using hbd

/-- A process that sends a message which ends no task, and holds no more than before. -/
theorem Owned.send {x : Users} (h : Owned x) {c : SpreadGroup} {p : Option Process} {e : Post}
    (next : ℕ) (hends : e.ends = none)
    (hheld : ((p.map Process.held).getD []).Sublist (((x.live c).map Process.held).getD [])) :
    Owned (({ x with next := next }.setLive c p).send c e) := by
  refine h.shrink next ?_
  show (_ ++ (x.outbox c ++ [e]).filterMap Post.ends).Subperm _
  rw [filterMap_ends_concat _ hends]
  exact (hheld.append_right _).subperm

theorem owned_step {x x' : Users} {a : Action} (h : Owned x) (hok : x.NoStaleFailure a)
    (hstep : x.step a = some x') : Owned x' := by
  cases step_cases hstep with
  | connect c hc => exact h.send (x.next + 1) rfl (List.nil_sublist _)
  | disconnect c p hp => exact h.send x.next rfl (List.nil_sublist _)
  | issue c r p hp hr =>
    refine h.shrink x.next ?_
    rw [tasksOf, hp]
    exact (p.issue_perm hr _).subperm
  | see c d p k hp hk hd =>
    refine h.send x.next rfl ?_
    rw [hp]
    exact List.Sublist.refl _
  | order c e rest he =>
    cases e with
    | join n =>
      have hsub := held_changed x c n (f := fun p => { p with seen := some x.left.length })
        fun p => (List.append_nil p.held).symm
      rw [List.append_nil] at hsub
      refine h.shrink x.next ?_
      rw [tasksOf, he, List.filterMap_cons_none rfl]
      exact (hsub.append_right _).subperm
    | disconnect => exact { (h.drop he rfl).2 with }
    | request n r => exact h.request he
    | failure d =>
      obtain ⟨htasks, hdrop⟩ := h.drop he rfl
      refine hdrop.failure ?_
      rw [htasks]
      exact hok (.failure d) (by rw [he]; rfl) d rfl

theorem owned_of_reachable {x : Users} (h : machine.Reachable NoStaleFailure x) : Owned x :=
  h.invariant (P := Owned) owned_start fun _ _ _ hx hok hstep => owned_step hx hok hstep

end Users

open Users

/-- **A task is held by at most one live client, unless a stale `ClientFailure` is handled.** And
it is assigned to that client on the servers. -/
theorem task_held_once (x : Users) (h : machine.Reachable NoStaleFailure x) :
    x.HeldOnce ∧ x.HeldIsAssigned := by
  have hx := owned_of_reachable h
  have hassigned : x.HeldIsAssigned := fun c p hp t ht => by
    refine hx.holder c t (List.mem_append_left _ ?_)
    rw [hp]
    exact ht
  refine ⟨fun c d p q hp hq t htp htq => ?_, hassigned⟩
  have hc := hassigned c p hp t htp
  rw [hassigned d q hq t htq] at hc
  exact (Option.some.inj hc).symm

/-- Two processes, of `a` and of `b`, see the process of `u` fail. The `ClientFailure` of `a` gives
its task back, a new process of `u` gets the task, and the `ClientFailure` of `b` takes it away:
`a` gets it too. -/
theorem task_held_twice : ¬ ∀ x, machine.Reachable anyStep x → x.HeldOnce := by
  intro hall
  obtain ⟨x, hx, p, hp, q, hq, t, htp, htq⟩ := Machine.exists_reachable_of_run machine anyStep
    (fun x => ∃ p ∈ x.live (str "a"), ∃ q ∈ x.live (str "u"), ∃ t ∈ p.held, t ∈ q.held)
    [.connect (str "a"), .order (str "a"), .connect (str "b"), .order (str "b"),
      .connect (str "u"), .order (str "u"),
      .issue (str "a") (.newTaskReq 1 (some (str "x"))), .order (str "a"),
      .issue (str "u") (.getTaskReq 1), .order (str "u"),
      .disconnect (str "u"), .order (str "u"), .see (str "a"), .see (str "b"), .order (str "a"),
      .connect (str "u"), .order (str "u"), .issue (str "u") (.getTaskReq 1), .order (str "u"),
      .order (str "b"), .issue (str "a") (.getTaskReq 3), .order (str "a")] (by decide +kernel)
  exact absurd (hall x hx (str "a") (str "u") p q hp hq t htp htq) (by decide)

/-- The same clients, with both `ClientFailure`s handled before the task is handed out again. -/
theorem task_held_once_after_failure : ∃ x, machine.Reachable NoStaleFailure x ∧
    (x.left = [str "u"] ∧ ∃ p ∈ x.live (str "u"), p.held = [⟨some (str "x")⟩]) ∧
      x.HeldOnce ∧ x.HeldIsAssigned := by
  obtain ⟨x, hx, hrun⟩ := Machine.exists_reachable_of_run machine NoStaleFailure
    (fun x => x.left = [str "u"] ∧ ∃ p ∈ x.live (str "u"), p.held = [⟨some (str "x")⟩])
    [.connect (str "a"), .order (str "a"), .connect (str "b"), .order (str "b"),
      .connect (str "u"), .order (str "u"),
      .issue (str "a") (.newTaskReq 1 (some (str "x"))), .order (str "a"),
      .issue (str "u") (.getTaskReq 1), .order (str "u"),
      .disconnect (str "u"), .order (str "u"), .see (str "a"), .see (str "b"), .order (str "a"),
      .connect (str "u"), .order (str "u"), .order (str "b"),
      .issue (str "u") (.getTaskReq 1), .order (str "u")] (by decide +kernel)
  exact ⟨x, hx, hrun, task_held_once x hx⟩

end ReplicatedScheduler
