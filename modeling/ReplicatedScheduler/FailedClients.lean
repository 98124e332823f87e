import ReplicatedScheduler.JoinGroup
import ReplicatedScheduler.StateTransfer

/-!
# The tasks of failed clients

What the messages of the agreed order do to the tasks of a client, on the ledger.

**Messages.** A failure gives back the tasks of one client; every other message acts on the ledger
as it does without failures (`Agreed.ledger_apply`). So one message has one effect on two
schedulers with one ledger, unless it is a failure and their maps iterate over the client's tasks
in different orders (`Agreed.ledger_apply_congr`).

**Settled schedulers.** A scheduler is settled at a position of the order if every client that
failed before it, without a request since, has no task. Handling a message keeps a scheduler
settled (`Settled.apply`), and so does dropping one, unless it is the failure of a client that has
tasks (`Settled.drop`).
-/

namespace ReplicatedScheduler

open JavaLib Lib Lts

/-! ## The tasks of a client -/

/-- The tasks that `processing_tasks` assigns to a client, in iteration order. -/
def SchedulerImp.tasksOf (s : SchedulerImp) (client : Option SpreadGroup) : List Task :=
  (s.processingTasks.entries.filter fun e => some e.2 = client).map Prod.fst

namespace SchedulerImp

theorem mem_tasksOf {s : SchedulerImp} {client : Option SpreadGroup} {t : Task} :
    t ∈ s.tasksOf client ↔ s.ledger.holder t ≠ none ∧ s.ledger.holder t = client := mem_shifted

theorem tasksOf_eq_nil {s : SchedulerImp} {client : Option SpreadGroup} :
    s.tasksOf client = [] ↔ ∀ t, s.ledger.holder t ≠ none → s.ledger.holder t ≠ client := by
  simp only [List.eq_nil_iff_forall_not_mem, mem_tasksOf, not_and]

theorem nodup_tasksOf (s : SchedulerImp) (client : Option SpreadGroup) :
    (s.tasksOf client).Nodup :=
  s.processingTasks.nodup_keys.sublist (List.filter_sublist.map _)

/-- The ledger tells the tasks of a client, up to their order. -/
theorem tasksOf_perm {s s' : SchedulerImp} (h : s.ledger = s'.ledger)
    (client : Option SpreadGroup) : (s.tasksOf client).Perm (s'.tasksOf client) := by
  refine (List.perm_ext_iff_of_nodup (s.nodup_tasksOf client) (s'.nodup_tasksOf client)).mpr ?_
  intro t
  rw [mem_tasksOf, mem_tasksOf, h]

theorem tasksOf_eq_nil_congr {s s' : SchedulerImp} (h : s.ledger = s'.ledger)
    {client : Option SpreadGroup} (hs : s.tasksOf client = []) : s'.tasksOf client = [] :=
  List.Perm.eq_nil (hs ▸ (tasksOf_perm h client).symm)

end SchedulerImp

/-! ## What a message does -/

/-- The client whose failure a message of the order reports, if any. -/
def Agreed.failure : Agreed → Option (Option SpreadGroup)
  | .server _ (.clientFailure client) => some client
  | _ => none

/-- The client whose failure is at a position. -/
def failureAt (log : List Agreed) (p : ℕ) : Option (Option SpreadGroup) :=
  log[p]?.bind Agreed.failure

namespace Agreed

/-- A message is a failure, or acts on the ledger as it does without failures. -/
theorem ledger_apply (a : Agreed) (s : SchedulerImp) :
    (∃ client, a.failure = some client ∧
        (a.apply s).ledger = s.ledger.giveBackAll (s.tasksOf client)) ∨
      (a.failure = none ∧ (a.apply s).ledger = a.effect s.ledger) := by
  cases a with
  | view info => exact Or.inr ⟨rfl, rfl⟩
  | server sender msg =>
    cases msg with
    | req r => exact Or.inr ⟨rfl, ledger_onReq s sender r⟩
    | clientFailure client => exact Or.inl ⟨client, rfl, s.ledger_shiftAllTasksFromClient client⟩
    | stateReq => exact Or.inr ⟨rfl, rfl⟩

theorem effect_of_request {a : Agreed} (h : a.request = none) (q : WorkQueue Task SpreadGroup) :
    a.effect q = q := by
  rw [effect, h]

theorem request_of_failure {a : Agreed} {client : Option SpreadGroup}
    (h : a.failure = some client) : a.request = none := by
  cases a with
  | view info => cases h
  | server sender msg =>
    cases msg with
    | req r => cases h
    | clientFailure client => rfl
    | stateReq => rfl

/-- The failure of a client without tasks changes nothing. -/
theorem ledger_apply_of_idle {a : Agreed} {s : SchedulerImp}
    (h : ∀ client, a.failure = some client → s.tasksOf client = []) :
    (a.apply s).ledger = a.effect s.ledger := by
  rcases a.ledger_apply s with ⟨client, hfail, hledger⟩ | ⟨-, hledger⟩
  · rw [hledger, h client hfail, effect_of_request (request_of_failure hfail)]
    rfl
  · exact hledger

/-- A message has one effect on a ledger, unless the tasks of a failed client are shifted in
different orders. -/
theorem ledger_apply_congr {a : Agreed} {s s' : SchedulerImp} (hl : s.ledger = s'.ledger)
    (horder : ∀ client, a.failure = some client →
      (s.tasksOf client).Perm (s'.tasksOf client) → s.tasksOf client = s'.tasksOf client) :
    (a.apply s).ledger = (a.apply s').ledger := by
  rcases a.ledger_apply s with ⟨client, hfail, h⟩ | ⟨hfail, h⟩
  · rcases a.ledger_apply s' with ⟨client', hfail', h'⟩ | ⟨hfail', -⟩
    · obtain rfl : client = client' := Option.some.inj (hfail.symm.trans hfail')
      rw [h, h', hl, horder client hfail (SchedulerImp.tasksOf_perm hl client)]
    · rw [hfail] at hfail'
      cases hfail'
  · rcases a.ledger_apply s' with ⟨client', hfail', -⟩ | ⟨-, h'⟩
    · rw [hfail] at hfail'
      cases hfail'
    · rw [h, h', hl]

/-- A client without tasks gets none, except by a request. -/
theorem tasksOf_apply {a : Agreed} (ha : a.request = none) {s : SchedulerImp}
    {client : Option SpreadGroup} (h : s.tasksOf client = []) :
    (a.apply s).tasksOf client = [] := by
  rw [SchedulerImp.tasksOf_eq_nil] at h ⊢
  rcases a.ledger_apply s with ⟨client', -, hl⟩ | ⟨-, hl⟩
  · intro t ht
    rw [hl, WorkQueue.holder_giveBackAll] at ht ⊢
    split_ifs at ht ⊢
    · exact absurd rfl ht
    · exact h t ht
  · rw [hl, effect_of_request ha]
    exact h

/-- A client whose failure is handled has no task. -/
theorem tasksOf_apply_failure {a : Agreed} {client : Option SpreadGroup}
    (ha : a.failure = some client) (s : SchedulerImp) : (a.apply s).tasksOf client = [] := by
  rw [SchedulerImp.tasksOf_eq_nil]
  rcases a.ledger_apply s with ⟨client', ha', hl⟩ | ⟨ha', -⟩
  · obtain rfl : client = client' := Option.some.inj (ha.symm.trans ha')
    intro t ht heq
    rw [hl, WorkQueue.holder_giveBackAll] at ht heq
    split_ifs at ht heq with hmem
    · exact ht rfl
    · exact hmem (SchedulerImp.mem_tasksOf.mpr ⟨ht, heq⟩)
  · rw [ha] at ha'
    cases ha'

end Agreed

/-- The copy with the requests ordered since, up to position `p`. -/
def StateReply.replayed (rep : StateReply) (log : List Agreed) (p : ℕ) : SchedulerImp :=
  ((segment log rep.position p).filterMap Agreed.request).foldl
    (fun s ri => (onReq s ri.sender ri.msg).scheduler) rep.scheduler

theorem StateReply.ledger_replayed (rep : StateReply) (log : List Agreed) (p : ℕ) :
    (rep.replayed log p).ledger =
      (segment log rep.position p).foldl Agreed.effect rep.scheduler.ledger := by
  rw [← foldl_requests, replayed]
  generalize (segment log rep.position p).filterMap Agreed.request = buffer
  generalize rep.scheduler = s
  induction buffer generalizing s with
  | nil => rfl
  | cons ri buffer ih => rw [List.foldl_cons, ih, ledger_onReq, List.foldl_cons]

theorem StateReply.ledger_replayed_of_le {rep : StateReply} {p : ℕ} (h : p ≤ rep.position)
    (log : List Agreed) : (rep.replayed log p).ledger = rep.scheduler.ledger := by
  rw [ledger_replayed, segment_eq_nil h]
  rfl

theorem StateReply.ledger_replayed_succ {rep : StateReply} {log : List Agreed} {p : ℕ}
    {a : Agreed} (h : rep.position ≤ p) (ha : log[p]? = some a) :
    (rep.replayed log (p + 1)).ledger = a.effect (rep.replayed log p).ledger := by
  rw [ledger_replayed, ledger_replayed, segment_succ h ha, List.foldl_append]
  rfl

theorem StateReply.replayed_append {rep : StateReply} {log : List Agreed} {p : ℕ}
    (h : p ≤ log.length) (more : List Agreed) :
    rep.replayed (log ++ more) p = rep.replayed log p := by
  rw [replayed, replayed, segment_append h]

theorem failureAt_eq_some {log : List Agreed} {p : ℕ} {client : Option SpreadGroup} :
    failureAt log p = some client ↔ ∃ a, log[p]? = some a ∧ a.failure = some client :=
  Option.bind_eq_some_iff

/-- A longer order has the same failures up to the old end. -/
theorem failureAt_append {log : List Agreed} {p : ℕ} (h : p < log.length) (more : List Agreed) :
    failureAt (log ++ more) p = failureAt log p := by
  rw [failureAt, failureAt, List.getElem?_append_left h]

theorem NoRequests.append {log : List Agreed} {a b : ℕ} (hb : b ≤ log.length)
    (more : List Agreed) : NoRequests (log ++ more) a b ↔ NoRequests log a b := by
  rw [NoRequests, NoRequests, segment_append hb]

theorem NoRequests.request {log : List Agreed} {a b p : ℕ} (h : NoRequests log a b) {e : Agreed}
    (ha : a ≤ p) (hb : p < b) (he : log[p]? = some e) : e.request = none :=
  h e (mem_segment.mpr ⟨p, ha, hb, he⟩)

/-! ## Clients that failed and sent nothing since -/

/-- A client whose failure is before position `p`, without a request since, has no task. -/
def Settled (log : List Agreed) (p : ℕ) (s : SchedulerImp) : Prop :=
  ∀ r client, r < p → failureAt log r = some client → NoRequests log r p →
    s.tasksOf client = []

theorem settled_empty (log : List Agreed) (p : ℕ) : Settled log p SchedulerImp.empty :=
  fun _ _ _ _ _ => rfl

theorem Settled.congr {log : List Agreed} {p : ℕ} {s s' : SchedulerImp} (h : Settled log p s)
    (hl : s.ledger = s'.ledger) : Settled log p s' :=
  fun r client hr hfail hnone => SchedulerImp.tasksOf_eq_nil_congr hl (h r client hr hfail hnone)

theorem Settled.append {log : List Agreed} {p : ℕ} {s : SchedulerImp} (h : Settled log p s)
    (hp : p ≤ log.length) (more : List Agreed) : Settled (log ++ more) p s := by
  intro r client hr hfail hnone
  rw [failureAt_append (Nat.lt_of_lt_of_le hr hp)] at hfail
  exact h r client hr hfail ((NoRequests.append hp more).mp hnone)

/-- The next message. -/
theorem Settled.next {log : List Agreed} {p : ℕ} {s s' : SchedulerImp} {a : Agreed}
    (h : Settled log p s) (ha : log[p]? = some a)
    (hkeep : a.request = none → ∀ client, s.tasksOf client = [] → s'.tasksOf client = [])
    (hfail : ∀ client, a.failure = some client → s'.tasksOf client = []) :
    Settled log (p + 1) s' := by
  intro r client hr hclient hnone
  rcases Nat.lt_succ_iff_lt_or_eq.mp hr with hlt | rfl
  · have hrequest := hnone.request (Nat.le_of_lt hlt) (Nat.lt_succ_self p) ha
    refine hkeep hrequest client (h r client hlt hclient ?_)
    exact hnone.mono (Nat.le_refl r) (Nat.le_succ p)
  · obtain ⟨a', ha', hclient⟩ := failureAt_eq_some.mp hclient
    obtain rfl : a = a' := Option.some.inj (ha.symm.trans ha')
    exact hfail client hclient

/-- A server that handles the message. -/
theorem Settled.apply {log : List Agreed} {p : ℕ} {s : SchedulerImp} {a : Agreed}
    (h : Settled log p s) (ha : log[p]? = some a) : Settled log (p + 1) (a.apply s) :=
  h.next ha (fun hrequest _ => Agreed.tasksOf_apply hrequest)
    fun _ hclient => Agreed.tasksOf_apply_failure hclient s

/-- A server that drops the message. -/
theorem Settled.drop {log : List Agreed} {p : ℕ} {s : SchedulerImp} {a : Agreed}
    (h : Settled log p s) (ha : log[p]? = some a)
    (hfail : ∀ client, a.failure = some client → s.tasksOf client = []) :
    Settled log (p + 1) s :=
  h.next ha (fun _ _ => id) hfail

/-- The copy with the requests since, if no client that failed since held a task. -/
theorem Settled.replayed {log : List Agreed} {rep : StateReply}
    (h : Settled log rep.position rep.scheduler) {j n : ℕ}
    (hquiet : NoRequests log j rep.position) (hjn : j ≤ n) (hn : n ≤ log.length)
    (hkept : ∀ p < n, rep.position ≤ p → ∀ client ∈ failureAt log p,
      (rep.replayed log p).tasksOf client = []) : Settled log n (rep.replayed log n) := by
  rcases Nat.le_total n rep.position with hle | hle
  · intro r client hr hclient hnone
    have hidle := h r client (Nat.lt_of_lt_of_le hr hle) hclient
      (hnone.trans (hquiet.mono hjn (Nat.le_refl _)))
    exact SchedulerImp.tasksOf_eq_nil_congr (rep.ledger_replayed_of_le hle log).symm hidle
  · clear hjn
    induction n, hle using Nat.le_induction with
    | base => exact h.congr (rep.ledger_replayed_of_le (Nat.le_refl _) log).symm
    | succ n hle ih =>
      have ha : log[n]? = some log[n] := List.getElem?_eq_getElem hn
      have hledger := StateReply.ledger_replayed_succ hle ha
      have hsame : log[n].request = none → ∀ client, (rep.replayed log n).tasksOf client = [] →
          (rep.replayed log (n + 1)).tasksOf client = [] := by
        intro hrequest client hidle
        rw [Agreed.effect_of_request hrequest] at hledger
        exact SchedulerImp.tasksOf_eq_nil_congr hledger.symm hidle
      refine (ih (Nat.le_of_lt hn) fun p hp => hkept p (Nat.lt_succ_of_lt hp)).next ha hsame ?_
      intro client hclient
      refine hsame (Agreed.request_of_failure hclient) client ?_
      exact hkept n (Nat.lt_succ_self n) hle client (failureAt_eq_some.mpr ⟨_, ha, hclient⟩)

end ReplicatedScheduler
