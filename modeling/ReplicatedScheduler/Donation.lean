import ReplicatedScheduler.FailedClients

/-!
# A server and its donor

**One server** (`Sound`). Between two positions of its record a server applies the message, or
stands still while its main handlers are not in place. The record ends at the scheduler that the
server has, and every state of it is settled.

**A server and its donor** (`Transferred`). From the position of the copy on the two have one
ledger (`Transferred.ledger_eq`): first the donor follows the requests that the joiner replays,
then the joiner stands still, then both apply the same messages. Before that position no request
is ordered, and a client that failed since the join has no task at either.

A server that has its state goes on (`Continues`). So a fact about the two stays true if it holds
at the positions that are new.
-/

namespace ReplicatedScheduler

open JavaLib Lib Lts

/-! ## The record of one server -/

/-- Between two positions a server applies the message if its main handlers are in place, and
otherwise stands still. -/
def Moves (log : List Agreed) (since : Option ℕ) (p : ℕ) (s s' : SchedulerImp) : Prop :=
  ∃ a, log[p]? = some a ∧
    ((∃ n, since = some n ∧ n ≤ p) ∧ s' = a.apply s ∨ (∀ n, since = some n → p < n) ∧ s' = s)

/-- What holds of one server of a run. -/
structure Sound (log : List Agreed) (m : Peer) : Prop where
  joined : m.joined ≤ m.next
  next : m.next ≤ log.length
  idle : m.started = false → m.record = Record.empty
  waiting : m.started = false → m.handlers.stateSender = none →
    m.handlers.buffer = (segment log m.joined m.next).filterMap Agreed.request
  fresh : m.installed = none → m.handlers.serving = false →
    m.started = true ∨ m.handlers.stateSender = none → m.handlers.scheduler = SchedulerImp.empty
  serving : m.handlers.serving = m.since.isSome
  since : ∀ n, m.since = some n → n ≤ m.next
  installed : m.installed ≠ none → m.started = true
  stop : m.started = true → m.record.stop = m.next + 1
  current : m.started = true → m.record.get? m.next = some m.handlers.scheduler
  linked : m.record.Linked (Moves log m.since)
  settled : ∀ p s, m.record.get? p = some s → Settled log p s

namespace Sound

variable {log : List Agreed} {m : Peer}

theorem started_of_get? (h : Sound log m) {p : ℕ} {s : SchedulerImp}
    (hs : m.record.get? p = some s) : m.started = true := by
  by_contra hnot
  rw [h.idle (Bool.not_eq_true _ ▸ hnot), Record.get?_empty] at hs
  cases hs

theorem le_next (h : Sound log m) {p : ℕ} {s : SchedulerImp} (hs : m.record.get? p = some s) :
    p ≤ m.next := by
  have hlt := (Record.lt_of_get? hs).2
  rw [h.stop (h.started_of_get? hs)] at hlt
  exact Nat.le_of_lt_succ hlt

theorem lt_next (h : Sound log m) {p : ℕ} {s : SchedulerImp}
    (hs : m.record.get? (p + 1) = some s) : p < m.next := h.le_next hs

theorem started_of_since (h : Sound log m) {n : ℕ} (hn : m.since = some n) :
    m.started = true := by
  have hserving := h.serving
  rw [hn, Option.isSome_some] at hserving
  rw [Peer.started, hserving, Bool.or_true]

/-- What there is to show of a server that has its state. -/
theorem of_started (hs : m.started = true) (joined : m.joined ≤ m.next) (next : m.next ≤ log.length)
    (fresh : m.installed = none → m.handlers.serving = false →
      m.handlers.scheduler = SchedulerImp.empty)
    (serving : m.handlers.serving = m.since.isSome) (since : ∀ n, m.since = some n → n ≤ m.next)
    (stop : m.record.stop = m.next + 1)
    (current : m.record.get? m.next = some m.handlers.scheduler)
    (linked : m.record.Linked (Moves log m.since))
    (settled : ∀ p s, m.record.get? p = some s → Settled log p s) : Sound log m where
  joined := joined
  next := next
  idle := fun hnot => by
    rw [hs] at hnot
    cases hnot
  waiting := fun hnot => by
    rw [hs] at hnot
    cases hnot
  fresh := fun hinstalled hserv _ => fresh hinstalled hserv
  serving := serving
  since := since
  installed := fun _ => hs
  stop := fun _ => stop
  current := fun _ => current
  linked := linked
  settled := settled

end Sound

/-- A server that has its state goes on: its record grows, and the rest that was recorded stays. -/
structure Continues (m m' : Peer) : Prop where
  joined : m'.joined = m.joined
  installed : m'.installed = m.installed
  since : ∀ n, m.since = some n → m'.since = some n
  first : m'.record.first = m.record.first
  record : ∀ p < m.record.stop, m'.record.get? p = m.record.get? p

theorem Continues.get? {m m' : Peer} (h : Continues m m') {p : ℕ} {s : SchedulerImp}
    (hs : m.record.get? p = some s) : m'.record.get? p = some s := by
  rw [h.record p (Record.lt_of_get? hs).2, hs]

/-! ## A server and its donor -/

/-- The donor had the state that a `StateRep` carries. -/
structure Donated (rep : StateReply) (d : Peer) : Prop where
  since : ∃ n, d.since = some n ∧ n ≤ rep.position
  source : ∃ s, d.record.get? rep.position = some s ∧ s.ledger = rep.scheduler.ledger

/-- Server `m` has installed the `StateRep` of server `d`. -/
structure Transferred (log : List Agreed) (rep : StateReply) (m d : Peer) : Prop
    extends Donated rep d where
  joined : m.joined ≤ m.record.first
  quiet : NoRequests log m.joined rep.position
  start : ∃ s, m.record.get? m.record.first = some s ∧
    s.ledger = (rep.replayed log m.record.first).ledger
  kept : ∀ p < m.record.first, rep.position ≤ p → ∀ client ∈ failureAt log p,
    (rep.replayed log p).tasksOf client = []
  dropped : ∀ p a s, p < m.next → (∀ n, m.since = some n → p < n) → log[p]? = some a →
    m.record.get? p = some s → a.request = none ∧
      ∀ client, a.failure = some client → s.tasksOf client = []
  order : ∀ p client s s', rep.position ≤ p → p < m.next → p < d.next →
    failureAt log p = some client → m.record.get? p = some s → d.record.get? p = some s' →
      (s.tasksOf client).Perm (s'.tasksOf client) → s.tasksOf client = s'.tasksOf client

namespace Transferred

variable {log : List Agreed} {rep : StateReply} {m d : Peer}

/-- A donor applies every message from the position of its copy on. -/
theorem donor_moves (h : Transferred log rep m d) (hd : Sound log d) {p : ℕ} {s s' : SchedulerImp}
    (hp : rep.position ≤ p) (hs : d.record.get? p = some s)
    (hs' : d.record.get? (p + 1) = some s') : ∃ a, log[p]? = some a ∧ s' = a.apply s := by
  obtain ⟨n, hn, hle⟩ := h.since
  obtain ⟨a, ha, ⟨-, hmove⟩ | ⟨hlt, -⟩⟩ := hd.linked p s s' hs hs'
  · exact ⟨a, ha, hmove⟩
  · have := hlt n hn
    omega

/-- While the joiner replays, the donor has the state that the replay gives. -/
theorem donor_replayed (h : Transferred log rep m d) (hd : Sound log d) {p : ℕ}
    (hp : rep.position ≤ p) (hfirst : p ≤ m.record.first) {s : SchedulerImp}
    (hs : d.record.get? p = some s) : s.ledger = (rep.replayed log p).ledger := by
  obtain ⟨s₀, hs₀, hledger⟩ := h.source
  refine hd.linked.forward (P := fun p s => s.ledger = (rep.replayed log p).ledger)
    (Record.lt_of_get? hs₀).1 ?_ ?_ hp hfirst hs
  · intro s hs
    obtain rfl : s₀ = s := Option.some.inj (hs₀.symm.trans hs)
    rw [hledger, rep.ledger_replayed_of_le (Nat.le_refl _)]
  · intro p s s' hle hlt hs hs' hmove ih
    obtain ⟨a, ha, rfl⟩ := h.donor_moves hd hle hs hs'
    rw [StateReply.ledger_replayed_succ hle ha, ← ih]
    refine Agreed.ledger_apply_of_idle fun client hclient => ?_
    refine SchedulerImp.tasksOf_eq_nil_congr ih.symm (h.kept p hlt hle client ?_)
    exact failureAt_eq_some.mpr ⟨a, ha, hclient⟩

/-- The joiner keeps the copy up to the position of the copy. -/
theorem joiner_copy (h : Transferred log rep m d) (hm : Sound log m) (hd : Sound log d) {p : ℕ}
    (hfirst : m.record.first ≤ p) (hp : p ≤ rep.position) {s : SchedulerImp}
    (hs : m.record.get? p = some s) : s.ledger = rep.scheduler.ledger := by
  obtain ⟨s₀, hs₀, hledger⟩ := h.start
  obtain ⟨sd, hsd, hsource⟩ := h.source
  have hsettled := (hd.settled _ _ hsd).congr hsource
  refine hm.linked.forward (P := fun _ s => s.ledger = rep.scheduler.ledger)
    (Nat.le_refl _) ?_ ?_ hfirst hp hs
  · intro s hs
    obtain rfl : s₀ = s := Option.some.inj (hs₀.symm.trans hs)
    rw [hledger, rep.ledger_replayed_of_le (Nat.le_trans hfirst hp)]
  · intro p s s' hle hlt hs hs' hmove ih
    obtain ⟨a, ha, ⟨-, rfl⟩ | ⟨-, rfl⟩⟩ := hmove
    · have hrequest := h.quiet.request (Nat.le_trans h.joined hle) hlt ha
      rw [Agreed.ledger_apply_of_idle, Agreed.effect_of_request hrequest, ih]
      intro client hclient
      refine SchedulerImp.tasksOf_eq_nil_congr ih.symm (hsettled p client hlt ?_ ?_)
      · exact failureAt_eq_some.mpr ⟨a, ha, hclient⟩
      · exact h.quiet.mono (Nat.le_trans h.joined hle) (Nat.le_refl _)
    · exact ih

/-- Joiner and donor have one ledger from the position of the copy on. -/
theorem ledger_eq (h : Transferred log rep m d) (hm : Sound log m) (hd : Sound log d) {p : ℕ}
    (hp : rep.position ≤ p) {s s' : SchedulerImp} (hs : m.record.get? p = some s)
    (hs' : d.record.get? p = some s') : s.ledger = s'.ledger := by
  obtain ⟨sd, hsd, hsource⟩ := h.source
  have hfirst := (Record.lt_of_get? hs).1
  refine hm.linked.forward (P := fun p s => ∀ s', d.record.get? p = some s' →
    s.ledger = s'.ledger) (Nat.le_max_left m.record.first rep.position) ?_ ?_
    (Nat.max_le.mpr ⟨hfirst, hp⟩) (Nat.le_refl p) hs s' hs'
  · intro s hs s' hs'
    rcases Nat.le_total m.record.first rep.position with hle | hle
    · rw [Nat.max_eq_right hle] at hs hs'
      obtain rfl : sd = s' := Option.some.inj (hsd.symm.trans hs')
      rw [h.joiner_copy hm hd hle (Nat.le_refl _) hs, hsource]
    · rw [Nat.max_eq_left hle] at hs hs'
      obtain ⟨s₀, hs₀, hledger⟩ := h.start
      obtain rfl : s₀ = s := Option.some.inj (hs₀.symm.trans hs)
      rw [hledger, h.donor_replayed hd hle (Nat.le_refl _) hs']
  · intro p s s₁ hle _ hs hs₁ hmove ih s₁' hs₁'
    have hpos : rep.position ≤ p := Nat.le_trans (Nat.le_max_right ..) hle
    obtain ⟨s', hs'⟩ := Record.exists_get? (Nat.le_trans (Record.lt_of_get? hsd).1 hpos)
      (Nat.lt_of_succ_lt (Record.lt_of_get? hs₁').2)
    obtain ⟨a, ha, rfl⟩ := h.donor_moves hd hpos hs' hs₁'
    have hm_next := hm.lt_next hs₁
    obtain ⟨a', ha', ⟨-, rfl⟩ | ⟨hlt, rfl⟩⟩ := hmove
    · obtain rfl : a = a' := Option.some.inj (ha.symm.trans ha')
      refine Agreed.ledger_apply_congr (ih s' hs') fun client hclient => ?_
      exact h.order p client s s' hpos hm_next (hd.lt_next hs₁')
        (failureAt_eq_some.mpr ⟨a, ha, hclient⟩) hs hs'
    · -- the joiner drops the message, which changes nothing at the donor
      obtain ⟨hrequest, hidle⟩ := h.dropped p a s₁ hm_next hlt ha hs
      rw [Agreed.ledger_apply_of_idle, Agreed.effect_of_request hrequest]
      · exact ih s' hs'
      · intro client hclient
        exact SchedulerImp.tasksOf_eq_nil_congr (ih s' hs') (hidle client hclient)

/-- A client that failed while the server joined has the same tasks at the server and its donor. -/
theorem agrees (h : Transferred log rep m d) (hm : Sound log m) (hd : Sound log d) {n r : ℕ}
    {client : SpreadGroup} (hjoined : m.joined ≤ r) (hr : r < n)
    (hfail : failureAt log r = some (some client)) {p : ℕ} (hp : n ≤ p) {s s' : SchedulerImp}
    (hs : m.record.get? p = some s) (hs' : d.record.get? p = some s') (t : Task) :
    s.processingTasks.get? t = some client ↔ s'.processingTasks.get? t = some client := by
  rcases Nat.le_total rep.position p with hle | hle
  · have hledger := h.ledger_eq hm hd hle hs hs'
    have hholder : s.processingTasks.get? t = s'.processingTasks.get? t :=
      congrArg (fun q => q.holder t) hledger
    rw [hholder]
  · -- the client failed and sent nothing since
    have hlt := Nat.lt_of_lt_of_le hr hp
    have hquiet := h.quiet.mono hjoined hle
    have hnot : ∀ {s : SchedulerImp}, Settled log p s → s.processingTasks.get? t ≠ some client := by
      intro s hsettled heq
      have hidle := SchedulerImp.tasksOf_eq_nil.mp (hsettled r _ hlt hfail hquiet) t
      rw [SchedulerImp.ledger_holder, heq] at hidle
      exact hidle (Option.some_ne_none _) rfl
    exact ⟨fun heq => absurd heq (hnot (hm.settled p s hs)),
      fun heq => absurd heq (hnot (hd.settled p s' hs'))⟩

end Transferred

/-! ## The order grows -/

theorem Moves.append {log : List Agreed} {since : Option ℕ} {p : ℕ} {s s' : SchedulerImp}
    (h : Moves log since p s s') (more : List Agreed) : Moves (log ++ more) since p s s' := by
  obtain ⟨a, ha, hmove⟩ := h
  exact ⟨a, getElem?_of_append ha more, hmove⟩

theorem Sound.append {log : List Agreed} {m : Peer} (h : Sound log m) (more : List Agreed) :
    Sound (log ++ more) m :=
  { h with
    next := by
      rw [List.length_append]
      exact Nat.le_add_right_of_le h.next
    waiting := fun hstarted hnone => by
      rw [segment_append h.next]
      exact h.waiting hstarted hnone
    linked := h.linked.mono fun _ _ _ hmove => hmove.append more
    settled := fun p s hs => (h.settled p s hs).append (Nat.le_trans (h.le_next hs) h.next) more }

theorem Transferred.append {log : List Agreed} {rep : StateReply} {m d : Peer}
    (h : Transferred log rep m d) (hm : Sound log m) (hd : Sound log d) (more : List Agreed) :
    Transferred (log ++ more) rep m d := by
  obtain ⟨s₀, hs₀, hledger⟩ := h.start
  obtain ⟨sd, hsd, -⟩ := h.source
  have hfirst := Nat.le_trans (hm.le_next hs₀) hm.next
  refine {
    h with
    quiet := (NoRequests.append (Nat.le_trans (hd.le_next hsd) hd.next) more).mpr h.quiet
    start := ⟨s₀, hs₀, by rw [StateReply.replayed_append hfirst, hledger]⟩
    kept := ?kept
    dropped := ?dropped
    order := ?order }
  case kept =>
    intro p hp hle client hclient
    have hlen := Nat.lt_of_lt_of_le hp hfirst
    rw [failureAt_append hlen] at hclient
    rw [StateReply.replayed_append (Nat.le_of_lt hlen)]
    exact h.kept p hp hle client hclient
  case dropped =>
    intro p a s hp hsince ha hs
    rw [List.getElem?_append_left (Nat.lt_of_lt_of_le hp hm.next)] at ha
    exact h.dropped p a s hp hsince ha hs
  case order =>
    intro p client s s' hle hp hp' hclient hs hs'
    rw [failureAt_append (Nat.lt_of_lt_of_le hp hm.next)] at hclient
    exact h.order p client s s' hle hp hp' hclient hs hs'

/-! ## A server goes on -/

theorem Donated.continues {rep : StateReply} {d d' : Peer} (h : Donated rep d)
    (hc : Continues d d') : Donated rep d' where
  since := by
    obtain ⟨n, hn, hle⟩ := h.since
    exact ⟨n, hc.since n hn, hle⟩
  source := by
    obtain ⟨s, hs, hledger⟩ := h.source
    exact ⟨s, hc.get? hs, hledger⟩

/-- The donor goes on. At a failure it shifts the client's tasks in the order of the joiner. -/
theorem Transferred.donor {log : List Agreed} {rep : StateReply} {m d d' : Peer}
    (h : Transferred log rep m d) (hd : Sound log d) (hc : Continues d d')
    (horder : ∀ p client s s', d.next ≤ p → p < d'.next → rep.position ≤ p → p < m.next →
      failureAt log p = some client → m.record.get? p = some s → d'.record.get? p = some s' →
        (s.tasksOf client).Perm (s'.tasksOf client) → s.tasksOf client = s'.tasksOf client) :
    Transferred log rep m d' where
  toDonated := h.toDonated.continues hc
  joined := h.joined
  quiet := h.quiet
  start := h.start
  kept := h.kept
  dropped := h.dropped
  order := by
    intro p client s s' hle hp hp' hclient hs hs'
    rcases Nat.lt_or_ge p d.next with hlt | hge
    · have hstop : p < d.record.stop := by
        obtain ⟨n, hn, -⟩ := h.since
        rw [hd.stop (hd.started_of_since hn)]
        exact Nat.lt_succ_of_lt hlt
      rw [hc.record p hstop] at hs'
      exact h.order p client s s' hle hp hlt hclient hs hs'
    · exact horder p client s s' hge hp' hle hp hclient hs hs'

/-- The joiner goes on. Before its main handlers are in place it drops no request and no failure
of a client with tasks; at a failure it shifts the client's tasks in the order of the donor. -/
theorem Transferred.joiner {log : List Agreed} {rep : StateReply} {m m' d : Peer}
    (h : Transferred log rep m d) (hm : Sound log m) (hc : Continues m m')
    (hdropped : ∀ p a s, m.next ≤ p → p < m'.next → (∀ n, m'.since = some n → p < n) →
      log[p]? = some a → m'.record.get? p = some s → a.request = none ∧
        ∀ client, a.failure = some client → s.tasksOf client = [])
    (horder : ∀ p client s s', m.next ≤ p → p < m'.next → rep.position ≤ p → p < d.next →
      failureAt log p = some client → m'.record.get? p = some s → d.record.get? p = some s' →
        (s.tasksOf client).Perm (s'.tasksOf client) → s.tasksOf client = s'.tasksOf client) :
    Transferred log rep m' d := by
  obtain ⟨s₀, hs₀, hledger⟩ := h.start
  have hold : ∀ p s, p < m.next → m'.record.get? p = some s → m.record.get? p = some s := by
    intro p s hp hs
    rwa [hc.record p (by rw [hm.stop (hm.started_of_get? hs₀)]; exact Nat.lt_succ_of_lt hp)] at hs
  refine ⟨h.toDonated, ?joined, ?quiet, ?start, ?kept, ?dropped, ?order⟩
  case joined =>
    rw [hc.joined, hc.first]
    exact h.joined
  case quiet =>
    rw [hc.joined]
    exact h.quiet
  case start =>
    rw [hc.first]
    exact ⟨s₀, hc.get? hs₀, hledger⟩
  case kept =>
    rw [hc.first]
    exact h.kept
  case dropped =>
    intro p a s hp hsince ha hs
    rcases Nat.lt_or_ge p m.next with hlt | hge
    · exact h.dropped p a s hlt (fun n hn => hsince n (hc.since n hn)) ha (hold p s hlt hs)
    · exact hdropped p a s hge hp hsince ha hs
  case order =>
    intro p client s s' hle hp hp' hclient hs hs'
    rcases Nat.lt_or_ge p m.next with hlt | hge
    · exact h.order p client s s' hle hlt hp' hclient (hold p s hlt hs) hs'
    · exact horder p client s s' hge hp hle hp' hclient hs hs'

theorem continues_deliver {m : Peer} (hstarted : m.started = true) (a : Agreed) :
    Continues m (m.deliver a) where
  joined := rfl
  installed := rfl
  since := fun _ hn => hn
  first := by rw [(Peer.started_deliver hstarted a).2, Record.first_push]
  record := fun p hp => by
    rw [(Peer.started_deliver hstarted a).2, Record.get?_push, if_neg (Nat.ne_of_lt hp)]

theorem continues_register (m : Peer) : Continues m m.register where
  joined := rfl
  installed := rfl
  since := fun n hn => by
    show m.since.or (some m.next) = some n
    rw [hn]
    rfl
  first := rfl
  record := fun _ _ => rfl

theorem continues_crash (m : Peer) : Continues m { m with alive := false } :=
  ⟨rfl, rfl, fun _ hn => hn, rfl, fun _ _ => rfl⟩

/-! ## One server takes a step -/

/-- A server that waits starts alone, or buffers requests and drops the rest. -/
theorem Peer.deliver_waiting {m : Peer} (h : m.started = false) (a : Agreed) :
    (m.handlers.stateSender = none ∧ a.request = none ∧ ∃ joined, m.deliver a = { m with
        handlers := { m.handlers with stateSender := joined }
        next := m.next + 1
        registering := true
        record := Record.start (m.next + 1) m.handlers.scheduler }) ∨
      m.deliver a = { m with
        handlers := { m.handlers with buffer := m.handlers.buffer ++ a.request.toList }
        next := m.next + 1 } := by
  obtain ⟨hreg, hserv⟩ := (Bool.or_eq_false_iff).mp h
  cases a with
  | view info =>
    rcases m.handlers.onMembershipInfo_cases info with ⟨-, hnone, hr⟩ | ⟨-, hs, hregisters, -⟩
    · refine Or.inl ⟨hnone, rfl, info.getJoined, ?_⟩
      simp [deliver, handle, Agreed.delivery, ServerHandlers.handle, hr, h]
    · refine Or.inr ?_
      simp [deliver, handle, Agreed.delivery, ServerHandlers.handle, hs, hregisters, h,
        Agreed.request]
  | server sender msg =>
    have hregisters :=
      (m.handlers.onServerMsg_flags SchedulerImp.shiftAllTasksFromClient sender msg).1
    rcases m.handlers.onServerMsg_cases SchedulerImp.shiftAllTasksFromClient sender msg with
      ⟨hserv', -⟩ | ⟨-, ⟨r, rfl, hs⟩, -⟩ | ⟨-, hnot, hs, -⟩
    · rw [hserv] at hserv'
      cases hserv'
    · refine Or.inr ?_
      simp [deliver, handle, Agreed.delivery, ServerHandlers.handle, hs, hregisters, h,
        Agreed.request]
    · have hrequest : (Agreed.server sender msg).request = none := by
        cases msg with
        | req r => exact absurd rfl (hnot r)
        | clientFailure client => rfl
        | stateReq => rfl
      refine Or.inr ?_
      simp [deliver, handle, Agreed.delivery, ServerHandlers.handle, hs, hregisters, h, hrequest]

namespace Sound

variable {log : List Agreed} {m : Peer}

theorem start (g : SpreadGroup) {p : ℕ} (hp : p ≤ log.length) : Sound log (Peer.start g p) where
  joined := Nat.le_refl p
  next := hp
  idle := fun _ => rfl
  waiting := fun _ _ => by
    show [] = (segment log p p).filterMap Agreed.request
    rw [segment_eq_nil (Nat.le_refl p)]
    rfl
  fresh := fun _ _ _ => rfl
  serving := rfl
  since := fun _ hn => by cases hn
  installed := fun hne => absurd rfl hne
  stop := fun hs => by cases hs
  current := fun hs => by cases hs
  linked := Record.linked_empty
  settled := fun p s hs => by
    rw [show (Peer.start g _).record.get? p = none from Record.get?_empty p] at hs
    cases hs

theorem crash (h : Sound log m) : Sound log { m with alive := false } := { h with }

/-- A server that has its state applies the next message or stands still. -/
theorem moves_deliver (h : Sound log m) (hs : m.started = true) {a : Agreed}
    (ha : log[m.next]? = some a)
    (hdropped : m.installed ≠ none → m.handlers.serving = false →
      ∀ client, a.failure = some client → m.handlers.scheduler.tasksOf client = []) :
    Moves log m.since m.next m.handlers.scheduler (m.deliver a).handlers.scheduler ∧
      Settled log (m.next + 1) (m.deliver a).handlers.scheduler := by
  have hsettled := h.settled _ _ (h.current hs)
  rw [m.scheduler_deliver a]
  cases hserv : m.handlers.serving with
  | true =>
    rw [if_pos rfl]
    obtain ⟨n, hn⟩ := Option.isSome_iff_exists.mp (h.serving ▸ hserv)
    exact ⟨⟨a, ha, Or.inl ⟨⟨n, hn, h.since n hn⟩, rfl⟩⟩, hsettled.apply ha⟩
  | false =>
    rw [if_neg Bool.false_ne_true]
    have hsince : m.since = none := by
      rw [← Option.not_isSome_iff_eq_none, ← h.serving, hserv]
      exact Bool.false_ne_true
    refine ⟨⟨a, ha, Or.inr ⟨fun n hn => ?_, rfl⟩⟩, ?_⟩
    · rw [hsince] at hn
      cases hn
    · by_cases hinstalled : m.installed = none
      · rw [h.fresh hinstalled hserv (Or.inl hs)]
        exact settled_empty log _
      · exact hsettled.drop ha (hdropped hinstalled hserv)

theorem deliver_started (h : Sound log m) (hs : m.started = true) {a : Agreed}
    (ha : log[m.next]? = some a)
    (hdropped : m.installed ≠ none → m.handlers.serving = false →
      ∀ client, a.failure = some client → m.handlers.scheduler.tasksOf client = []) :
    Sound log (m.deliver a) := by
  obtain ⟨hstarted, hrecord⟩ := Peer.started_deliver hs a
  obtain ⟨hmoves, hsettled⟩ := h.moves_deliver hs ha hdropped
  have hserving := m.serving_deliver a
  have hlast : m.record.stop = m.next + 1 := h.stop hs
  refine of_started hstarted ?joined ?next ?fresh ?serving ?since ?stop ?current ?linked ?settled
  case joined => exact Nat.le_succ_of_le h.joined
  case next => exact (List.getElem?_eq_some_iff.mp ha).1
  case fresh =>
    intro hinstalled hserv
    rw [hserving] at hserv
    rw [m.scheduler_deliver a, hserv, if_neg Bool.false_ne_true]
    exact h.fresh hinstalled hserv (Or.inl hs)
  case serving =>
    rw [hserving]
    exact h.serving
  case since => exact fun n hn => Nat.le_succ_of_le (h.since n hn)
  case stop =>
    rw [hrecord, Record.stop_push, hlast]
    rfl
  case current =>
    rw [hrecord, Record.get?_push, if_pos]
    rw [hlast]
    rfl
  case linked =>
    rw [hrecord]
    exact h.linked.push hlast.symm (h.current hs) hmoves
  case settled =>
    intro p s hget
    rw [hrecord] at hget
    rcases Record.get?_of_push hget with ⟨hp, rfl⟩ | hget
    · rw [hp, hlast]
      exact hsettled
    · exact h.settled p s hget

/-- A server that waits delivers a message. -/
theorem deliver_waiting (h : Sound log m) (hs : m.started = false) {a : Agreed}
    (ha : log[m.next]? = some a) : Sound log (m.deliver a) := by
  have hserv : m.handlers.serving = false := (Bool.or_eq_false_iff.mp hs).2
  have hinstalled : m.installed = none := by
    by_contra hne
    rw [h.installed hne] at hs
    cases hs
  have hlen := (List.getElem?_eq_some_iff.mp ha).1
  rcases Peer.deliver_waiting hs a with ⟨hnone, -, j, hd⟩ | hd
  · have hempty := h.fresh hinstalled hserv (Or.inr hnone)
    rw [hd]
    refine {
      h with
      joined := Nat.le_succ_of_le h.joined
      next := hlen
      idle := fun hnot => by cases hnot
      waiting := fun hnot => by cases hnot
      fresh := fun _ _ _ => hempty
      since := fun n hn => Nat.le_succ_of_le (h.since n hn)
      installed := fun _ => rfl
      stop := fun _ => rfl
      current := fun _ => Record.get?_start (m.next + 1) m.handlers.scheduler
      linked := Record.linked_start _ _
      settled := fun p s hget => ?_ }
    obtain ⟨-, rfl⟩ := Record.get?_of_start hget
    rw [hempty]
    exact settled_empty log p
  · rw [hd]
    exact {
      h with
      joined := Nat.le_succ_of_le h.joined
      next := hlen
      waiting := fun _ hnone => by
        show m.handlers.buffer ++ a.request.toList =
          (segment log m.joined (m.next + 1)).filterMap Agreed.request
        rw [segment_succ h.joined ha, List.filterMap_append, h.waiting hs hnone]
        cases hrequest : a.request <;> simp [hrequest]
      since := fun n hn => Nat.le_succ_of_le (h.since n hn)
      stop := fun hs' => by
        rw [show m.started = true from hs'] at hs
        cases hs
      current := fun hs' => by
        rw [show m.started = true from hs'] at hs
        cases hs }

/-- The registration. What the server recorded, it recorded before. -/
theorem register (h : Sound log m) (hreg : m.registering = true) : Sound log m.register := by
  have hs : m.started = true := by rw [Peer.started, hreg, Bool.true_or]
  have hstarted : m.register.started = true := Bool.or_true _
  have hsince : ∀ n, m.register.since = some n →
      m.since = some n ∨ m.since = none ∧ n = m.next := by
    intro n hn
    replace hn : m.since.or (some m.next) = some n := hn
    cases hold : m.since with
    | none =>
      rw [hold] at hn
      exact Or.inr ⟨rfl, (Option.some.inj hn).symm⟩
    | some n' =>
      rw [hold] at hn
      exact Or.inl hn
  refine of_started hstarted h.joined h.next ?fresh ?serving ?since (h.stop hs) (h.current hs)
    ?linked h.settled
  case fresh =>
    intro _ hnot
    cases hnot
  case serving =>
    show true = (m.since.or (some m.next)).isSome
    cases m.since <;> rfl
  case since =>
    intro n hn
    rcases hsince n hn with hold | ⟨-, rfl⟩
    · exact h.since n hold
    · exact Nat.le_refl _
  case linked =>
    intro p s s' hs hs'
    obtain ⟨a, ha, ⟨⟨n, hn, hle⟩, hmove⟩ | ⟨hlt, hmove⟩⟩ := h.linked p s s' hs hs'
    · exact ⟨a, ha, Or.inl ⟨⟨n, (continues_register m).since n hn, hle⟩, hmove⟩⟩
    · refine ⟨a, ha, Or.inr ⟨fun n hn => ?_, hmove⟩⟩
      rcases hsince n hn with hold | ⟨-, rfl⟩
      · exact hlt n hold
      · exact h.lt_next hs'

/-- A server that has no state installs one. -/
theorem install (h : Sound log m) (hs : m.started = false) (hnone : m.handlers.stateSender = none)
    {rep : StateReply} (hjoined : m.joined ≤ rep.position)
    (hquiet : NoRequests log m.joined rep.position)
    (hsettled : Settled log rep.position rep.scheduler)
    (hkept : ∀ p < m.next, rep.position ≤ p → ∀ client ∈ failureAt log p,
      (rep.replayed log p).tasksOf client = [])
    (hesc : (processBuffer rep.scheduler m.handlers.buffer).escaped = none) :
    (processBuffer rep.scheduler m.handlers.buffer).scheduler.ledger =
        (rep.replayed log m.next).ledger ∧
      Sound log { m with
        handlers := { m.handlers with
          stateSender := some rep.sender
          scheduler := (processBuffer rep.scheduler m.handlers.buffer).scheduler }
        registering := true
        installed := some rep
        record := Record.start m.next
          (processBuffer rep.scheduler m.handlers.buffer).scheduler } := by
  have hledger : (processBuffer rep.scheduler m.handlers.buffer).scheduler.ledger =
      (rep.replayed log m.next).ledger := by
    rw [ledger_processBuffer hesc, h.waiting hs hnone, foldl_requests, rep.ledger_replayed]
    rcases Nat.le_total rep.position m.next with hle | hle
    · rw [segment_split hjoined hle, List.foldl_append, foldl_effect_of_noRequests hquiet]
    · rw [segment_eq_nil hle, foldl_effect_of_noRequests (hquiet.mono (Nat.le_refl _) hle)]
      rfl
  refine ⟨hledger, ?_⟩
  refine {
    h with
    idle := fun hnot => by cases hnot
    waiting := fun hnot => by cases hnot
    fresh := fun hnot => by cases hnot
    installed := fun _ => rfl
    stop := fun _ => rfl
    current := fun _ => Record.get?_start m.next _
    linked := Record.linked_start _ _
    settled := fun p s hget => ?_ }
  obtain ⟨rfl, rfl⟩ := Record.get?_of_start hget
  exact (hsettled.replayed hquiet h.joined h.next hkept).congr hledger.symm

/-- A server whose buffer ends in an exception has a state sender and never serves. -/
theorem fail (h : Sound log m) (hs : m.started = false) (sender : SpreadGroup)
    (s : SchedulerImp) : Sound log { m with
      handlers := { m.handlers with stateSender := some sender, scheduler := s } } :=
  { h with
    waiting := fun _ hnone => by cases hnone
    fresh := fun _ _ hor => by
      rcases hor with hstarted | hnone
      · rw [show m.started = true from hstarted] at hs
        cases hs
      · cases hnone
    current := fun hstarted => by
      rw [show m.started = true from hstarted] at hs
      cases hs }

end Sound

end ReplicatedScheduler
