import ReplicatedScheduler.ServerGroup

/-!
# State transfer to a joining server

**Theorem (`transfer_exact`).** In a run that meets `NoneBetween`, a server that has installed a
`StateRep` has, at every position of the agreed order, the waiting list and the mapping that its
donor has there.

A joiner buffers requests from its own membership on, but its donor takes the copy at the
joiner's `StateReq`, later in the order. The requests in between are in the copy and in the
buffer, and `processBuffer` applies them again. `NoneBetween` asks that there are none when the
state is installed; and that a server that serves does not install one.

The proof gives every server that serves a root: the position from which on its scheduler
reflects the requests of the order (`ledgerAt`). A server that starts alone is its own root, and
one that installs a state takes over the root of its donor. On the ledger a request acts alike
whatever the iteration orders of the two maps are (`ledger_onReq`).
-/

namespace ReplicatedScheduler

open JavaLib Lib Lts

/-! ## The requests of a segment -/

/-- The request that a message of the order is, if any. -/
def Agreed.request : Agreed → Option RequestInfo
  | .server sender (.req r) => some ⟨sender, r⟩
  | _ => none

/-- What a message does to the work queue; client failures left out. -/
noncomputable def Agreed.effect (q : WorkQueue Task SpreadGroup) (a : Agreed) :
    WorkQueue Task SpreadGroup :=
  match a.request with
  | some ri => ri.msg.effect ri.sender q
  | none => q

/-- The work queue that reflects the requests from position `r` up to position `p`. -/
noncomputable def ledgerAt (log : List Agreed) (r p : ℕ) : WorkQueue Task SpreadGroup :=
  (segment log r p).foldl Agreed.effect SchedulerImp.empty.ledger

/-- No request is at the positions from `a` up to `b`. -/
def NoRequests (log : List Agreed) (a b : ℕ) : Prop := ∀ e ∈ segment log a b, e.request = none

instance (log : List Agreed) (a b : ℕ) : Decidable (NoRequests log a b) :=
  inferInstanceAs (Decidable (∀ e ∈ segment log a b, e.request = none))

theorem foldl_effect_of_noRequests {es : List Agreed} (h : ∀ e ∈ es, e.request = none)
    (q : WorkQueue Task SpreadGroup) : es.foldl Agreed.effect q = q := by
  induction es with
  | nil => rfl
  | cons e es ih =>
    rw [List.forall_mem_cons] at h
    rw [List.foldl_cons, Agreed.effect, h.1]
    exact ih h.2

theorem NoRequests.mono {log : List Agreed} {a a' b b' : ℕ} (h : NoRequests log a b)
    (ha : a ≤ a') (hb : b' ≤ b) : NoRequests log a' b' := by
  intro e he
  obtain ⟨i, hi, hi', hget⟩ := mem_segment.mp he
  exact h e (mem_segment.mpr ⟨i, by omega, by omega, hget⟩)

theorem NoRequests.trans {log : List Agreed} {a b c : ℕ} (h : NoRequests log a b)
    (h' : NoRequests log b c) : NoRequests log a c := by
  intro e he
  obtain ⟨i, hi, hi', hget⟩ := mem_segment.mp he
  by_cases hib : i < b
  · exact h e (mem_segment.mpr ⟨i, hi, hib, hget⟩)
  · exact h' e (mem_segment.mpr ⟨i, by omega, hi', hget⟩)

/-- Applying the requests after `q` to the queue at `q` gives the queue at `p`. -/
theorem foldl_ledgerAt {log : List Agreed} {r q p : ℕ} (hr : NoRequests log q r) (hqp : q ≤ p) :
    (segment log q p).foldl Agreed.effect (ledgerAt log r q) = ledgerAt log r p := by
  rcases Nat.le_total r q with hrq | hqr
  · rw [ledgerAt, ledgerAt, segment_split hrq hqp, List.foldl_append]
  · have hnil : ledgerAt log r q = SchedulerImp.empty.ledger := by
      rw [ledgerAt, segment_eq_nil hqr]
      rfl
    rw [hnil]
    rcases Nat.le_total r p with hrp | hpr
    · rw [segment_split hqr hrp, List.foldl_append, foldl_effect_of_noRequests hr]
      rfl
    · rw [ledgerAt, segment_eq_nil hpr, foldl_effect_of_noRequests (hr.mono (Nat.le_refl q) hpr)]
      rfl

/-- Positions without requests between them have the same queue. -/
theorem ledgerAt_eq {log : List Agreed} {r p q : ℕ} (h : NoRequests log p q) (hpq : p ≤ q)
    (hr : NoRequests log p r) : ledgerAt log r q = ledgerAt log r p := by
  rw [← foldl_ledgerAt hr hpq, foldl_effect_of_noRequests h]

/-- The requests buffered, as messages of the order. -/
theorem foldl_requests (es : List Agreed) (q : WorkQueue Task SpreadGroup) :
    (es.filterMap Agreed.request).foldl (fun q ri => ri.msg.effect ri.sender q) q =
      es.foldl Agreed.effect q := by
  induction es generalizing q with
  | nil => rfl
  | cons e es ih =>
    rw [List.filterMap_cons, List.foldl_cons, Agreed.effect]
    cases e.request with
    | none => exact ih q
    | some ri => exact ih _

/-- Replaying a buffer to its end applies its requests to the ledger. -/
theorem ledger_processBuffer {s : SchedulerImp} {buffer : List RequestInfo}
    (h : (processBuffer s buffer).escaped = none) : (processBuffer s buffer).scheduler.ledger =
      buffer.foldl (fun q ri => ri.msg.effect ri.sender q) s.ledger := by
  induction buffer generalizing s with
  | nil => rfl
  | cons ri buffer ih =>
    rcases onReq_cases s ri.sender ri.msg with ⟨-, -, hesc⟩ | ⟨-, -, -, hesc⟩
    · simp only [processBuffer, bufferedRequest_eq, hesc] at h ⊢
      rw [ih h, ledger_onReq, List.foldl_cons]
    · simp [processBuffer, bufferedRequest_eq, hesc] at h

namespace ServerGroup

/-! ## Exact transfer -/

/-- Wherever a server and its donor both have a record, they have the same waiting list and the
same mapping. -/
def Exact (x : ServerGroup) : Prop :=
  ∀ g m d m', x.servers g = some m → m.donor = some d → x.servers d = some m' →
    ∀ p s s', (p, s) ∈ m.past → (p, s') ∈ m'.past → s.waitingTasks = s'.waitingTasks ∧
      ∀ t, s.processingTasks.get? t = s'.processingTasks.get? t

/-- Clients send requests only. -/
def RequestsOnly (_ : ServerGroup) : Action → Prop
  | .clientFailure _ _ => False
  | _ => True

instance (x : ServerGroup) (a : Action) : Decidable (x.RequestsOnly a) := by
  unfold RequestsOnly
  split <;> infer_instance

/-- A `StateRep` that is installed finds a server that does not serve, and no request between
its own join and its `StateReq`. -/
def NoneBetween (x : ServerGroup) : Action → Prop
  | .receive i => ∀ rep ∈ x.inFlight[i]?, ∀ m ∈ x.servers rep.dest,
    m.handlers.stateSender = none →
      m.handlers.serving = false ∧ NoRequests x.log m.joined rep.position
  | a => x.RequestsOnly a

instance (x : ServerGroup) (a : Action) : Decidable (x.NoneBetween a) := by
  unfold NoneBetween
  split <;> infer_instance

/-- A scheduler at position `p` that reflects the requests from `r` on. -/
structure Reflects (log : List Agreed) (r p : ℕ) (s : SchedulerImp) : Prop where
  root_le : r ≤ log.length
  le : p ≤ log.length
  quiet : NoRequests log p r
  ledger : s.ledger = ledgerAt log r p

theorem Reflects.append {log : List Agreed} {r p : ℕ} {s : SchedulerImp} (h : Reflects log r p s)
    (more : List Agreed) : Reflects (log ++ more) r p s where
  root_le := by
    rw [List.length_append]
    exact Nat.le_add_right_of_le h.root_le
  le := by
    rw [List.length_append]
    exact Nat.le_add_right_of_le h.le
  quiet := by
    rw [NoRequests, segment_append h.root_le]
    exact h.quiet
  ledger := by
    rw [ledgerAt, segment_append h.le]
    exact h.ledger

/-- The next message, handled by a server that serves. -/
theorem Reflects.next {log : List Agreed} {r p : ℕ} {s s' : SchedulerImp} (h : Reflects log r p s)
    {a : Agreed} (ha : log[p]? = some a) (hs' : s'.ledger = a.effect s.ledger) :
    Reflects log r (p + 1) s' where
  root_le := h.root_le
  le := (List.getElem?_eq_some_iff.mp ha).1
  quiet := h.quiet.mono (Nat.le_succ p) (Nat.le_refl r)
  ledger := by
    have hseg : segment log p (p + 1) = [a] := by
      rw [segment_succ (Nat.le_refl p) ha, segment_eq_nil (Nat.le_refl p)]
      rfl
    rw [← foldl_ledgerAt h.quiet (Nat.le_succ p), hseg, hs', h.ledger]
    rfl

/-- A copy taken at `q`, installed at `p` after a replay of the requests since `j`. -/
theorem Reflects.install {log : List Agreed} {r q p j : ℕ} {s : SchedulerImp}
    (h : Reflects log r q s) (hjq : j ≤ q) (hjp : j ≤ p) (hp : p ≤ log.length)
    (hnone : NoRequests log j q)
    (hesc : (processBuffer s ((segment log j p).filterMap Agreed.request)).escaped = none) :
    Reflects log r p
      (processBuffer s ((segment log j p).filterMap Agreed.request)).scheduler where
  root_le := h.root_le
  le := hp
  quiet := (hnone.trans h.quiet).mono hjp (Nat.le_refl r)
  ledger := by
    rw [ledger_processBuffer hesc, foldl_requests, h.ledger]
    rcases Nat.le_total q p with hqp | hpq
    · rw [segment_split hjq hqp, List.foldl_append, foldl_effect_of_noRequests hnone,
        foldl_ledgerAt h.quiet hqp]
    · rw [foldl_effect_of_noRequests (hnone.mono (Nat.le_refl j) hpq)]
      exact ledgerAt_eq (hnone.mono hjp (Nat.le_refl q)) hpq
        ((hnone.trans h.quiet).mono hjp (Nat.le_refl r))

/-! ## The invariant -/

/-- One server, whose scheduler reflects the requests from `r` on once it serves. -/
structure Rooted (log : List Agreed) (r : ℕ) (m : Member) : Prop where
  joined : m.joined ≤ m.next
  next : m.next ≤ log.length
  idle : m.handlers.serving = false → m.past = [] ∧ m.donor = none
  waiting : m.handlers.serving = false → m.handlers.stateSender = none →
    m.handlers.buffer = (segment log m.joined m.next).filterMap Agreed.request ∧
      m.handlers.scheduler = SchedulerImp.empty
  serving : m.handlers.serving = true → Reflects log r m.next m.handlers.scheduler
  past : ∀ e ∈ m.past, e.1 ≤ log.length ∧ e.2.ledger = ledgerAt log r e.1

/-- Every server that serves has a root, and takes over that of its donor. -/
structure Lineage (root : SpreadGroup → ℕ) (x : ServerGroup) : Prop where
  rooted : ∀ g m, x.servers g = some m → Rooted x.log (root g) m
  donor : ∀ g m d, x.servers g = some m → m.donor = some d → root g = root d ∧
    ∃ m', x.servers d = some m' ∧ m'.handlers.serving = true
  sender : ∀ rep ∈ x.inFlight, Reflects x.log (root rep.sender) rep.position rep.scheduler ∧
    ∃ m, x.servers rep.sender = some m ∧ m.handlers.serving = true
  dest : ∀ rep ∈ x.inFlight, ∃ m, x.servers rep.dest = some m ∧ m.joined ≤ rep.position
  requested : ∀ g ∈ x.requested, ∃ m, x.servers g = some m
  asked : ∀ i g, x.log[i]? = some (.server g .stateReq) → ∃ m, x.servers g = some m ∧ m.joined ≤ i
  requests : ∀ sender client, .server sender (.clientFailure client) ∉ x.log

theorem lineage_start : Lineage (fun _ => 0) start := by
  constructor <;> simp [start]

theorem Rooted.append {log : List Agreed} {r : ℕ} {m : Member} (h : Rooted log r m)
    (more : List Agreed) : Rooted (log ++ more) r m where
  joined := h.joined
  next := by
    rw [List.length_append]
    exact Nat.le_add_right_of_le h.next
  idle := h.idle
  waiting := by
    rw [segment_append h.next]
    exact h.waiting
  serving := fun hs => (h.serving hs).append more
  past := fun e he => by
    obtain ⟨hle, hledger⟩ := h.past e he
    rw [List.length_append, ledgerAt, segment_append hle]
    exact ⟨Nat.le_add_right_of_le hle, hledger⟩

/-- The root of a server that does not serve does not matter. -/
theorem Lineage.setRoot {root : SpreadGroup → ℕ} {x : ServerGroup} (h : Lineage root x)
    {g : SpreadGroup} {m : Member} (hm : x.servers g = some m)
    (hserv : m.handlers.serving = false) (r : ℕ) : Lineage (Function.update root g r) x := by
  have hne : ∀ d m', x.servers d = some m' → m'.handlers.serving = true → d ≠ g := by
    rintro d m' hm' hs rfl
    rw [hm] at hm'
    cases hm'
    rw [hserv] at hs
    cases hs
  obtain ⟨hpast, hdonor⟩ := (h.rooted g m hm).idle hserv
  refine ⟨?rooted, ?donor, ?sender, ?dest, ?requested, ?asked, ?requests⟩
  case rooted =>
    intro d m' hm'
    by_cases hdg : d = g
    · subst hdg
      rw [hm] at hm'
      cases hm'
      rw [Function.update_self]
      exact {
        h.rooted d m hm with
        serving := fun hs => by
          rw [hserv] at hs
          cases hs
        past := by simp [hpast] }
    · rw [Function.update_of_ne hdg]
      exact h.rooted d m' hm'
  case donor =>
    intro d m' d' hm' hd'
    obtain ⟨hroot, m'', hm'', hs⟩ := h.donor d m' d' hm' hd'
    have hdg : d ≠ g := by
      rintro rfl
      rw [hm] at hm'
      cases hm'
      rw [hdonor] at hd'
      cases hd'
    rw [Function.update_of_ne hdg, Function.update_of_ne (hne d' m'' hm'' hs)]
    exact ⟨hroot, m'', hm'', hs⟩
  case sender =>
    intro rep hrep
    obtain ⟨hr, m', hm', hs⟩ := h.sender rep hrep
    rw [Function.update_of_ne (hne _ m' hm' hs)]
    exact ⟨hr, m', hm', hs⟩
  case dest =>
    exact h.dest
  case requested =>
    exact h.requested
  case asked =>
    exact h.asked
  case requests =>
    exact h.requests

/-- One server changes: it keeps its join, goes on serving and may get a donor. -/
theorem Lineage.setServer {root : SpreadGroup → ℕ} {x : ServerGroup} (h : Lineage root x)
    {g : SpreadGroup} {m m' : Member} (hm : x.servers g = some m)
    (hrooted : Rooted x.log (root g) m') (hjoined : m'.joined = m.joined)
    (hserving : m.handlers.serving = true → m'.handlers.serving = true)
    (hdonor : ∀ d, m'.donor = some d → m.donor = some d ∨ root g = root d ∧
      ∃ m'', x.servers d = some m'' ∧ m''.handlers.serving = true) :
    Lineage root { x with servers := Function.update x.servers g (some m') } := by
  have hkeep : ∀ d m₁, x.servers d = some m₁ →
      ∃ m₂, Function.update x.servers g (some m') d = some m₂ ∧ m₂.joined = m₁.joined ∧
        (m₁.handlers.serving = true → m₂.handlers.serving = true) := by
    intro d m₁ hm₁
    by_cases hdg : d = g
    · subst hdg
      rw [hm] at hm₁
      cases hm₁
      exact ⟨m', Function.update_self .., hjoined, hserving⟩
    · exact ⟨m₁, servers_update_of_ne hdg hm₁ m', rfl, id⟩
  have hserves : ∀ d, (∃ m₁, x.servers d = some m₁ ∧ m₁.handlers.serving = true) →
      ∃ m₂, Function.update x.servers g (some m') d = some m₂ ∧ m₂.handlers.serving = true := by
    rintro d ⟨m₁, hm₁, hs⟩
    obtain ⟨m₂, hm₂, -, hs₂⟩ := hkeep d m₁ hm₁
    exact ⟨m₂, hm₂, hs₂ hs⟩
  have hjoins : ∀ d i, (∃ m₁, x.servers d = some m₁ ∧ m₁.joined ≤ i) →
      ∃ m₂, Function.update x.servers g (some m') d = some m₂ ∧ m₂.joined ≤ i := by
    rintro d i ⟨m₁, hm₁, hle⟩
    obtain ⟨m₂, hm₂, hj, -⟩ := hkeep d m₁ hm₁
    exact ⟨m₂, hm₂, by rw [hj]; exact hle⟩
  refine ⟨?rooted, ?donor, ?sender, ?dest, ?requested, ?asked, ?requests⟩
  case rooted =>
    intro d m₁ hm₁
    rcases servers_update hm₁ with ⟨rfl, rfl⟩ | ⟨-, hm₁⟩
    · exact hrooted
    · exact h.rooted d m₁ hm₁
  case donor =>
    intro d m₁ d' hm₁ hd'
    rcases servers_update hm₁ with ⟨rfl, rfl⟩ | ⟨-, hm₁⟩
    · rcases hdonor d' hd' with hold | ⟨hroot, hs⟩
      · obtain ⟨hroot, hs⟩ := h.donor d m d' hm hold
        exact ⟨hroot, hserves d' hs⟩
      · exact ⟨hroot, hserves d' hs⟩
    · obtain ⟨hroot, hs⟩ := h.donor d m₁ d' hm₁ hd'
      exact ⟨hroot, hserves d' hs⟩
  case sender =>
    exact fun rep hrep => ⟨(h.sender rep hrep).1, hserves _ (h.sender rep hrep).2⟩
  case dest =>
    exact fun rep hrep => hjoins _ _ (h.dest rep hrep)
  case requested =>
    intro d hd
    obtain ⟨m₁, hm₁⟩ := h.requested d hd
    obtain ⟨m₂, hm₂, -⟩ := hkeep d m₁ hm₁
    exact ⟨m₂, hm₂⟩
  case asked =>
    exact fun i d hi => hjoins d i (h.asked i d hi)
  case requests =>
    exact h.requests

/-- The order grows by a message that is no client failure; a `StateReq` is from a server. -/
theorem Lineage.append {root : SpreadGroup → ℕ} {x : ServerGroup} (h : Lineage root x) {a : Agreed}
    (hfail : ∀ sender client, a ≠ .server sender (.clientFailure client))
    (hreq : ∀ g, a = .server g .stateReq → ∃ m, x.servers g = some m) :
    Lineage root { x with log := x.log ++ [a] } := by
  refine ⟨?rooted, ?donor, ?sender, ?dest, ?requested, ?asked, ?requests⟩
  case rooted =>
    exact fun g m hm => (h.rooted g m hm).append [a]
  case donor =>
    exact h.donor
  case sender =>
    exact fun rep hrep => ⟨(h.sender rep hrep).1.append [a], (h.sender rep hrep).2⟩
  case dest =>
    exact h.dest
  case requested =>
    exact h.requested
  case asked =>
    intro i g hi
    rw [List.getElem?_append] at hi
    split_ifs at hi with hlt
    · exact h.asked i g hi
    · have ha : a = .server g .stateReq := List.mem_singleton.mp (List.mem_of_getElem? hi) |>.symm
      obtain ⟨m, hm⟩ := hreq g ha
      refine ⟨m, hm, ?_⟩
      have hj := (h.rooted g m hm).joined
      have hn := (h.rooted g m hm).next
      omega
  case requests =>
    intro sender client hmem
    rcases List.mem_append.mp hmem with hmem | hmem
    · exact h.requests sender client hmem
    · exact hfail sender client (List.mem_singleton.mp hmem).symm

/-! ## One step -/

/-- A server that serves after a message reflects the message. -/
theorem Rooted.reflects_deliver {log : List Agreed} {r : ℕ} {m : Member} (h : Rooted log r m)
    {a : Agreed} (ha : log[m.next]? = some a)
    (hfail : ∀ sender client, a ≠ .server sender (.clientFailure client))
    (hstart : m.handlers.serving = false → (m.deliver a).handlers.serving = true → r = m.next) :
    (m.deliver a).handlers.serving = true →
      Reflects log r (m.next + 1) (m.deliver a).handlers.scheduler := by
  intro hs
  cases hserv' : m.handlers.serving with
  | true =>
    refine (h.serving hserv').next ha ?_
    cases a with
    | view info =>
      rcases m.deliver_view info with ⟨-, -, hd, -⟩ | ⟨-, hd, -⟩ <;> rw [hd] <;> rfl
    | server sender msg =>
      rw [(Member.deliver_serving hserv' sender msg).1]
      cases msg with
      | req q => exact ledger_onReq m.handlers.scheduler sender q
      | clientFailure client => exact absurd rfl (hfail sender client)
      | stateReq => rfl
  | false =>
    -- only a view of one member starts a server here
    obtain rfl := hstart hserv' hs
    cases a with
    | view info =>
      rcases m.deliver_view info with ⟨-, hnone, hd, -⟩ | ⟨-, hd, -⟩
      · have hempty := (h.waiting hserv' hnone).2
        refine Reflects.next (s := m.handlers.scheduler) ⟨h.next, h.next, ?_, ?_⟩ ha ?_
        · intro e he
          rw [segment_eq_nil (Nat.le_refl _)] at he
          cases he
        · rw [hempty, ledgerAt, segment_eq_nil (Nat.le_refl _)]
          rfl
        · rw [hd]
          rfl
      · rw [hd, hserv'] at hs
        cases hs
    | server sender msg =>
      rw [(Member.deliver_waiting hserv' sender msg).1] at hs
      rw [show m.handlers.serving = true from hs] at hserv'
      cases hserv'

/-- A server that goes on waiting buffers the message if it is a request. -/
theorem Rooted.waiting_deliver {log : List Agreed} {r : ℕ} {m : Member} (h : Rooted log r m)
    {a : Agreed} (ha : log[m.next]? = some a) (hs : (m.deliver a).handlers.serving = false)
    (hnone : (m.deliver a).handlers.stateSender = none) :
    (m.deliver a).handlers.buffer =
        (segment log m.joined (m.next + 1)).filterMap Agreed.request ∧
      (m.deliver a).handlers.scheduler = SchedulerImp.empty := by
  have hserv' := Member.waiting_of_deliver hs
  have hseg := segment_succ h.joined ha
  cases a with
  | view info =>
    rcases m.deliver_view info with ⟨-, -, hd, -⟩ | ⟨-, hd, -⟩
    · rw [hd] at hs
      cases hs
    · rw [hd] at hnone ⊢
      obtain ⟨hbuffer, hempty⟩ := h.waiting hserv' hnone
      refine ⟨?_, hempty⟩
      rw [hseg, List.filterMap_append, hbuffer]
      simp [Agreed.request]
  | server sender msg =>
    have hd := (Member.deliver_waiting hserv' sender msg).1
    rw [hd] at hnone ⊢
    obtain ⟨hbuffer, hempty⟩ := h.waiting hserv' hnone
    refine ⟨?_, hempty⟩
    rw [hseg, List.filterMap_append, ← hbuffer]
    cases msg <;> simp [Agreed.request]

/-- A server that delivers a message keeps its root, or starts alone at the message. -/
theorem Rooted.deliver {log : List Agreed} {r : ℕ} {m : Member} (h : Rooted log r m) {a : Agreed}
    (ha : log[m.next]? = some a)
    (hfail : ∀ sender client, a ≠ .server sender (.clientFailure client))
    (hstart : m.handlers.serving = false → (m.deliver a).handlers.serving = true → r = m.next) :
    Rooted log r (m.deliver a) := by
  have hreflects := h.reflects_deliver ha hfail hstart
  refine ⟨?joined, ?next, ?idle, ?waiting, ?serving, ?past⟩
  case joined =>
    exact Nat.le_succ_of_le h.joined
  case next =>
    exact (List.getElem?_eq_some_iff.mp ha).1
  case idle =>
    intro hs
    obtain ⟨hpast, hdonor⟩ := h.idle (Member.waiting_of_deliver hs)
    refine ⟨?_, hdonor⟩
    show (if (m.deliver a).handlers.serving then _ else m.past) = []
    rw [hs]
    exact hpast
  case waiting => exact h.waiting_deliver ha
  case serving =>
    exact hreflects
  case past =>
    intro e he
    have he' : e ∈ (if (m.deliver a).handlers.serving then
        m.past ++ [(m.next + 1, (m.deliver a).handlers.scheduler)] else m.past) := he
    split_ifs at he' with hs
    · rcases List.mem_append.mp he' with he' | he'
      · exact h.past e he'
      · obtain rfl := List.mem_singleton.mp he'
        exact ⟨(hreflects hs).le, (hreflects hs).ledger⟩
    · exact h.past e he'

theorem Lineage.join {root : SpreadGroup → ℕ} {x : ServerGroup} (h : Lineage root x)
    {g : SpreadGroup} (hg : x.servers g = none) : Lineage root (x.afterJoin g) := by
  have hlog := h.append (a := .view ⟨true, .join g, x.members ++ [g]⟩) (by simp) (by simp)
  refine ⟨?rooted, ?donor, ?sender, ?dest, ?requested, ?asked, ?requests⟩
  case rooted =>
    intro d m hm
    rcases servers_update hm with ⟨rfl, rfl⟩ | ⟨-, hm⟩
    · refine ⟨Nat.le_refl _, ?_, fun _ => ⟨rfl, rfl⟩, fun _ _ => ⟨?_, rfl⟩, ?_, by simp⟩
      · simp [afterJoin]
      · show [] = (segment _ x.log.length x.log.length).filterMap Agreed.request
        rw [segment_eq_nil (Nat.le_refl _)]
        rfl
      · intro hs
        cases hs
    · exact hlog.rooted d m hm
  case donor =>
    intro d m d' hm hd'
    rcases servers_update hm with ⟨rfl, rfl⟩ | ⟨-, hm⟩
    · cases hd'
    · obtain ⟨hroot, m', hm', hs⟩ := h.donor d m d' hm hd'
      exact ⟨hroot, m', servers_afterJoin hg hm', hs⟩
  case sender =>
    intro rep hrep
    obtain ⟨m, hm, hs⟩ := (hlog.sender rep hrep).2
    exact ⟨(hlog.sender rep hrep).1, m, servers_afterJoin hg hm, hs⟩
  case dest =>
    intro rep hrep
    obtain ⟨m, hm, hj⟩ := h.dest rep hrep
    exact ⟨m, servers_afterJoin hg hm, hj⟩
  case requested =>
    intro d hd
    obtain ⟨m, hm⟩ := h.requested d hd
    exact ⟨m, servers_afterJoin hg hm⟩
  case asked =>
    intro i d hi
    obtain ⟨m, hm, hj⟩ := hlog.asked i d hi
    exact ⟨m, servers_afterJoin hg hm, hj⟩
  case requests =>
    exact hlog.requests

/-- A server that delivers a message, before its own messages are sent. -/
theorem Lineage.setDelivered {root : SpreadGroup → ℕ} {x : ServerGroup} (h : Lineage root x)
    {g : SpreadGroup} {m : Member} {a : Agreed} (hm : x.servers g = some m)
    (ha : x.log[m.next]? = some a)
    (hstart : m.handlers.serving = false → (m.deliver a).handlers.serving = true →
      root g = m.next) :
    Lineage root { x with servers := Function.update x.servers g (some (m.deliver a)) } := by
  refine h.setServer hm ((h.rooted g m hm).deliver ha ?_ hstart) rfl
    (fun hs => Member.serving_deliver hs a) fun d hd => Or.inl hd
  rintro sender client rfl
  exact h.requests sender client (List.mem_of_getElem? ha)

/-- The messages sent are added to those in flight. -/
theorem Lineage.send {root : SpreadGroup → ℕ} {x : ServerGroup} (h : Lineage root x)
    {requested : List SpreadGroup} {reps : List StateReply}
    (hrequested : ∀ g ∈ requested, ∃ m, x.servers g = some m)
    (hreps : ∀ rep ∈ reps, (Reflects x.log (root rep.sender) rep.position rep.scheduler ∧
        ∃ m, x.servers rep.sender = some m ∧ m.handlers.serving = true) ∧
      ∃ m, x.servers rep.dest = some m ∧ m.joined ≤ rep.position) :
    Lineage root { x with
      requested := x.requested ++ requested
      inFlight := x.inFlight ++ reps } where
  rooted := h.rooted
  donor := h.donor
  sender := fun rep hrep => (List.mem_append.mp hrep).elim (h.sender rep) fun hr => (hreps rep hr).1
  dest := fun rep hrep => (List.mem_append.mp hrep).elim (h.dest rep) fun hr => (hreps rep hr).2
  requested := fun g hg => (List.mem_append.mp hg).elim (h.requested g) (hrequested g)
  asked := h.asked
  requests := h.requests

/-- A server that delivers a message; one that starts alone is a new root. -/
theorem Lineage.deliver {root : SpreadGroup → ℕ} {x : ServerGroup} (h : Lineage root x)
    {g : SpreadGroup} {m : Member} {a : Agreed} (hm : x.servers g = some m)
    (ha : x.log[m.next]? = some a) : ∃ root', Lineage root' (x.afterDeliver g m a) := by
  obtain ⟨root', h', hstart⟩ : ∃ root', Lineage root' x ∧ (m.handlers.serving = false →
      (m.deliver a).handlers.serving = true → root' g = m.next) := by
    cases hserv : m.handlers.serving with
    | true => exact ⟨root, h, fun hs => by cases hs⟩
    | false =>
      exact ⟨_, h.setRoot hm hserv m.next, fun _ _ => Function.update_self ..⟩
  refine ⟨root', (h'.setDelivered hm ha hstart).send ?_ ?_⟩
  · intro d hd
    obtain rfl : d = g := by
      obtain ⟨out, -, hout⟩ := List.mem_filterMap.mp hd
      cases out <;> simp_all
    exact ⟨m.deliver a, Function.update_self ..⟩
  · intro rep hrep
    obtain ⟨hserv, rfl, heq⟩ := mem_stateReplies hrep
    obtain ⟨dest, sender, scheduler, position⟩ := rep
    obtain ⟨rfl, rfl, rfl⟩ : sender = g ∧ scheduler = m.handlers.scheduler.copy ∧
        position = m.next := by simpa using heq
    refine ⟨⟨?_, m.deliver _, Function.update_self .., Member.serving_deliver hserv _⟩, ?_⟩
    · have hr := (h'.rooted sender m hm).serving hserv
      exact { hr with ledger := by rw [m.handlers.scheduler.ledger_copy, hr.ledger] }
    · obtain ⟨m', hm', hj⟩ := (h'.setDelivered hm ha hstart).asked _ _ ha
      exact ⟨m', hm', hj⟩

/-- A `StateRep` leaves the messages in flight. -/
theorem Lineage.arrive {root : SpreadGroup → ℕ} {x : ServerGroup} (h : Lineage root x) (i : ℕ) :
    Lineage root { x with inFlight := x.inFlight.eraseIdx i } :=
  { h with
    sender := fun rep hrep => h.sender rep (List.mem_of_mem_eraseIdx hrep)
    dest := fun rep hrep => h.dest rep (List.mem_of_mem_eraseIdx hrep) }

/-- A server that installs a `StateRep` takes over the root of the donor. -/
theorem Lineage.install {root : SpreadGroup → ℕ} {x : ServerGroup} (h : Lineage root x)
    {rep : StateReply} {m : Member} (hrep : rep ∈ x.inFlight) (hm : x.servers rep.dest = some m)
    (hserv : m.handlers.serving = false) (hnone : m.handlers.stateSender = none)
    (hquiet : NoRequests x.log m.joined rep.position)
    (hesc : (processBuffer rep.scheduler m.handlers.buffer).escaped = none)
    (hr : m.receive rep = { m with
      handlers := { m.handlers with
        stateSender := some rep.sender
        scheduler := (processBuffer rep.scheduler m.handlers.buffer).scheduler
        serving := true }
      donor := some rep.sender
      past := [(m.next, (processBuffer rep.scheduler m.handlers.buffer).scheduler)] }) :
    Lineage (Function.update root rep.dest (root rep.sender))
      { x with servers := Function.update x.servers rep.dest (some (m.receive rep)) } := by
  obtain ⟨hbuffer, -⟩ := (h.rooted _ m hm).waiting hserv hnone
  obtain ⟨hreflects, md, hmd, hsd⟩ := h.sender rep hrep
  obtain ⟨m', hm', hj⟩ := h.dest rep hrep
  rw [hm] at hm'
  cases hm'
  have hne : rep.sender ≠ rep.dest := by
    intro heq
    rw [heq, hm] at hmd
    cases hmd
    rw [hserv] at hsd
    cases hsd
  have h' := h.setRoot hm hserv (root rep.sender)
  have hroot_sender : Function.update root rep.dest (root rep.sender) rep.sender =
      root rep.sender := Function.update_of_ne hne ..
  have hroot_dest : Function.update root rep.dest (root rep.sender) rep.dest =
      root rep.sender := Function.update_self ..
  rw [hbuffer] at hesc hr
  have hinstall := hreflects.install hj (h.rooted _ m hm).joined (h.rooted _ m hm).next hquiet hesc
  refine h'.setServer hm ?_ ?_ ?_ ?_
  · rw [hr, hroot_dest]
    exact {
      joined := (h.rooted _ m hm).joined
      next := (h.rooted _ m hm).next
      idle := fun hs => by cases hs
      waiting := fun hs => by cases hs
      serving := fun _ => hinstall
      past := fun e he => by
        obtain rfl := List.mem_singleton.mp he
        exact ⟨hinstall.le, hinstall.ledger⟩ }
  · rw [hr]
  · rw [hr]
    exact fun _ => rfl
  · intro d hd
    rw [hr] at hd
    obtain rfl : rep.sender = d := Option.some.inj hd
    exact Or.inr ⟨by rw [hroot_dest, hroot_sender], md, hmd, hsd⟩

theorem Lineage.receive {root : SpreadGroup → ℕ} {x : ServerGroup} (h : Lineage root x)
    {i : ℕ} {rep : StateReply} {m : Member} (hrep : x.inFlight[i]? = some rep)
    (hm : x.servers rep.dest = some m)
    (hok : m.handlers.stateSender = none →
      m.handlers.serving = false ∧ NoRequests x.log m.joined rep.position) :
    ∃ root', Lineage root' (x.afterReceive i rep m) := by
  rcases m.receive_cases rep with ⟨hnone, hesc, hr⟩ | ⟨hnone, hesc, hr⟩ | ⟨hsome, hr⟩
  · obtain ⟨hserv, hquiet⟩ := hok hnone
    have hmem := List.mem_of_getElem? hrep
    exact ⟨_, (h.install hmem hm hserv hnone hquiet hesc hr).arrive i⟩
  · obtain ⟨hserv, -⟩ := hok hnone
    obtain ⟨hpast, hdonor⟩ := (h.rooted _ m hm).idle hserv
    refine ⟨root, (h.setServer hm ?_ ?_ ?_ ?_).arrive i⟩
    · rw [hr]
      exact {
        joined := (h.rooted _ m hm).joined
        next := (h.rooted _ m hm).next
        idle := fun _ => ⟨hpast, hdonor⟩
        waiting := fun _ hnone' => by cases hnone'
        serving := fun hs => by
          rw [show m.handlers.serving = true from hs] at hserv
          cases hserv
        past := by simp [hpast] }
    · rw [hr]
    · rw [hr]
      exact id
    · intro d hd
      rw [hr] at hd
      exact Or.inl hd
  · have hsame := h.setServer hm (h.rooted _ m hm) rfl id fun d hd => Or.inl hd
    rw [← hr] at hsame
    exact ⟨root, hsame.arrive i⟩

theorem Lineage.crash {root : SpreadGroup → ℕ} {x : ServerGroup} (h : Lineage root x)
    {g : SpreadGroup} {m : Member} (hm : x.servers g = some m) :
    Lineage root (x.afterCrash g m) := by
  have hlog := h.append (a := .view ⟨true, .disconnect g, x.members.erase g⟩) (by simp) (by simp)
  have hrooted : Rooted (x.afterCrash g m).log (root g) { m with alive := false } :=
    { hlog.rooted g m hm with }
  exact { hlog.setServer hm hrooted rfl id fun d hd => Or.inl hd with }

theorem lineage_step {x x' : ServerGroup} {a : Action} (h : ∃ root, Lineage root x)
    (hok : x.NoneBetween a) (hstep : x.step a = some x') : ∃ root, Lineage root x' := by
  obtain ⟨root, h⟩ := h
  cases step_cases hstep with
  | join g hg => exact ⟨root, h.join hg⟩
  | crash g m hm => exact ⟨root, h.crash hm.1⟩
  | request sender r => exact ⟨root, h.append (by simp) (by simp)⟩
  | clientFailure sender client => exact absurd hok id
  | order i g hg =>
    have hlog := h.append (a := .server g .stateReq) (by simp) fun d hd => by
      obtain rfl : g = d := by simpa using hd
      exact h.requested g (List.mem_of_getElem? hg)
    exact ⟨root, { hlog with
      requested := fun d hd => hlog.requested d (List.mem_of_mem_eraseIdx hd) }⟩
  | lose i g hg hdead =>
    exact ⟨root, { h with
      requested := fun d hd => h.requested d (List.mem_of_mem_eraseIdx hd) }⟩
  | deliver g m a hm ha => exact h.deliver hm.1 ha
  | receive i rep m hrep hm => exact h.receive hrep hm.1 (hok rep hrep m hm.1)

theorem lineage_of_reachable {x : ServerGroup} (h : machine.Reachable NoneBetween x) :
    ∃ root, Lineage root x :=
  h.invariant (P := fun x => ∃ root, Lineage root x) ⟨_, lineage_start⟩
    fun _ _ _ hx hok hstep => lineage_step hx hok hstep

end ServerGroup

open ServerGroup

/-- **State transfer is exact, unless a request is ordered between a join and its `StateReq`.** -/
theorem transfer_exact (x : ServerGroup) (h : machine.Reachable NoneBetween x) : x.Exact := by
  obtain ⟨root, hx⟩ := lineage_of_reachable h
  intro g m d m' hm hd hm' p s s' hs hs'
  have hroot := (hx.donor g m d hm hd).1
  have hledger : s.ledger = s'.ledger := by
    rw [((hx.rooted g m hm).past _ hs).2, ((hx.rooted d m' hm').past _ hs').2, hroot]
  exact ⟨congrArg WorkQueue.waiting hledger, fun t => congrArg (fun q => q.holder t) hledger⟩

/-- A server `b` that joins before a `GetTaskReq` and whose `StateReq` comes after it: the request
is in the copy that `a` sends and in the buffer of `b`, and takes two tasks. -/
theorem request_applied_twice : ¬ ∀ x, machine.Reachable RequestsOnly x → x.Exact := by
  intro hall
  obtain ⟨x, hx, m, hm, m', hm', hdonor, e, he, e', he', hpos, hne⟩ :=
    Machine.exists_reachable_of_run machine RequestsOnly
      (fun x => ∃ m ∈ x.servers (str "b"), ∃ m' ∈ x.servers (str "a"), m.donor = some (str "a") ∧
        ∃ e ∈ m.past, ∃ e' ∈ m'.past, e'.1 = e.1 ∧ e.2.waitingTasks ≠ e'.2.waitingTasks)
      [.join (str "a"), .deliver (str "a"),
        .request (str "c") (.newTaskReq 1 (some (str "u"))),
        .request (str "c") (.newTaskReq 2 (some (str "v"))),
        .join (str "b"), .request (str "c") (.getTaskReq 3), .deliver (str "b"), .order 0,
        .deliver (str "a"), .deliver (str "a"), .deliver (str "a"), .deliver (str "a"),
        .deliver (str "a"), .deliver (str "b"), .deliver (str "b"), .receive 0] (by decide +kernel)
  refine hne (hall x hx (str "b") m (str "a") m' hm hdonor hm' e.1 e.2 e'.2 he ?_).1
  rw [← hpos]
  exact he'

/-- A joiner that buffers a request ordered after its `StateReq`. -/
theorem transfer_exact_buffered_request : ∃ x, machine.Reachable NoneBetween x ∧
    (∃ m ∈ x.servers (str "b"), m.donor = some (str "a") ∧
      ∃ e ∈ m.past, e.2.waitingTasks = [⟨some (str "u")⟩]) ∧ x.Exact := by
  obtain ⟨x, hx, hrun⟩ := Machine.exists_reachable_of_run machine NoneBetween
    (fun x => ∃ m ∈ x.servers (str "b"), m.donor = some (str "a") ∧
      ∃ e ∈ m.past, e.2.waitingTasks = [⟨some (str "u")⟩])
    [.join (str "a"), .deliver (str "a"), .join (str "b"), .deliver (str "b"), .order 0,
      .request (str "c") (.newTaskReq 1 (some (str "u"))),
      .deliver (str "a"), .deliver (str "a"), .deliver (str "a"),
      .deliver (str "b"), .deliver (str "b"), .receive 0] (by decide +kernel)
  exact ⟨x, hx, hrun, transfer_exact x hx⟩

end ReplicatedScheduler
