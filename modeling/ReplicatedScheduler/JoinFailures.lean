import ReplicatedScheduler.Donation

/-!
# Client failures while a server joins

**Theorem (`client_failure_not_forgotten`).** In a run that meets `FailuresKept`, a client that
failed while a server joined has the same tasks at that server as at its donor.

A joiner has no handler for `ClientFailure` before its main handlers are registered. It drops the
message, and `processBuffer` replays requests only. So the failure reaches the joiner inside the
copy or not at all: a failure ordered after the donor took its copy is forgotten, and the joiner
leaves the client's tasks with it (`client_failure_forgotten`). `FailuresKept` asks

- of an installation, that the server has no state yet, and that no client that failed since the
  copy was taken held a task when it failed;
- of a server between its installation and the registration of its main handlers, that no client
  whose failure it drops holds a task;
- of a failure that a donor and its joiner both handle, that they shift the client's tasks in the
  same order.

From the position of its copy on a joiner then has the ledger of its donor
(`Transferred.ledger_eq`). Before that position no request is ordered, and a client that failed
and sent nothing since has no task at either (`Settled`).
-/

namespace ReplicatedScheduler

open JavaLib Lib Lts

namespace PeerGroup

/-! ## Agreement on failed clients -/

/-- Once the main handlers of a server are in place, a client that failed at a position since the
server's own join has the same set of tasks there as at its donor, at every position. -/
def Agrees (x : PeerGroup) : Prop :=
  ∀ g m rep d n, x.servers g = some m → m.installed = some rep →
    x.servers rep.sender = some d → m.since = some n →
    ∀ client r, m.joined ≤ r → r < n → failureAt x.log r = some (some client) →
      ∀ p s s', n ≤ p → m.record.get? p = some s → d.record.get? p = some s' →
        ∀ t, s.processingTasks.get? t = some client ↔ s'.processingTasks.get? t = some client

/-- Requests are carried over exactly once: none is both in the copy and in the buffer, and none
is delivered after the buffer was processed and before the main handlers are in place. -/
def CarriedOnce (x : PeerGroup) : Action → Prop
  | .receive i => ∀ rep ∈ x.inFlight[i]?, ∀ m ∈ x.servers rep.dest,
    m.handlers.stateSender = none → NoRequests x.log m.joined rep.position
  | .deliver g => ∀ m ∈ x.servers g, ∀ a ∈ x.log[m.next]?,
    m.installed ≠ none → m.handlers.serving = false → a.request = none
  | _ => True

instance (x : PeerGroup) (a : Action) : Decidable (x.CarriedOnce a) := by
  unfold CarriedOnce
  split <;> infer_instance

/-- Server `m` has its state from `h`, from a position up to `p`. -/
def Follows (m : Peer) (h : SpreadGroup) (p : ℕ) : Prop :=
  ∃ rep ∈ m.installed, rep.sender = h ∧ rep.position ≤ p

instance (m : Peer) (h : SpreadGroup) (p : ℕ) : Decidable (Follows m h p) :=
  inferInstanceAs (Decidable (∃ rep ∈ m.installed, _))

/-- No failure is forgotten, and requests are carried over once. -/
def FailuresKept (x : PeerGroup) : Action → Prop
  | .receive i => x.CarriedOnce (.receive i) ∧
    ∀ rep ∈ x.inFlight[i]?, ∀ m ∈ x.servers rep.dest, m.handlers.stateSender = none →
      m.started = false ∧ ∀ p < m.next, rep.position ≤ p → ∀ client ∈ failureAt x.log p,
        (rep.replayed x.log p).tasksOf client = []
  | .deliver g => x.CarriedOnce (.deliver g) ∧
    ∀ m ∈ x.servers g, ∀ client ∈ failureAt x.log m.next,
      (m.installed ≠ none → m.handlers.serving = false →
        m.handlers.scheduler.tasksOf client = []) ∧
      ∀ h ∈ x.known, ∀ m' ∈ x.servers h, ∀ s' ∈ m'.record.get? m.next,
        Follows m h m.next ∨ Follows m' g m.next →
        (m.handlers.scheduler.tasksOf client).Perm (s'.tasksOf client) →
          m.handlers.scheduler.tasksOf client = s'.tasksOf client
  | _ => True

instance (x : PeerGroup) (a : Action) : Decidable (x.FailuresKept a) := by
  unfold FailuresKept
  split <;> infer_instance

/-! ## The invariant -/

/-- Every server is sound, and agrees with its donor as far as the two have gone. -/
structure Consistent (x : PeerGroup) : Prop where
  sound : ∀ g m, x.servers g = some m → Sound x.log m
  known : ∀ g m, x.servers g = some m → g ∈ x.known
  requested : ∀ g ∈ x.requested, ∃ m, x.servers g = some m
  asked : ∀ i g, x.log[i]? = some (.server g .stateReq) → ∃ m, x.servers g = some m ∧ m.joined ≤ i
  sender : ∀ rep ∈ x.inFlight, ∃ d, x.servers rep.sender = some d ∧ Donated rep d
  dest : ∀ rep ∈ x.inFlight, ∃ m, x.servers rep.dest = some m ∧ m.joined ≤ rep.position
  transferred : ∀ g m rep, x.servers g = some m → m.installed = some rep →
    rep.sender ≠ g ∧ ∃ d, x.servers rep.sender = some d ∧ Transferred x.log rep m d

theorem consistent_start : Consistent start := by
  constructor <;> simp [start]

/-- The order grows; a `StateReq` is from a server. -/
theorem Consistent.append {x : PeerGroup} (h : x.Consistent) {a : Agreed}
    (hreq : ∀ g, a = .server g .stateReq → ∃ m, x.servers g = some m) :
    (x.append a).Consistent := by
  refine ⟨?sound, h.known, h.requested, ?asked, h.sender, h.dest, ?transferred⟩
  case sound => exact fun g m hm => (h.sound g m hm).append [a]
  case asked =>
    intro i g hi
    replace hi : (x.log ++ [a])[i]? = some (.server g .stateReq) := hi
    rw [List.getElem?_append] at hi
    split_ifs at hi with hlt
    · exact h.asked i g hi
    · have ha : a = .server g .stateReq := List.mem_singleton.mp (List.mem_of_getElem? hi) |>.symm
      obtain ⟨m, hm⟩ := hreq g ha
      have hsound := h.sound g m hm
      exact ⟨m, hm, Nat.le_trans hsound.joined (Nat.le_trans hsound.next (Nat.le_of_not_lt hlt))⟩
  case transferred =>
    intro g m rep hm hrep
    obtain ⟨hne, d, hd, ht⟩ := h.transferred g m rep hm hrep
    exact ⟨hne, d, hd, ht.append (h.sound g m hm) (h.sound _ d hd) [a]⟩

/-- One server changes. If it has its state it goes on; what it has installed is transferred to
it, and what it has donated stays so. -/
theorem Consistent.setServer {x : PeerGroup} (h : x.Consistent) {g : SpreadGroup} {m m' : Peer}
    (hm : x.servers g = some m) (hsound : Sound x.log m') (hjoined : m'.joined = m.joined)
    (hgoes : m.started = true → Continues m m')
    (hjoiner : ∀ rep, m'.installed = some rep → rep.sender ≠ g ∧
      ∃ d, x.servers rep.sender = some d ∧ Transferred x.log rep m' d)
    (hdonor : ∀ k mk rep, x.servers k = some mk → mk.installed = some rep → rep.sender = g →
      Transferred x.log rep mk m → Transferred x.log rep mk m') :
    (x.setServer g m').Consistent := by
  have hjoins : ∀ d i, (∃ md, x.servers d = some md ∧ md.joined ≤ i) →
      ∃ md, (x.setServer g m').servers d = some md ∧ md.joined ≤ i := by
    intro d i hd
    obtain ⟨md, hmd, hle⟩ := hd
    by_cases hdg : d = g
    · subst hdg
      rw [hm] at hmd
      cases hmd
      exact ⟨m', setServer_self x d m', hjoined ▸ hle⟩
    · exact ⟨md, setServer_of_ne hdg m' hmd, hle⟩
  refine ⟨?sound, ?known, ?requested, ?asked, ?sender, ?dest, ?transferred⟩
  case sound =>
    intro d md hmd
    rcases servers_setServer hmd with ⟨-, rfl⟩ | ⟨-, hmd⟩
    · exact hsound
    · exact h.sound d md hmd
  case known =>
    intro d md hmd
    rcases servers_setServer hmd with ⟨rfl, -⟩ | ⟨-, hmd⟩
    · exact h.known d m hm
    · exact h.known d md hmd
  case requested =>
    intro d hd
    obtain ⟨md, hmd⟩ := h.requested d hd
    obtain ⟨md', hmd', -⟩ := hjoins d md.joined ⟨md, hmd, Nat.le_refl _⟩
    exact ⟨md', hmd'⟩
  case asked => exact fun i d hi => hjoins d i (h.asked i d hi)
  case sender =>
    intro rep hrep
    obtain ⟨d, hd, hdonated⟩ := h.sender rep hrep
    by_cases hdg : rep.sender = g
    · rw [hdg, hm] at hd
      cases hd
      obtain ⟨n, hn, -⟩ := hdonated.since
      rw [hdg]
      exact ⟨m', setServer_self x g m',
        hdonated.continues (hgoes ((h.sound g m hm).started_of_since hn))⟩
    · exact ⟨d, setServer_of_ne hdg m' hd, hdonated⟩
  case dest => exact fun rep hrep => hjoins _ _ (h.dest rep hrep)
  case transferred =>
    intro k mk rep hmk hrep
    rcases servers_setServer hmk with ⟨rfl, rfl⟩ | ⟨hkg, hmk⟩
    · obtain ⟨hne, d, hd, ht⟩ := hjoiner rep hrep
      exact ⟨hne, d, setServer_of_ne hne mk hd, ht⟩
    · obtain ⟨hne, d, hd, ht⟩ := h.transferred k mk rep hmk hrep
      refine ⟨hne, ?_⟩
      by_cases hdg : rep.sender = g
      · rw [hdg, hm] at hd
        cases hd
        rw [hdg]
        exact ⟨m', setServer_self x g m', hdonor k mk rep hmk hrep hdg ht⟩
      · exact ⟨d, setServer_of_ne hdg m' hd, ht⟩

/-- Nothing is donated or installed by a server without state. -/
theorem Consistent.not_started {x : PeerGroup} (h : x.Consistent) {g : SpreadGroup} {m : Peer}
    (hm : x.servers g = some m) (hs : m.started = false) {rep : StateReply} :
    m.installed ≠ some rep ∧ ¬ Donated rep m := by
  have hsound := h.sound g m hm
  refine ⟨fun hinstalled => ?_, fun hdonated => ?_⟩
  · rw [hsound.installed (by rw [hinstalled]; exact Option.some_ne_none _)] at hs
    cases hs
  · obtain ⟨n, hn, -⟩ := hdonated.since
    rw [hsound.started_of_since hn] at hs
    cases hs

/-- A server that has no state changes. -/
theorem Consistent.setServer_waiting {x : PeerGroup} (h : x.Consistent) {g : SpreadGroup}
    {m m' : Peer} (hm : x.servers g = some m) (hs : m.started = false) (hsound : Sound x.log m')
    (hjoined : m'.joined = m.joined)
    (hjoiner : ∀ rep, m'.installed = some rep → rep.sender ≠ g ∧
      ∃ d, x.servers rep.sender = some d ∧ Transferred x.log rep m' d) :
    (x.setServer g m').Consistent := by
  refine h.setServer hm hsound hjoined ?_ hjoiner ?_
  · intro hs'
    rw [hs] at hs'
    cases hs'
  · intro k mk rep _ _ _ ht
    exact absurd ht.toDonated (h.not_started hm hs).2

/-- One server goes on, without a position of its own. -/
theorem Consistent.setServer_stays {x : PeerGroup} (h : x.Consistent) {g : SpreadGroup}
    {m m' : Peer} (hm : x.servers g = some m) (hsound : Sound x.log m') (hc : Continues m m')
    (hnext : m'.next = m.next) : (x.setServer g m').Consistent := by
  refine h.setServer hm hsound hc.joined (fun _ => hc) ?_ ?_
  · intro rep hrep
    rw [hc.installed] at hrep
    obtain ⟨hne, d, hd, ht⟩ := h.transferred g m rep hm hrep
    refine ⟨hne, d, hd, ht.joiner (h.sound g m hm) hc ?_ ?_⟩
    · intro p a s hle hlt
      omega
    · intro p client s s' hle hlt
      omega
  · intro k mk rep _ _ _ ht
    refine ht.donor (h.sound g m hm) hc ?_
    intro p client s s' hle hlt
    omega

theorem Consistent.join {x : PeerGroup} (h : x.Consistent) {g : SpreadGroup}
    (hg : x.servers g = none) : (x.afterJoin g).Consistent := by
  have hlog := h.append (a := .view ⟨true, .join g, x.members ++ [g]⟩) (by simp)
  have hkeep : ∀ d m, x.servers d = some m → (x.afterJoin g).servers d = some m := by
    intro d m hm
    refine setServer_of_ne (x := x.append _) ?_ _ hm
    rintro rfl
    rw [hg] at hm
    cases hm
  refine ⟨?sound, ?known, ?requested, ?asked, ?sender, ?dest, ?transferred⟩
  case sound =>
    intro d m hm
    rcases servers_setServer hm with ⟨-, rfl⟩ | ⟨-, hm⟩
    · refine Sound.start g ?_
      show x.log.length ≤ (x.log ++ _).length
      rw [List.length_append]
      exact Nat.le_add_right _ _
    · exact hlog.sound d m hm
  case known =>
    intro d m hm
    rcases servers_setServer hm with ⟨rfl, -⟩ | ⟨-, hm⟩
    · exact List.mem_append_right _ List.mem_cons_self
    · exact List.mem_append_left _ (h.known d m hm)
  case requested =>
    intro d hd
    obtain ⟨m, hm⟩ := h.requested d hd
    exact ⟨m, hkeep d m hm⟩
  case asked =>
    intro i d hi
    obtain ⟨m, hm, hle⟩ := hlog.asked i d hi
    exact ⟨m, hkeep d m hm, hle⟩
  case sender =>
    intro rep hrep
    obtain ⟨d, hd, hdonated⟩ := h.sender rep hrep
    exact ⟨d, hkeep _ d hd, hdonated⟩
  case dest =>
    intro rep hrep
    obtain ⟨m, hm, hle⟩ := h.dest rep hrep
    exact ⟨m, hkeep _ m hm, hle⟩
  case transferred =>
    intro d m rep hm hrep
    rcases servers_setServer hm with ⟨rfl, rfl⟩ | ⟨-, hm⟩
    · cases hrep
    · obtain ⟨hne, md, hmd, ht⟩ := hlog.transferred d m rep hm hrep
      exact ⟨hne, md, hkeep _ md hmd, ht⟩

/-- A server that has its state delivers a message. -/
theorem Consistent.deliver_started {x : PeerGroup} (h : x.Consistent) {g : SpreadGroup} {m : Peer}
    {a : Agreed} (hm : x.servers g = some m) (ha : x.log[m.next]? = some a)
    (hok : x.FailuresKept (.deliver g)) (hs : m.started = true) :
    (x.setServer g (m.deliver a)).Consistent := by
  obtain ⟨hcarried, hkept⟩ := hok
  have hsound := h.sound g m hm
  have hc := continues_deliver hs a
  have hfail : ∀ client, a.failure = some client → failureAt x.log m.next = some client :=
    fun client hclient => failureAt_eq_some.mpr ⟨a, ha, hclient⟩
  have hnow : ∀ p s, m.next ≤ p → p < m.next + 1 → (m.deliver a).record.get? p = some s →
      p = m.next ∧ s = m.handlers.scheduler := by
    intro p s hle hlt hget
    obtain rfl : p = m.next := Nat.le_antisymm (Nat.le_of_lt_succ hlt) hle
    rw [hc.get? (hsound.current hs)] at hget
    exact ⟨rfl, (Option.some.inj hget).symm⟩
  refine h.setServer hm ?_ rfl (fun _ => hc) ?_ ?_
  · exact hsound.deliver_started hs ha fun hinstalled hserv client hclient =>
      (hkept m hm client (hfail client hclient)).1 hinstalled hserv
  · intro rep hrep
    replace hrep : m.installed = some rep := hrep
    obtain ⟨hne, d, hd, ht⟩ := h.transferred g m rep hm hrep
    refine ⟨hne, d, hd, ht.joiner hsound hc ?_ ?_⟩
    · intro p a' s hle hlt hsince ha' hget
      obtain ⟨rfl, rfl⟩ := hnow p s hle hlt hget
      obtain rfl : a = a' := Option.some.inj (ha.symm.trans ha')
      have hinstalled : m.installed ≠ none := by
        rw [hrep]
        exact Option.some_ne_none _
      have hserv : m.handlers.serving = false := by
        rw [hsound.serving, Option.isSome_eq_false_iff, Option.isNone_iff_eq_none]
        by_contra hsome
        obtain ⟨n, hn⟩ := Option.ne_none_iff_exists'.mp hsome
        exact Nat.not_le_of_lt (hsince n hn) (hsound.since n hn)
      exact ⟨hcarried m hm a ha hinstalled hserv, fun client hclient =>
        (hkept m hm client (hfail client hclient)).1 hinstalled hserv⟩
    · intro p client s s' hle hlt hpos _ hclient hget hget'
      obtain ⟨rfl, rfl⟩ := hnow p s hle hlt hget
      exact (hkept m hm client hclient).2 rep.sender (h.known _ d hd) d hd s' hget'
        (Or.inl ⟨rep, hrep, rfl, hpos⟩)
  · intro k mk rep hmk hrep hsender ht
    refine ht.donor hsound hc ?_
    intro p client s s' hle hlt hpos _ hclient hget hget'
    obtain ⟨rfl, rfl⟩ := hnow p s' hle hlt hget'
    intro hperm
    exact ((hkept m hm client hclient).2 k (h.known k mk hmk) mk hmk s hget
      (Or.inr ⟨rep, hrep, hsender, hpos⟩) hperm.symm).symm

theorem Consistent.setDelivered {x : PeerGroup} (h : x.Consistent) {g : SpreadGroup} {m : Peer}
    {a : Agreed} (hm : x.servers g = some m) (ha : x.log[m.next]? = some a)
    (hok : x.FailuresKept (.deliver g)) : (x.setServer g (m.deliver a)).Consistent := by
  cases hs : m.started with
  | true => exact h.deliver_started hm ha hok hs
  | false =>
    refine h.setServer_waiting hm hs ((h.sound g m hm).deliver_waiting hs ha) rfl ?_
    intro rep hrep
    exact absurd hrep (h.not_started hm hs).1

/-- A server that delivers a message, with the messages that it sends. -/
theorem Consistent.deliver {x : PeerGroup} (h : x.Consistent) {g : SpreadGroup} {m : Peer}
    {a : Agreed} (hm : x.servers g = some m) (ha : x.log[m.next]? = some a)
    (hok : x.FailuresKept (.deliver g)) : (x.afterDeliver g m a).Consistent := by
  have hset := h.setDelivered hm ha hok
  refine {
    hset with
    requested := ?requested
    sender := ?sender
    dest := ?dest }
  case requested =>
    intro d hd
    rcases List.mem_append.mp hd with hd | hd
    · exact hset.requested d hd
    · obtain ⟨out, -, hout⟩ := List.mem_filterMap.mp hd
      obtain rfl : d = g := by cases out <;> simp_all
      exact ⟨m.deliver a, setServer_self x d _⟩
  case sender =>
    intro rep hrep
    rcases List.mem_append.mp hrep with hrep | hrep
    · exact hset.sender rep hrep
    · obtain ⟨hserv, -, heq⟩ := mem_stateReplies hrep
      have hsound := h.sound g m hm
      obtain ⟨n, hn⟩ := Option.isSome_iff_exists.mp (hsound.serving ▸ hserv)
      have hs := hsound.started_of_since hn
      have hdonated : Donated rep m := by
        rw [heq]
        exact ⟨⟨n, hn, hsound.since n hn⟩, _, hsound.current hs,
          m.handlers.scheduler.ledger_copy.symm⟩
      refine ⟨m.deliver a, ?_, hdonated.continues (continues_deliver hs a)⟩
      rw [heq]
      exact setServer_self x g _
  case dest =>
    intro rep hrep
    rcases List.mem_append.mp hrep with hrep | hrep
    · exact hset.dest rep hrep
    · obtain ⟨-, rfl, heq⟩ := mem_stateReplies hrep
      rw [heq]
      exact hset.asked m.next rep.dest ha

/-- A server that receives a `StateRep`. -/
theorem Consistent.receive {x : PeerGroup} (h : x.Consistent) {i : ℕ} {rep : StateReply} {m : Peer}
    (hrep : x.inFlight[i]? = some rep) (hm : x.servers rep.dest = some m)
    (hok : x.FailuresKept (.receive i)) : (x.afterReceive i rep m).Consistent := by
  suffices hset : (x.setServer rep.dest (m.receive rep)).Consistent from
    { hset with
      sender := fun rep' hrep' => hset.sender rep' (List.mem_of_mem_eraseIdx hrep')
      dest := fun rep' hrep' => hset.dest rep' (List.mem_of_mem_eraseIdx hrep') }
  have hmem := List.mem_of_getElem? hrep
  have hsound := h.sound _ m hm
  rcases Peer.receive_cases rep with ⟨hnone, hesc, hr⟩ | ⟨hnone, hr⟩ | ⟨-, hr⟩
  · obtain ⟨hs, hkept⟩ := hok.2 rep hrep m hm hnone
    have hquiet := hok.1 rep hrep m hm hnone
    obtain ⟨d, hd, hdonated⟩ := h.sender rep hmem
    obtain ⟨m₁, hm₁, hjoined⟩ := h.dest rep hmem
    obtain rfl : m = m₁ := Option.some.inj (hm.symm.trans hm₁)
    obtain ⟨sd, hsd, hsource⟩ := hdonated.source
    have hsettled := ((h.sound _ d hd).settled _ sd hsd).congr hsource
    obtain ⟨hledger, hsound'⟩ := hsound.install hs hnone hjoined hquiet hsettled hkept hesc
    have hne : rep.sender ≠ rep.dest := by
      intro heq
      rw [heq, hm] at hd
      cases hd
      exact (h.not_started hm hs).2 hdonated
    rw [hr]
    refine h.setServer_waiting hm hs hsound' rfl ?_
    intro rep' hrep'
    obtain rfl : rep = rep' := Option.some.inj hrep'
    refine ⟨hne, d, hd, hdonated, hsound.joined, hquiet, ⟨_, Record.get?_start .., hledger⟩, hkept,
      ?_, ?_⟩
    · intro p a s hp _ _ hget
      obtain ⟨rfl, -⟩ := Record.get?_of_start hget
      exact absurd hp (Nat.lt_irrefl _)
    · intro p client s s' _ hp _ _ hget
      obtain ⟨rfl, -⟩ := Record.get?_of_start hget
      exact absurd hp (Nat.lt_irrefl _)
  · obtain ⟨hs, -⟩ := hok.2 rep hrep m hm hnone
    rw [hr]
    refine h.setServer_waiting hm hs (hsound.fail hs _ _) rfl ?_
    intro rep' hrep'
    exact absurd hrep' (h.not_started hm hs).1
  · rw [hr]
    exact h.setServer_stays hm hsound ⟨rfl, rfl, fun _ hn => hn, rfl, fun _ _ => rfl⟩ rfl

theorem consistent_step {x x' : PeerGroup} {a : Action} (h : x.Consistent)
    (hok : x.FailuresKept a) (hstep : x.step a = some x') : x'.Consistent := by
  cases step_cases hstep with
  | join g hg => exact h.join hg
  | crash g m hm =>
    have hlog := h.append (a := .view ⟨true, .disconnect g, x.members.erase g⟩) (by simp)
    exact { hlog.setServer_stays hm (hlog.sound g m hm).crash (continues_crash m) rfl with }
  | request sender r => exact h.append (by simp)
  | clientFailure sender client => exact h.append (by simp)
  | order i g hg =>
    have hlog := h.append (a := .server g .stateReq) fun d hd => by
      obtain rfl : g = d := by simpa using hd
      exact h.requested g (List.mem_of_getElem? hg)
    exact { hlog with
      requested := fun d hd => hlog.requested d (List.mem_of_mem_eraseIdx hd) }
  | lose i =>
    exact { h with requested := fun d hd => h.requested d (List.mem_of_mem_eraseIdx hd) }
  | deliver g m a hm ha => exact h.deliver hm ha hok
  | receive i rep m hrep hm => exact h.receive hrep hm hok
  | register g m hm hreg =>
    exact h.setServer_stays hm ((h.sound g m hm).register hreg) (continues_register m) rfl

end PeerGroup

open PeerGroup

/-- **A client failure during a join is not forgotten, in runs that meet `FailuresKept`.** -/
theorem client_failure_not_forgotten (x : PeerGroup) (h : machine.Reachable FailuresKept x) :
    x.Agrees := by
  have hx : x.Consistent := h.invariant (P := Consistent) consistent_start
    fun _ _ _ hx hok hstep => consistent_step hx hok hstep
  intro g m rep d n hm hrep hd hn client r hjoined hr hfail p s s' hp hs hs' t
  obtain ⟨-, d', hd', ht⟩ := hx.transferred g m rep hm hrep
  obtain rfl : d = d' := Option.some.inj (hd.symm.trans hd')
  exact ht.agrees (hx.sound g m hm) (hx.sound _ d hd) hjoined hr hfail hp hs hs' t

/-- Server `a` handles the failure of client `c` before it takes the copy for `b`, which drops the
failure; both then serve a request. -/
theorem client_failure_not_forgotten_copied : ∃ x, machine.Reachable FailuresKept x ∧
    (∃ m ∈ x.servers (str "b"), ∃ n ∈ m.since, ∃ r < n, m.joined ≤ r ∧
      failureAt x.log r = some (some (str "c")) ∧
        m.handlers.scheduler.tasksOf (some (str "e")) = [⟨some (str "u")⟩]) ∧ x.Agrees := by
  obtain ⟨x, hx, hrun⟩ := Machine.exists_reachable_of_run machine FailuresKept
    (fun x => ∃ m ∈ x.servers (str "b"), ∃ n ∈ m.since, ∃ r < n, m.joined ≤ r ∧
      failureAt x.log r = some (some (str "c")) ∧
        m.handlers.scheduler.tasksOf (some (str "e")) = [⟨some (str "u")⟩])
    [.join (str "a"), .deliver (str "a"), .register (str "a"),
      .request (str "c") (.newTaskReq 1 (some (str "u"))), .request (str "c") (.getTaskReq 2),
      .join (str "b"), .deliver (str "b"), .clientFailure (str "e") (some (str "c")), .order 0,
      .deliver (str "a"), .deliver (str "a"), .deliver (str "a"), .deliver (str "a"),
      .deliver (str "a"), .deliver (str "b"), .deliver (str "b"), .receive 0, .register (str "b"),
      .request (str "e") (.getTaskReq 1), .deliver (str "a"),
      .deliver (str "b")] (by decide +kernel)
  exact ⟨x, hx, hrun, client_failure_not_forgotten x hx⟩

/-- Server `a` takes the copy for `b`, and client `c`, which has a task, fails after. Server `b`
drops the failure, and the task stays with `c` there. -/
theorem client_failure_forgotten : ¬ ∀ x, machine.Reachable CarriedOnce x → x.Agrees := by
  intro hall
  obtain ⟨x, hx, hfail, m, hm, d, hd, ⟨rep, hrep, hsender⟩, ⟨hjoined, hn⟩, hb, ha⟩ :=
    Machine.exists_reachable_of_run machine CarriedOnce
      (fun x => failureAt x.log 5 = some (some (str "c")) ∧
        ∃ m ∈ x.servers (str "b"), ∃ d ∈ x.servers (str "a"),
          (∃ rep ∈ m.installed, rep.sender = str "a") ∧ (m.joined = 3 ∧ m.since = some 6) ∧
            (m.record.get? 6).map (·.processingTasks.get? ⟨some (str "u")⟩) =
                some (some (str "c")) ∧
              (d.record.get? 6).map (·.processingTasks.get? ⟨some (str "u")⟩) = some none)
      [.join (str "a"), .deliver (str "a"), .register (str "a"),
        .request (str "c") (.newTaskReq 1 (some (str "u"))), .request (str "c") (.getTaskReq 2),
        .join (str "b"), .deliver (str "b"), .order 0, .deliver (str "a"), .deliver (str "a"),
        .deliver (str "a"), .deliver (str "a"), .clientFailure (str "e") (some (str "c")),
        .deliver (str "a"), .deliver (str "b"), .deliver (str "b"), .receive 0,
        .register (str "b")] (by decide +kernel)
  obtain ⟨s, hs, hget⟩ := Option.map_eq_some_iff.mp hb
  obtain ⟨s', hs', hget'⟩ := Option.map_eq_some_iff.mp ha
  rw [← hsender] at hd
  have hagree := (hall x hx (str "b") m rep d 6 hm hrep hd hn (str "c") 5 (by omega) (by omega)
    hfail 6 s s' (Nat.le_refl 6) hs hs' ⟨some (str "u")⟩).mp hget
  rw [hget'] at hagree
  cases hagree

end ReplicatedScheduler
