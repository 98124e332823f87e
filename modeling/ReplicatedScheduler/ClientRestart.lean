import ReplicatedScheduler.RemoteScheduler

/-!
# Calls and the replies they accept

**Theorem (`call_accepts_own_answer`).** In a run that meets `NoLeftover`, every completed call
was completed with a reply to the request that it sent itself, of the class that it casts to.

Replies are matched by `req_id` alone, and every process starts it from 0 under the same private
group. `NoLeftover` asks that no process takes up a reply to a request of an earlier process,
one that is still in flight when `req_id` has come to the same number and a call has set `cf`;
and that no process increments the counter all the way round.

The proof keeps the invariant `Numbered`: the requests of this process are numbered in order, and
those that are answered stay below the counter, in whatever order caller and handler increment
it. So a reply that is taken up can only be for the last request, while its call waits.
-/

namespace ReplicatedScheduler

open JavaLib Lib Lts

/-- `req_id`, once the handler has incremented it for the reply that it works on. -/
def RemoteScheduler.counter (c : RemoteScheduler) : ℕ :=
  match c.handler with
  | .completed _ => c.reqId.toNat + 1
  | _ => c.reqId.toNat

/-- Between two calls, or before the call has its id. -/
def RemoteScheduler.Between (c : RemoteScheduler) : Prop :=
  c.caller = .idle ∨ ∃ call, c.caller = .cfSet call

namespace Session

/-- The reply is for the request with number `n`, which is the call's with id `id`. -/
structure Own (n : ℕ) (call : Call) (id : JavaInt) (a : Answer) : Prop where
  origin : a.origin = n
  rep : a.rep.RepliesTo (call.request id)

/-- No reply to a request of an earlier process is taken up, and no counter turns over. -/
def NoLeftover (s : Session) : Action → Prop
  | .act (.compare a) => s.remote.TakesUp a → s.earlier ≤ a.origin
  | .act .increment | .act .handlerIncrement => s.remote.reqId.toNat + 1 < 2 ^ 32
  | _ => True

instance (s : Session) (a : Action) : Decidable (s.NoLeftover a) := by
  unfold NoLeftover
  split <;> infer_instance

/-- The requests of this process, up to the request with number `n`, have ids below `bound`. -/
def Below (s : Session) (n bound : ℕ) : Prop :=
  ∀ i req, s.earlier ≤ i → i < n → s.sent[i]? = some req → req.id.toNat < bound

theorem Below.mono {s : Session} {n b b' : ℕ} (h : s.Below n b) (hb : b ≤ b') : s.Below n b' :=
  fun i req hi hn hreq => Nat.lt_of_lt_of_le (h i req hi hn hreq) hb

/-- The numbering of requests. -/
structure Numbered (s : Session) : Prop where
  earlier : s.earlier ≤ s.sent.length
  between : s.remote.Between → s.Below s.sent.length s.remote.counter
  incremented : ∀ call id, s.remote.caller = .incremented call id →
    id.toNat ≤ s.remote.reqId.toNat ∧ s.Below s.sent.length id.toNat
  waiting : ∀ call id, s.remote.caller = .waiting call id →
    id.toNat ≤ s.remote.reqId.toNat ∧ s.earlier < s.sent.length ∧
      s.sent[s.sent.length - 1]? = some (call.request id) ∧ s.Below (s.sent.length - 1) id.toNat
  matched : ∀ a, s.remote.handler = .matched a → s.remote.cf = some none ∧
    ∃ call id, s.remote.caller = .waiting call id ∧ Own (s.sent.length - 1) call id a
  answered : ∀ call id a, s.remote.caller = .waiting call id → s.remote.cf = some (some a) →
    Own (s.sent.length - 1) call id a ∧ id.toNat < s.remote.counter
  opened : ∀ call, s.remote.caller = .cfSet call ∨ (∃ id, s.remote.caller = .incremented call id) →
    s.remote.cf = some none
  null : s.remote.cf = none → s.remote.caller = .idle ∧ s.earlier = s.sent.length
  completed : ∀ c ∈ s.completed, ∃ id, s.sent[c.number]? = some (c.call.request id) ∧
    Own c.number c.call id c.answer

theorem numbered_start : Numbered start where
  earlier := Nat.le_refl 0
  between := fun _ i req _ hn => absurd hn (Nat.not_lt_zero i)
  incremented := by simp [start, RemoteScheduler.start]
  waiting := by simp [start, RemoteScheduler.start]
  matched := by simp [start, RemoteScheduler.start]
  answered := by simp [start, RemoteScheduler.start]
  opened := by simp [start, RemoteScheduler.start]
  null := fun _ => ⟨rfl, rfl⟩
  completed := by simp [start]

theorem Numbered.restart {s : Session} (h : s.Numbered) :
    Numbered { s with remote := RemoteScheduler.start, earlier := s.sent.length } where
  earlier := Nat.le_refl _
  between := fun _ i req hi hn => absurd hn (Nat.not_lt.mpr hi)
  incremented := by simp [RemoteScheduler.start]
  waiting := by simp [RemoteScheduler.start]
  matched := by simp [RemoteScheduler.start]
  answered := by simp [RemoteScheduler.start]
  opened := by simp [RemoteScheduler.start]
  null := fun _ => ⟨rfl, rfl⟩
  completed := h.completed

/-- A reply that is taken up is for the last request, whose call waits for it. -/
theorem Numbered.own_of_takesUp {s : Session} (h : s.Numbered) {a : Answer}
    (hd : s.Delivers (.compare a)) (hidle : s.remote.handler = .idle) (ht : s.remote.TakesUp a)
    (hown : s.earlier ≤ a.origin) : s.remote.cf = some none ∧
      ∃ call id, s.remote.caller = .waiting call id ∧ Own (s.sent.length - 1) call id a := by
  obtain ⟨req, hreq, hrep⟩ := hd
  obtain ⟨hid, hcf⟩ := ht
  have hlt : a.origin < s.sent.length := (List.getElem?_eq_some_iff.mp hreq).1
  have hcounter : s.remote.counter = s.remote.reqId.toNat := by
    rw [RemoteScheduler.counter, hidle]
  have hreqId : req.id.toNat = s.remote.reqId.toNat := by rw [← hrep.id_eq, hid]
  cases hc : s.remote.caller with
  | idle =>
    have hbelow := h.between (Or.inl hc) _ _ hown hlt hreq
    omega
  | cfSet call =>
    have hbelow := h.between (Or.inr ⟨call, hc⟩) _ _ hown hlt hreq
    omega
  | incremented call id =>
    obtain ⟨hle, hbelow⟩ := h.incremented call id hc
    have := hbelow _ _ hown hlt hreq
    omega
  | waiting call id =>
    obtain ⟨hle, -, hlast, hbelow⟩ := h.waiting call id hc
    have horigin : a.origin = s.sent.length - 1 := by
      by_contra hne
      have := hbelow _ _ hown (by omega) hreq
      omega
    rw [horigin, hlast] at hreq
    obtain rfl := Option.some.inj hreq
    refine ⟨?_, call, id, rfl, horigin, hrep⟩
    cases hcf' : s.remote.cf with
    | none => exact absurd hcf' hcf
    | some r =>
      cases r with
      | none => rfl
      | some r =>
        have hlt' := (h.answered call id r hc hcf').2
        rw [Call.request_id] at hreqId
        omega

/-! ## The steps of the caller -/

theorem Numbered.setCf {s : Session} (h : s.Numbered) {call : Call}
    (hc : s.remote.caller = .idle) :
    (s.after (.setCf call) { s.remote with cf := some none, caller := .cfSet call }).Numbered := by
  constructor <;>
    simp only [after, RemoteScheduler.sends, RemoteScheduler.returns, List.map_nil, List.append_nil]
  · exact h.earlier
  · exact fun _ => h.between (Or.inl hc)
  · simp
  · simp
  · intro a ha
    obtain ⟨-, call', id, hw, -⟩ := h.matched a ha
    rw [hc] at hw
    cases hw
  · simp
  · simp
  · simp
  · exact h.completed

theorem Numbered.increment {s : Session} (h : s.Numbered) {call : Call}
    (hc : s.remote.caller = .cfSet call) (hok : s.NoLeftover (.act .increment)) :
    (s.after .increment { s.remote with
      reqId := s.remote.reqId + 1, caller := .incremented call (s.remote.reqId + 1) }).Numbered := by
  have hnext : (s.remote.reqId + 1).toNat = s.remote.reqId.toNat + 1 := by
    rw [BitVec.toNat_add]
    exact Nat.mod_eq_of_lt hok
  have hcounter : s.remote.counter ≤ (s.remote.reqId + 1).toNat := by
    rw [hnext, RemoteScheduler.counter]
    split <;> omega
  constructor <;>
    simp only [after, RemoteScheduler.sends, RemoteScheduler.returns, List.map_nil, List.append_nil]
  · exact h.earlier
  · simp [RemoteScheduler.Between]
  · intro call' id hid
    cases hid
    exact ⟨Nat.le_refl _, (h.between (Or.inr ⟨call, hc⟩)).mono hcounter⟩
  · simp
  · intro a ha
    obtain ⟨-, call', id, hw, -⟩ := h.matched a ha
    rw [hc] at hw
    cases hw
  · simp
  · exact fun _ _ => h.opened call (Or.inl hc)
  · intro hnull
    rw [h.opened call (Or.inl hc)] at hnull
    cases hnull
  · exact h.completed

theorem Numbered.broadcast {s : Session} (h : s.Numbered) {call : Call} {id : JavaInt}
    (hc : s.remote.caller = .incremented call id) :
    (s.after .broadcast { s.remote with caller := .waiting call id }).Numbered := by
  have hopen : s.remote.cf = some none := h.opened call (Or.inr ⟨id, hc⟩)
  obtain ⟨hle, hbelow⟩ := h.incremented call id hc
  constructor <;>
    simp only [after, RemoteScheduler.sends, RemoteScheduler.returns, hc, List.map_nil,
      List.append_nil, List.length_append, List.length_singleton, Nat.add_sub_cancel]
  · exact Nat.le_succ_of_le h.earlier
  · simp [RemoteScheduler.Between]
  · simp
  · intro call' id' hw
    cases hw
    refine ⟨hle, Nat.lt_succ_of_le h.earlier, by simp, fun i req hi hn hreq => ?_⟩
    rw [List.getElem?_append_left hn] at hreq
    exact hbelow i req hi hn hreq
  · intro a ha
    obtain ⟨-, call', id', hw, -⟩ := h.matched a ha
    rw [hc] at hw
    cases hw
  · intro call' id' a _ hcf
    rw [hopen] at hcf
    cases hcf
  · exact fun _ _ => hopen
  · intro hnull
    rw [hopen] at hnull
    cases hnull
  · intro c hmem
    obtain ⟨id', hreq, hown⟩ := h.completed c hmem
    exact ⟨id', by rw [List.getElem?_append_left (List.getElem?_eq_some_iff.mp hreq).1, hreq], hown⟩

theorem Numbered.get {s : Session} (h : s.Numbered) {call : Call} {id : JavaInt} {a : Answer}
    (hc : s.remote.caller = .waiting call id) (hcf : s.remote.cf = some (some a)) :
    (s.after .get { s.remote with caller := .idle }).Numbered := by
  obtain ⟨hle, hlt, hlast, hbelow⟩ := h.waiting call id hc
  obtain ⟨hown, hid⟩ := h.answered call id a hc hcf
  constructor <;>
    simp only [after, RemoteScheduler.sends, RemoteScheduler.returns, hc, hcf, List.map_cons,
      List.map_nil, List.append_nil]
  · exact h.earlier
  · intro _ i req hi hn hreq
    show req.id.toNat < s.remote.counter
    -- the last request is the call's own, which has been answered
    by_cases hi' : i < s.sent.length - 1
    · exact Nat.lt_trans (hbelow i req hi hi' hreq) hid
    · obtain rfl : i = s.sent.length - 1 := by omega
      rw [hlast] at hreq
      obtain rfl := Option.some.inj hreq
      rw [Call.request_id]
      exact hid
  · simp
  · simp
  · intro b hb
    obtain ⟨hcf', -⟩ := h.matched b hb
    rw [hcf] at hcf'
    cases hcf'
  · simp
  · simp
  · simp
  · intro c hmem
    rcases List.mem_append.mp hmem with hmem | hmem
    · exact h.completed c hmem
    · obtain rfl := List.mem_singleton.mp hmem
      exact ⟨id, hlast, hown⟩

/-! ## The steps of the handler -/

theorem Numbered.takeUp {s : Session} (h : s.Numbered) {a : Answer}
    (hd : s.Delivers (.compare a)) (hok : s.NoLeftover (.act (.compare a)))
    (hh : s.remote.handler = .idle) (ht : s.remote.TakesUp a) :
    (s.after (.compare a) { s.remote with handler := .matched a }).Numbered := by
  have hcounter : s.remote.counter = s.remote.reqId.toNat := by rw [RemoteScheduler.counter, hh]
  constructor <;>
    simp only [after, RemoteScheduler.sends, RemoteScheduler.returns, List.map_nil, List.append_nil]
  · exact h.earlier
  · exact fun hb => (h.between hb).mono (Nat.le_of_eq hcounter)
  · exact h.incremented
  · exact h.waiting
  · intro b hb
    cases hb
    exact h.own_of_takesUp hd hh ht (hok ht)
  · intro call id b hc hcf
    rw [(h.own_of_takesUp hd hh ht (hok ht)).1] at hcf
    cases hcf
  · exact h.opened
  · exact h.null
  · exact h.completed

theorem Numbered.passOver {s : Session} (h : s.Numbered) {a : Answer} :
    (s.after (.compare a) s.remote).Numbered := by
  constructor <;>
    simp only [after, RemoteScheduler.sends, RemoteScheduler.returns, List.map_nil, List.append_nil]
  · exact h.earlier
  · exact h.between
  · exact h.incremented
  · exact h.waiting
  · exact h.matched
  · exact h.answered
  · exact h.opened
  · exact h.null
  · exact h.completed

theorem Numbered.complete {s : Session} (h : s.Numbered) {a : Answer}
    (hh : s.remote.handler = .matched a) :
    (s.after .complete { s.remote with
      cf := s.remote.cf.map fun r => some (r.getD a), handler := .completed a }).Numbered := by
  obtain ⟨hcf, call, id, hc, hown⟩ := h.matched a hh
  obtain ⟨hle, -⟩ := h.waiting call id hc
  constructor <;>
    simp only [after, RemoteScheduler.sends, RemoteScheduler.returns, hcf, List.map_nil,
      List.append_nil, Option.map_some, Option.getD_none]
  · exact h.earlier
  · rintro (hb | ⟨call', hb⟩) <;> simp [hc] at hb
  · simp [hc]
  · exact h.waiting
  · simp
  · intro call' id' b hc' hb
    rw [hc] at hc'
    cases hc'
    cases hb
    exact ⟨hown, Nat.lt_succ_of_le hle⟩
  · simp [hc]
  · simp
  · exact h.completed

theorem Numbered.handlerIncrement {s : Session} (h : s.Numbered) {a : Answer}
    (hh : s.remote.handler = .completed a) (hok : s.NoLeftover (.act .handlerIncrement)) :
    (s.after .handlerIncrement { s.remote with
      reqId := s.remote.reqId + 1, handler := .idle }).Numbered := by
  have hnext : (s.remote.reqId + 1).toNat = s.remote.reqId.toNat + 1 := by
    rw [BitVec.toNat_add]
    exact Nat.mod_eq_of_lt hok
  have hcounter : s.remote.counter = (s.remote.reqId + 1).toNat := by
    rw [hnext, RemoteScheduler.counter, hh]
  constructor <;>
    simp only [after, RemoteScheduler.sends, RemoteScheduler.returns, List.map_nil, List.append_nil]
  · exact h.earlier
  · exact fun hb => (h.between hb).mono (Nat.le_of_eq hcounter)
  · intro call id hc
    obtain ⟨hle, hbelow⟩ := h.incremented call id hc
    exact ⟨by omega, hbelow⟩
  · intro call id hc
    obtain ⟨hle, hrest⟩ := h.waiting call id hc
    exact ⟨by omega, hrest⟩
  · simp
  · intro call id b hc hcf
    obtain ⟨hown, hid⟩ := h.answered call id b hc hcf
    exact ⟨hown, Nat.lt_of_lt_of_eq hid hcounter⟩
  · exact h.opened
  · exact h.null
  · exact h.completed

/-! ## All steps -/

theorem numbered_step {s s' : Session} {a : Action} (h : s.Numbered) (hok : s.NoLeftover a)
    (hstep : s.step a = some s') : s'.Numbered := by
  cases a with
  | restart =>
    cases hstep
    exact h.restart
  | act a =>
    obtain ⟨hd, remote, hremote, rfl⟩ := step_act hstep
    cases RemoteScheduler.step_cases hremote with
    | setCf call hc => exact h.setCf hc
    | increment call hc => exact h.increment hc hok
    | broadcast call id hc => exact h.broadcast hc
    | get call id a hc hcf => exact h.get hc hcf
    | takeUp a hh ht => exact h.takeUp hd hok hh ht
    | passOver a hh ht => exact h.passOver
    | complete a hh => exact h.complete hh
    | handlerIncrement a hh => exact h.handlerIncrement hh hok

theorem numbered_of_reachable {s : Session} (h : machine.Reachable NoLeftover s) : s.Numbered :=
  h.invariant (P := Numbered) numbered_start fun _ _ _ hs hok hstep => numbered_step hs hok hstep

end Session

open Session

/-- Every completed call was completed with a reply to the request that it sent, of the class it
casts to. -/
def Session.AcceptsOwn (s : Session) : Prop :=
  ∀ c ∈ s.completed, c.answer.origin = c.number ∧ ∃ id,
    s.sent[c.number]? = some (c.call.request id) ∧ c.answer.rep.RepliesTo (c.call.request id)

/-- **A call accepts an answer to itself only**, in a run in which no leftover is taken up. -/
theorem call_accepts_own_answer (s : Session) (h : Session.machine.Reachable NoLeftover s) :
    s.AcceptsOwn := by
  intro c hc
  obtain ⟨id, hreq, hown⟩ := (numbered_of_reachable h).completed c hc
  exact ⟨hown.origin, id, hreq, hown.rep⟩

/-- A `NewTaskRep` to the first request of one process completes the first call of the next, a
`getTask`. -/
theorem call_accepts_leftover_answer : ¬ ∀ s, Session.machine.Reachable anyStep s →
    s.AcceptsOwn := by
  intro hall
  obtain ⟨s, hs, c, hc, hne⟩ := Machine.exists_reachable_of_run Session.machine anyStep
    (fun s => ∃ c ∈ s.completed, c.answer.origin ≠ c.number)
    [.act (.setCf (.newTask (some (str "u")))), .act .increment, .act .broadcast,
      .act (.compare ⟨.newTaskRep 1 true, 0⟩), .act .complete, .act .get, .restart,
      .act (.setCf .getTask), .act .increment, .act .broadcast,
      .act (.compare ⟨.newTaskRep 1 true, 0⟩), .act .complete, .act .get] (by decide +kernel)
  exact hne (hall s hs c hc).1

/-- Two processes with one call each; the leftover reply comes before the second has begun its
call. -/
theorem call_accepts_own_answer_after_restart : ∃ s, Session.machine.Reachable NoLeftover s ∧
    (s.completed.length = 2 ∧ s.earlier = 1) ∧ s.AcceptsOwn := by
  obtain ⟨s, hs, hrun⟩ := Machine.exists_reachable_of_run Session.machine NoLeftover
    (fun s => s.completed.length = 2 ∧ s.earlier = 1)
    [.act (.setCf (.newTask (some (str "u")))), .act .increment, .act .broadcast,
      .act (.compare ⟨.newTaskRep 1 true, 0⟩), .act .complete, .act .get, .restart,
      .act (.compare ⟨.newTaskRep 1 true, 0⟩),
      .act (.setCf .getTask), .act .increment, .act .broadcast,
      .act (.compare ⟨.getTaskRep 1 none false, 1⟩), .act .complete, .act .handlerIncrement,
      .act .get] (by decide +kernel)
  exact ⟨s, hs, hrun, call_accepts_own_answer s hs⟩

end ReplicatedScheduler
