import ReplicatedScheduler.RemoteScheduler

/-!
# Pending calls and their replies

**Theorem (`pending_call_responsive`).** In a run in which no call increments `req_id` between
the handler's completion of `cf` and the handler's own increment, a call that waits has the id
`req_id` whenever the handler is between two replies, and no reply to it has been handled.

The handler completes `cf` before it increments `req_id`, so the caller may return, start its next
call and increment first. Then `req_id` is one ahead of the id that the call sends, and every
reply to it is passed over.

The proof keeps the invariant `InStep`: while a call that has its id waits or is about to, the
handler is not between its last two steps, and `req_id` is the call's id.
-/

namespace ReplicatedScheduler

open JavaLib Lib Lts

namespace RemoteScheduler

/-- The call that has its id, which it has sent or is about to send. -/
def pendingId (c : RemoteScheduler) : Option JavaInt :=
  match c.caller with
  | .incremented _ id | .waiting _ id => some id
  | _ => none

/-- While a call with its id is not answered, `req_id` is its id, and will be. -/
def InStep (c : RemoteScheduler) : Prop :=
  ∀ id, c.pendingId = some id → c.cf = some none →
    c.reqId = id ∧ ∀ a, c.handler ≠ .completed a

theorem inStep_step {c c' : RemoteScheduler} {a : Action} (h : c.InStep) (hstep : Step c a c')
    (hok : a = .increment → ∀ a, c.handler ≠ .completed a) : c'.InStep := by
  cases hstep with
  | setCf call hc => simp [InStep, pendingId]
  | increment call hc =>
    intro id hid _
    exact ⟨Option.some.inj hid, hok rfl⟩
  | broadcast call id hc =>
    intro id' hid hcf
    exact h id' (by rw [pendingId, hc]; exact hid) hcf
  | get call id a hc hcf => simp [InStep, pendingId]
  | takeUp a hh ht =>
    intro id hid hcf
    exact ⟨(h id hid hcf).1, by simp⟩
  | passOver a hh ht => exact h
  | complete a hh =>
    intro id _ hcf
    cases hcf' : c.cf <;> simp [hcf'] at hcf
  | handlerIncrement a hh =>
    intro id hid hcf
    exact absurd hh ((h id hid hcf).2 a)

end RemoteScheduler

namespace Session

/-- No call increments `req_id` between the handler's completion of `cf` and its increment. -/
def NoOvertaking (s : Session) (a : Action) : Prop :=
  a = .act .increment → ∀ a, s.remote.handler ≠ .completed a

instance (s : Session) (a : Action) : Decidable (s.NoOvertaking a) :=
  @instDecidableForall _ _ _ (decidable_of_iff _ (Handler.reply_eq_none s.remote.handler))

/-- A call that waits can still be answered. -/
structure Responsive (s : Session) : Prop where
  /-- Between two replies, `req_id` is the id that the call sent. -/
  reqId : ∀ call id, s.remote.caller = .waiting call id → s.remote.cf = some none →
    s.remote.handler = .idle → s.remote.reqId = id
  /-- No reply to the call has been handled. -/
  unhandled : ∀ call id, s.remote.caller = .waiting call id → s.remote.cf = some none →
    s.sent.length - 1 ∉ s.handled

/-! ## The record of the run -/

/-- The call that waits was the last to send, and replies answer requests that were sent. -/
structure Recorded (s : Session) : Prop where
  last : ∀ call id, s.remote.caller = .waiting call id →
    s.sent[s.sent.length - 1]? = some (call.request id)
  handler : ∀ a, s.remote.handler = .matched a ∨ s.remote.handler = .completed a →
    a.origin < s.sent.length
  handled : ∀ n ∈ s.handled, n < s.sent.length

theorem recorded_start : Recorded start where
  last := by simp [start, RemoteScheduler.start]
  handler := by simp [start, RemoteScheduler.start]
  handled := by simp [start]

theorem recorded_act {s : Session} {a : RemoteScheduler.Action} {remote : RemoteScheduler}
    (h : s.Recorded) (hd : s.Delivers a) (hstep : RemoteScheduler.Step s.remote a remote) :
    (s.after a remote).Recorded := by
  have horigin : ∀ b, a = .compare b → b.origin < s.sent.length := by
    rintro b rfl
    obtain ⟨req, hreq, -⟩ := hd
    exact (List.getElem?_eq_some_iff.mp hreq).1
  obtain ⟨hlast, hhandler, hhandled⟩ := h
  cases hstep with
  | setCf call hc =>
    constructor <;> simp only [after, RemoteScheduler.sends, RemoteScheduler.finishes, List.append_nil]
    · simp
    · exact hhandler
    · exact hhandled
  | increment call hc =>
    constructor <;> simp only [after, RemoteScheduler.sends, RemoteScheduler.finishes, List.append_nil]
    · simp
    · exact hhandler
    · exact hhandled
  | broadcast call id hc =>
    constructor <;>
      simp only [after, RemoteScheduler.sends, RemoteScheduler.finishes, hc, List.append_nil,
        List.length_append, List.length_singleton]
    · intro call' id' hw
      cases hw
      simp
    · exact fun b hb => Nat.lt_succ_of_lt (hhandler b hb)
    · exact fun n hn => Nat.lt_succ_of_lt (hhandled n hn)
  | get call id b hc hcf =>
    constructor <;> simp only [after, RemoteScheduler.sends, RemoteScheduler.finishes, List.append_nil]
    · simp
    · exact hhandler
    · exact hhandled
  | takeUp b hh ht =>
    constructor <;>
      simp only [after, RemoteScheduler.sends, RemoteScheduler.finishes, hh, if_pos ht,
        List.append_nil]
    · exact hlast
    · intro b' hb'
      rcases hb' with hb' | hb' <;> cases hb'
      exact horigin b rfl
    · exact hhandled
  | passOver b hh ht =>
    constructor <;>
      simp only [after, RemoteScheduler.sends, RemoteScheduler.finishes, hh, if_neg ht,
        List.append_nil, List.forall_mem_append, List.forall_mem_singleton]
    · exact hlast
    · simp
    · exact ⟨hhandled, horigin b rfl⟩
  | complete b hh =>
    constructor <;>
      simp only [after, RemoteScheduler.sends, RemoteScheduler.finishes, List.append_nil]
    · exact hlast
    · intro b' hb'
      rcases hb' with hb' | hb' <;> cases hb'
      exact hhandler b (Or.inl hh)
    · exact hhandled
  | handlerIncrement b hh =>
    constructor <;>
      simp only [after, RemoteScheduler.sends, RemoteScheduler.finishes, hh, List.append_nil,
        List.forall_mem_append, List.forall_mem_singleton]
    · exact hlast
    · simp
    · exact ⟨hhandled, hhandler b (Or.inr hh)⟩

theorem recorded_step {s s' : Session} {a : Action} (h : s.Recorded) (hstep : s.step a = some s') :
    s'.Recorded := by
  cases a with
  | restart =>
    cases hstep
    exact {
      last := by simp [RemoteScheduler.start]
      handler := by simp [RemoteScheduler.start]
      handled := h.handled }
  | act a =>
    obtain ⟨hd, remote, hremote, rfl⟩ := step_act hstep
    exact recorded_act h hd (RemoteScheduler.step_cases hremote)

/-! ## The invariant of a session -/

/-- The call that waits has had no reply handled, and `req_id` is in step with it. -/
structure Pending (s : Session) : Prop where
  recorded : s.Recorded
  inStep : s.remote.InStep
  unhandled : ∀ call id, s.remote.caller = .waiting call id → s.remote.cf = some none →
    s.sent.length - 1 ∉ s.handled

theorem pending_start : Pending start where
  recorded := recorded_start
  inStep := by simp [start, RemoteScheduler.start, RemoteScheduler.InStep, RemoteScheduler.pendingId]
  unhandled := by simp [start, RemoteScheduler.start]

/-- What the handler finishes with is no reply to a call that waits and is not answered. -/
theorem unhandled_act {s : Session} {a : RemoteScheduler.Action} {remote : RemoteScheduler}
    (h : s.Pending) (hd : s.Delivers a) (hstep : RemoteScheduler.Step s.remote a remote)
    {call : Call} {id : JavaInt} (hc : (s.after a remote).remote.caller = .waiting call id)
    (hcf : (s.after a remote).remote.cf = some none) :
    (s.after a remote).sent.length - 1 ∉ (s.after a remote).handled := by
  obtain ⟨hrec, hin, hun⟩ := h
  cases hstep with
  | setCf | increment | get => cases hc
  | broadcast call' id' hc' =>
    simp only [after, RemoteScheduler.sends, RemoteScheduler.finishes, hc', List.append_nil,
      List.length_append, List.length_singleton, Nat.add_sub_cancel]
    exact fun hmem => Nat.lt_irrefl _ (hrec.handled _ hmem)
  | takeUp b hh ht =>
    simp only [after, RemoteScheduler.sends, RemoteScheduler.finishes, hh, if_pos ht,
      List.append_nil]
    exact hun call id hc hcf
  | passOver b hh ht =>
    simp only [after, RemoteScheduler.sends, RemoteScheduler.finishes, hh, if_neg ht,
      List.append_nil, List.mem_append, List.mem_singleton, not_or]
    refine ⟨hun call id hc hcf, fun hlast => ht ?_⟩
    -- a reply to the call has its id, which is `req_id`: it would have been taken up
    have hwaits : s.remote.caller = .waiting call id := hc
    have hopen : s.remote.cf = some none := hcf
    obtain ⟨req, hreq, hrep⟩ := hd
    rw [← hlast, hrec.last call id hwaits] at hreq
    obtain rfl := Option.some.inj hreq
    have hid := (hin id (by rw [RemoteScheduler.pendingId, hwaits]) hopen).1
    exact ⟨by rw [hrep.id_eq, Call.request_id, hid], by rw [hopen]; simp⟩
  | complete b hh =>
    cases hcf' : s.remote.cf <;> simp [after, hcf'] at hcf
  | handlerIncrement b hh =>
    have hwaits : s.remote.caller = .waiting call id := hc
    exact absurd hh ((hin id (by rw [RemoteScheduler.pendingId, hwaits]) hcf).2 b)

theorem pending_step {s s' : Session} {a : Action} (h : s.Pending) (hok : s.NoOvertaking a)
    (hstep : s.step a = some s') : s'.Pending := by
  refine ⟨recorded_step h.recorded hstep, ?_, ?_⟩
  · cases a with
    | restart =>
      cases hstep
      simp [RemoteScheduler.start, RemoteScheduler.InStep, RemoteScheduler.pendingId]
    | act a =>
      obtain ⟨-, remote, hremote, rfl⟩ := step_act hstep
      exact RemoteScheduler.inStep_step h.inStep (RemoteScheduler.step_cases hremote)
        fun ha => hok (by rw [ha])
  · cases a with
    | restart =>
      cases hstep
      simp [RemoteScheduler.start]
    | act a =>
      obtain ⟨hd, remote, hremote, rfl⟩ := step_act hstep
      exact fun call id hc hcf => unhandled_act h hd (RemoteScheduler.step_cases hremote) hc hcf

end Session

open Session

/-- **A call that waits is never past its reply**, in a run in which no call overtakes the
handler. -/
theorem pending_call_responsive (s : Session) (h : Session.machine.Reachable NoOvertaking s) :
    s.Responsive := by
  have hp : s.Pending := h.invariant (P := Pending) pending_start
    fun _ _ _ hs hok hstep => pending_step hs hok hstep
  refine ⟨fun call id hc hcf _ => ?_, hp.unhandled⟩
  exact (hp.inStep id (by rw [RemoteScheduler.pendingId, hc]) hcf).1

/-- The second call increments `req_id` between the handler's last two steps for the first: it
sends id 2 and `req_id` becomes 3. -/
theorem pending_call_overtaken : ¬ ∀ s, Session.machine.Reachable anyStep s → s.Responsive := by
  intro hall
  obtain ⟨s, hs, hmem, hc, hcf⟩ := Machine.exists_reachable_of_run Session.machine anyStep
    (fun s => s.sent.length - 1 ∈ s.handled ∧ s.remote.caller = .waiting .getTask 2 ∧
      s.remote.cf = some none)
    [.act (.setCf (.newTask (some (str "u")))), .act .increment, .act .broadcast,
      .act (.compare ⟨.newTaskRep 1 true, 0⟩), .act .complete, .act .get, .act (.setCf .getTask),
      .act .increment, .act .handlerIncrement, .act .broadcast,
      .act (.compare ⟨.getTaskRep 2 none false, 1⟩)] (by decide +kernel)
  exact (hall s hs).unhandled _ _ hc hcf hmem

/-- Two calls, the second after the handler has finished with the reply to the first. -/
theorem pending_call_responsive_second_call : ∃ s, Session.machine.Reachable NoOvertaking s ∧
    (s.sent.length = 2 ∧ s.handled = [0]) ∧ s.Responsive := by
  obtain ⟨s, hs, hrun⟩ := Machine.exists_reachable_of_run Session.machine NoOvertaking
    (fun s => s.sent.length = 2 ∧ s.handled = [0])
    [.act (.setCf (.newTask (some (str "u")))), .act .increment, .act .broadcast,
      .act (.compare ⟨.newTaskRep 1 true, 0⟩), .act .complete, .act .handlerIncrement, .act .get,
      .act (.setCf .getTask), .act .increment, .act .broadcast] (by decide +kernel)
  exact ⟨s, hs, hrun, pending_call_responsive s hs⟩

end ReplicatedScheduler
