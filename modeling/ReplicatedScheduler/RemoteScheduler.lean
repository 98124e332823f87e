import ReplicatedScheduler.MainHandlers
import ReplicatedScheduler.Lib.Machine

/-!
# The remote scheduler of a client

`RemoteScheduler` with its two threads: the caller, which makes one call after the other, and
the handler of replies. They share the counter `req_id` and the future `cf`.

**Atomic steps.** A call sets `cf`, increments `req_id`, broadcasts its request under the number
that the increment returned, and waits for `cf`. The handler of a reply compares its id with
`req_id` and tests `cf`, completes `cf`, and increments `req_id`. The handlers of the three
replies have the same code.

**Sessions.** The machine `Session.machine` runs client processes one after another under the
same private group, so that a reply to a request of one process may reach a later one. It
records the requests sent and, with every reply, the request that it answers (`origin`), which no
code reads.
-/

namespace ReplicatedScheduler

open JavaLib Lib Lts

/-! ## Calls -/

inductive Call
  | newTask (url : Option JavaString)
  | getTask
  | endTask (t : Option Task)
  deriving DecidableEq, Repr

/-- The request that a call broadcasts. -/
def Call.request (id : JavaInt) : Call → Req
  | .newTask url => .newTaskReq id url
  | .getTask => .getTaskReq id
  | .endTask t => .endTaskReq id t

/-- What a call returns or throws. -/
inductive Outcome
  | returns
  | returnsTask (t : Option Task)
  | throws (e : JavaException)
  deriving DecidableEq, Repr

/-- What a call does with the reply that `cf` was completed with. A reply of another class fails
the cast, which the call catches, and then the access to the reply that was not assigned. -/
def Call.outcome (rep : Rep) : Call → Outcome
  | .newTask url =>
    match rep with
    | .newTaskRep _ res =>
      if res then .returns
      else .throws ⟨.repeatedTaskException, some (str "Repeated task: " ++ showNullable url ++ str ".")⟩
    | _ => .throws ⟨.nullPointerException, none⟩
  | .getTask =>
    match rep with
    | .getTaskRep _ res status =>
      if status then .returnsTask res
      else .throws ⟨.noSuchElementException, some (str "Empty Queue.")⟩
    | _ => .throws ⟨.nullPointerException, none⟩
  | .endTask _ =>
    match rep with
    | .endTaskRep _ res =>
      if res then .returns
      else .throws ⟨.noSuchElementException, some (str "The task isn't marked as pending.")⟩
    | _ => .throws ⟨.nullPointerException, none⟩

/-- A reply of the class and with the id that a server answers a request with. -/
def Rep.RepliesTo : Req → Rep → Prop
  | .newTaskReq id _, .newTaskRep id' _ => id' = id
  | .getTaskReq id, .getTaskRep id' _ _ => id' = id
  | .endTaskReq id _, .endTaskRep id' _ => id' = id
  | _, _ => False

instance : ∀ (req : Req) (rep : Rep), Decidable (rep.RepliesTo req)
  | .newTaskReq _ _, .newTaskRep _ _ | .newTaskReq _ _, .getTaskRep _ _ _
  | .newTaskReq _ _, .endTaskRep _ _ | .getTaskReq _, .newTaskRep _ _
  | .getTaskReq _, .getTaskRep _ _ _ | .getTaskReq _, .endTaskRep _ _
  | .endTaskReq _ _, .newTaskRep _ _ | .endTaskReq _ _, .getTaskRep _ _ _
  | .endTaskReq _ _, .endTaskRep _ _ => by unfold Rep.RepliesTo; infer_instance

theorem Rep.RepliesTo.id_eq {req : Req} {rep : Rep} (h : rep.RepliesTo req) : rep.id = req.id := by
  cases req <;> cases rep <;> first | exact h | exact h.elim

@[simp] theorem Call.request_id (call : Call) (id : JavaInt) : (call.request id).id = id := by
  cases call <;> rfl

/-! ## The two threads -/

/-- A reply with the number of the request that it answers. -/
structure Answer where
  rep : Rep
  origin : ℕ
  deriving DecidableEq, Repr

/-- Where the caller is. -/
inductive Caller
  | idle
  | cfSet (call : Call)
  | incremented (call : Call) (id : JavaInt)
  | waiting (call : Call) (id : JavaInt)
  deriving DecidableEq, Repr

/-- Where the handler is. -/
inductive Handler
  | idle
  | matched (a : Answer)
  | completed (a : Answer)
  deriving DecidableEq, Repr

/-- The reply that the handler has completed `cf` with. -/
def Handler.reply : Handler → Option Answer
  | .completed a => some a
  | _ => none

theorem Handler.reply_eq_none (h : Handler) : h.reply = none ↔ ∀ a, h ≠ .completed a := by
  cases h <;> simp [reply]

structure RemoteScheduler where
  reqId : JavaInt
  /-- Null, incomplete, or completed with a reply. -/
  cf : Option (Option Answer)
  caller : Caller
  handler : Handler
  deriving DecidableEq, Repr

namespace RemoteScheduler

/-- A new client process. -/
def start : RemoteScheduler := ⟨0, none, .idle, .idle⟩

inductive Action
  | setCf (call : Call)
  | increment
  | broadcast
  | get
  | compare (a : Answer)
  | complete
  | handlerIncrement
  deriving DecidableEq

/-- The handler takes a reply up: `msg.id == req_id.intValue() && cf != null`. -/
def TakesUp (c : RemoteScheduler) (a : Answer) : Prop := a.rep.id = c.reqId ∧ c.cf ≠ none

instance (c : RemoteScheduler) (a : Answer) : Decidable (c.TakesUp a) :=
  inferInstanceAs (Decidable (_ ∧ _))

def step (c : RemoteScheduler) : Action → Option RemoteScheduler
  | .setCf call =>
    match c.caller with
    | .idle => some { c with cf := some none, caller := .cfSet call }
    | _ => none
  | .increment =>
    match c.caller with
    | .cfSet call =>
      some { c with reqId := c.reqId + 1, caller := .incremented call (c.reqId + 1) }
    | _ => none
  | .broadcast =>
    match c.caller with
    | .incremented call id => some { c with caller := .waiting call id }
    | _ => none
  | .get =>
    match c.caller, c.cf with
    | .waiting _ _, some (some _) => some { c with caller := .idle }
    | _, _ => none
  | .compare a =>
    match c.handler with
    | .idle => some (if c.TakesUp a then { c with handler := .matched a } else c)
    | _ => none
  | .complete =>
    match c.handler with
    | .matched a =>
      -- a future that is complete stays as it is
      some { c with cf := c.cf.map fun r => some (r.getD a), handler := .completed a }
    | _ => none
  | .handlerIncrement =>
    match c.handler with
    | .completed _ => some { c with reqId := c.reqId + 1, handler := .idle }
    | _ => none

/-- The steps, one rule for each. -/
inductive Step : RemoteScheduler → Action → RemoteScheduler → Prop
  | setCf {c : RemoteScheduler} (call : Call) (h : c.caller = .idle) :
      Step c (.setCf call) { c with cf := some none, caller := .cfSet call }
  | increment {c : RemoteScheduler} (call : Call) (h : c.caller = .cfSet call) :
      Step c .increment
        { c with reqId := c.reqId + 1, caller := .incremented call (c.reqId + 1) }
  | broadcast {c : RemoteScheduler} (call : Call) (id : JavaInt)
      (h : c.caller = .incremented call id) : Step c .broadcast { c with caller := .waiting call id }
  | get {c : RemoteScheduler} (call : Call) (id : JavaInt) (a : Answer)
      (h : c.caller = .waiting call id) (hcf : c.cf = some (some a)) :
      Step c .get { c with caller := .idle }
  | takeUp {c : RemoteScheduler} (a : Answer) (h : c.handler = .idle) (ht : c.TakesUp a) :
      Step c (.compare a) { c with handler := .matched a }
  | passOver {c : RemoteScheduler} (a : Answer) (h : c.handler = .idle) (ht : ¬ c.TakesUp a) :
      Step c (.compare a) c
  | complete {c : RemoteScheduler} (a : Answer) (h : c.handler = .matched a) :
      Step c .complete { c with cf := c.cf.map fun r => some (r.getD a), handler := .completed a }
  | handlerIncrement {c : RemoteScheduler} (a : Answer) (h : c.handler = .completed a) :
      Step c .handlerIncrement { c with reqId := c.reqId + 1, handler := .idle }

theorem step_cases {c c' : RemoteScheduler} {a : Action} (h : c.step a = some c') : Step c a c' := by
  cases a with
  | setCf call =>
    simp only [step] at h
    split at h
    · next hc => cases h; exact .setCf call hc
    · cases h
  | increment =>
    simp only [step] at h
    split at h
    · next call hc => cases h; exact .increment call hc
    · cases h
  | broadcast =>
    simp only [step] at h
    split at h
    · next call id hc => cases h; exact .broadcast call id hc
    · cases h
  | get =>
    simp only [step] at h
    split at h
    · next call id a hc hcf => cases h; exact .get call id a hc hcf
    · cases h
  | compare a =>
    simp only [step] at h
    split at h
    · next hh =>
      cases h
      split_ifs with ht
      · exact .takeUp a hh ht
      · exact .passOver a hh ht
    · cases h
  | complete =>
    simp only [step] at h
    split at h
    · next a hh => cases h; exact .complete a hh
    · cases h
  | handlerIncrement =>
    simp only [step] at h
    split at h
    · next a hh => cases h; exact .handlerIncrement a hh
    · cases h

/-- The request that a step broadcasts. -/
def sends (c : RemoteScheduler) (a : Action) : List Req :=
  match a, c.caller with
  | .broadcast, .incremented call id => [call.request id]
  | _, _ => []

/-- The request whose reply the handler has finished with after a step. -/
def finishes (c : RemoteScheduler) (a : Action) : List ℕ :=
  match a, c.handler with
  | .compare a, .idle => if c.TakesUp a then [] else [a.origin]
  | .handlerIncrement, .completed a => [a.origin]
  | _, _ => []

/-- The call that a step completes, and the reply it completes with. -/
def returns (c : RemoteScheduler) (a : Action) : List (Call × Answer) :=
  match a, c.caller, c.cf with
  | .get, .waiting call _, some (some a) => [(call, a)]
  | _, _, _ => []

end RemoteScheduler

/-! ## Sessions -/

/-- A completed call: the number of its request, and the reply that it completed with. -/
structure Completion where
  number : ℕ
  call : Call
  answer : Answer
  deriving DecidableEq

/-- The client processes of one private group. The fields from `sent` on record the run. -/
structure Session where
  remote : RemoteScheduler
  /-- The requests broadcast so far, by this process and earlier ones. -/
  sent : List Req
  /-- The number of requests that earlier processes broadcast. -/
  earlier : ℕ
  /-- The requests of which a reply has been handled. -/
  handled : List ℕ
  completed : List Completion
  deriving DecidableEq

namespace Session

def start : Session := ⟨RemoteScheduler.start, [], 0, [], []⟩

inductive Action
  /-- The process ends and a new one starts. -/
  | restart
  | act (a : RemoteScheduler.Action)
  deriving DecidableEq

/-- Replies answer requests that were sent. -/
def Delivers (s : Session) : RemoteScheduler.Action → Prop
  | .compare a => ∃ req ∈ s.sent[a.origin]?, a.rep.RepliesTo req
  | _ => True

instance (s : Session) (a : RemoteScheduler.Action) : Decidable (s.Delivers a) := by
  unfold Delivers
  split <;> infer_instance

/-- The session after a step of its process. -/
def after (s : Session) (a : RemoteScheduler.Action) (remote : RemoteScheduler) : Session :=
  { s with
    remote := remote
    sent := s.sent ++ s.remote.sends a
    handled := s.handled ++ s.remote.finishes a
    completed := s.completed ++
      (s.remote.returns a).map fun r => ⟨s.sent.length - 1, r.1, r.2⟩ }

def step (s : Session) : Action → Option Session
  | .restart => some { s with remote := RemoteScheduler.start, earlier := s.sent.length }
  | .act a => if s.Delivers a then (s.remote.step a).map (s.after a) else none

def machine : Machine Session Action := ⟨start, step⟩

theorem step_act {s s' : Session} {a : RemoteScheduler.Action} (h : s.step (.act a) = some s') :
    s.Delivers a ∧ ∃ remote, s.remote.step a = some remote ∧ s' = s.after a remote := by
  simp only [step] at h
  split_ifs at h with hd
  obtain ⟨remote, hstep, rfl⟩ := Option.map_eq_some_iff.mp h
  exact ⟨hd, remote, hstep, rfl⟩

end Session

end ReplicatedScheduler
