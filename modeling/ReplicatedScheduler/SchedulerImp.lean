import ReplicatedScheduler.Lib.Java
import ReplicatedScheduler.Lib.WorkQueue

/-!
# The scheduler of one server

`SchedulerImp` keeps the tasks that wait in a linked list and the tasks that are being processed
in a hash map from the task to the private group of the client that has it.

**Exceptions.** A method that may throw gives an `Except`. `shiftTasksFromClient` changes the
scheduler before it may throw, so it gives the scheduler it leaves behind beside the exception.

**The loop of `shiftTasksFromClient`** removes from the map it iterates over. The iterator of a
`java.util.HashMap` looks one entry ahead and is fail-fast: asked for another entry after such a
removal, it throws. So the loop moves at most one task, and ends normally only if that task came
last (`shiftTasksFromClient_cases`). `shiftAllTasksFromClient` is the loop without that check.

**The ledger.** What a scheduler is as a work queue: the tasks that wait and, as a mapping, who
has the others. Every method acts on the ledger as one of the operations of `Lib.WorkQueue`.
-/

namespace ReplicatedScheduler

open JavaLib Lib

/-- A task is its url, which may be null; `equals` and `hashCode` are those of the url. -/
structure Task where
  url : Option JavaString
  deriving DecidableEq, Repr

instance : HashCode Task := ⟨fun t => objectsHash t.url⟩

/-- A private group of Spread, by its name. -/
abbrev SpreadGroup := JavaString

structure SchedulerImp where
  waitingTasks : List Task
  processingTasks : HashMap Task SpreadGroup
  deriving DecidableEq

namespace SchedulerImp

/-- `new SchedulerImp()`. -/
def empty : SchedulerImp := ⟨[], HashMap.empty⟩

/-! ## The methods -/

/-- The loop of both duplicate checks, `task.getUrl().equals(url)` on each task in turn. -/
def containsUrl (url : Option JavaString) : List Task → Except JavaException Bool
  | [] => .ok false
  | t :: ts =>
    match t.url with
    | none => .error ⟨.nullPointerException, none⟩
    | some u => if some u = url then .ok true else containsUrl url ts

def waitingTasksContains (s : SchedulerImp) (url : Option JavaString) : Except JavaException Bool :=
  containsUrl url s.waitingTasks

def processingTasksContains (s : SchedulerImp) (url : Option JavaString) :
    Except JavaException Bool :=
  containsUrl url s.processingTasks.keys

/-- Add a new task to process. -/
def newTask (s : SchedulerImp) (url : Option JavaString) : Except JavaException SchedulerImp := do
  let waiting ← s.waitingTasksContains url
  let repeated ← if waiting then pure true else s.processingTasksContains url
  if repeated then
    throw ⟨.repeatedTaskException, some (str "Repeated url: " ++ showNullable url)⟩
  else
    return { s with waitingTasks := s.waitingTasks ++ [⟨url⟩] }

/-- Get the next task to be processed, `waiting_tasks.removeFirst()`. -/
def getTask (s : SchedulerImp) : Except JavaException (Task × SchedulerImp) :=
  match s.waitingTasks with
  | [] => .error ⟨.noSuchElementException, none⟩
  | t :: ts => .ok (t, { s with waitingTasks := ts })

def processTask (s : SchedulerImp) (client : SpreadGroup) (task : Task) : SchedulerImp :=
  { s with processingTasks := s.processingTasks.put task client }

/-- End a task, `processing_tasks.remove(t)`, whose result the method drops: it declares
`NoSuchElementException` and never throws. -/
def endTask (s : SchedulerImp) (t : Option Task) : Except JavaException SchedulerImp :=
  match t with
  | none => .ok s
  | some t => .ok { s with processingTasks := s.processingTasks.remove t }

/-- One entry of the loop: `waiting_tasks.addFirst`, then `processing_tasks.remove`. -/
def shiftTask (s : SchedulerImp) (task : Task) : SchedulerImp :=
  { waitingTasks := task :: s.waitingTasks, processingTasks := s.processingTasks.remove task }

/-- The loop of `shiftTasksFromClient` over the entries still to come. `modified` says that the
map has been changed since the iterator was made. -/
def shiftLoop (client : Option SpreadGroup) :
    List (Task × SpreadGroup) → Bool → SchedulerImp → SchedulerImp × Option JavaException
  | [], _, s => (s, none)
  | _ :: _, true, s => (s, some ⟨.concurrentModificationException, none⟩)
  | e :: es, false, s =>
    if some e.2 = client then shiftLoop client es true (s.shiftTask e.1)
    else shiftLoop client es false s

/-- Shift client tasks from processing to waiting. -/
def shiftTasksFromClient (s : SchedulerImp) (client : Option SpreadGroup) :
    SchedulerImp × Option JavaException :=
  shiftLoop client s.processingTasks.entries false s

/-- The same loop over entries that stay valid: all tasks of the client are moved. -/
def shiftAllTasksFromClient (s : SchedulerImp) (client : Option SpreadGroup) :
    SchedulerImp × Option JavaException :=
  ((s.processingTasks.entries.filter fun e => some e.2 = client).foldl
    (fun s e => s.shiftTask e.1) s, none)

/-! ## The duplicate checks -/

/-- The tasks that end a duplicate check. -/
def stops (url : Option JavaString) (t : Task) : Bool := t.url = none ∨ t.url = url

/-- The check looks for the first such task, and fails if its url is null. -/
theorem containsUrl_eq (url : Option JavaString) (ts : List Task) :
    containsUrl url ts = match ts.find? (stops url) with
      | none => .ok false
      | some t => if t.url = none then .error ⟨.nullPointerException, none⟩ else .ok true := by
  induction ts with
  | nil => rfl
  | cons t ts ih =>
    cases hu : t.url with
    | none => simp [containsUrl, stops, hu]
    | some u =>
      by_cases hurl : some u = url
      · subst hurl
        simp [containsUrl, stops, hu]
      · have hstops : stops url t = false := by simp [stops, hu, hurl]
        simp only [containsUrl, hu, if_neg hurl, ih, List.find?_cons, hstops]

/-- The tasks that a scheduler holds, waiting or processing. -/
def tasks (s : SchedulerImp) : List Task := s.waitingTasks ++ s.processingTasks.keys

/-- A url is new when no task held has it, and the checks meet no null url. -/
def IsNew (s : SchedulerImp) (url : Option JavaString) : Prop :=
  ∀ t ∈ s.tasks, t.url ≠ none ∧ t.url ≠ url

instance (s : SchedulerImp) (url : Option JavaString) : Decidable (s.IsNew url) :=
  inferInstanceAs (Decidable (∀ t ∈ s.tasks, t.url ≠ none ∧ t.url ≠ url))

/-- The checks for a url meet a task with a null url first. -/
def MeetsNull (s : SchedulerImp) (url : Option JavaString) : Prop :=
  ∃ t, s.tasks.find? (stops url) = some t ∧ t.url = none

instance (s : SchedulerImp) (url : Option JavaString) : Decidable (s.MeetsNull url) :=
  decidable_of_iff ((s.tasks.find? (stops url)).any (fun t => decide (t.url = none)) = true) (by
    rw [Option.any_eq_true]
    simp only [decide_eq_true_eq, MeetsNull])

theorem isNew_iff_find? (s : SchedulerImp) (url : Option JavaString) :
    s.IsNew url ↔ s.tasks.find? (stops url) = none := by
  simp only [IsNew, stops, List.find?_eq_none, decide_eq_true_eq, not_or, ne_eq]

/-- Both checks together are one check of all tasks. -/
theorem newTask_eq (s : SchedulerImp) (url : Option JavaString) :
    s.newTask url = match s.tasks.find? (stops url) with
      | none => .ok { s with waitingTasks := s.waitingTasks ++ [⟨url⟩] }
      | some t =>
        if t.url = none then .error ⟨.nullPointerException, none⟩
        else .error ⟨.repeatedTaskException, some (str "Repeated url: " ++ showNullable url)⟩ := by
  rw [newTask, waitingTasksContains, processingTasksContains, containsUrl_eq, containsUrl_eq,
    tasks, List.find?_append]
  cases s.waitingTasks.find? (stops url) with
  | some t =>
    by_cases hnull : t.url = none <;>
      simp [hnull, bind, Except.bind, pure, Except.pure, throw, throwThe, MonadExceptOf.throw]
  | none =>
    cases s.processingTasks.keys.find? (stops url) with
    | some t =>
      by_cases hnull : t.url = none <;>
        simp [hnull, bind, Except.bind, throw, throwThe, MonadExceptOf.throw]
    | none => rfl

/-- What `newTask` does: it accepts a new url, and otherwise throws. -/
theorem newTask_cases (s : SchedulerImp) (url : Option JavaString) :
    (s.IsNew url ∧ s.newTask url = .ok { s with waitingTasks := s.waitingTasks ++ [⟨url⟩] }) ∨
      (¬ s.IsNew url ∧ (∃ t ∈ s.tasks, t.url = url) ∧ s.newTask url =
        .error ⟨.repeatedTaskException, some (str "Repeated url: " ++ showNullable url)⟩) ∨
      (¬ s.IsNew url ∧ s.newTask url = .error ⟨.nullPointerException, none⟩) := by
  rw [isNew_iff_find?, newTask_eq]
  cases h : s.tasks.find? (stops url) with
  | none => exact Or.inl ⟨rfl, rfl⟩
  | some t =>
    by_cases hnull : t.url = none
    · exact Or.inr (Or.inr ⟨by simp, if_pos hnull⟩)
    · have hstops := List.find?_some h
      simp only [stops, decide_eq_true_eq, hnull, false_or] at hstops
      exact Or.inr (Or.inl ⟨by simp, ⟨t, List.mem_of_find?_eq_some h, hstops⟩, if_neg hnull⟩)

theorem meetsNull_iff (s : SchedulerImp) (url : Option JavaString) :
    s.MeetsNull url ↔ s.newTask url = .error ⟨.nullPointerException, none⟩ := by
  rw [MeetsNull, newTask_eq]
  cases s.tasks.find? (stops url) with
  | none => simp
  | some t => by_cases hnull : t.url = none <;> simp [hnull]

/-! ## The loop of `shiftTasksFromClient` -/

theorem shiftLoop_cases (client : Option SpreadGroup) (es : List (Task × SpreadGroup))
    (s : SchedulerImp) :
    ((∀ e ∈ es, some e.2 ≠ client) ∧ shiftLoop client es false s = (s, none)) ∨
      ∃ pre e post, es = pre ++ e :: post ∧ (∀ x ∈ pre, some x.2 ≠ client) ∧ some e.2 = client ∧
        shiftLoop client es false s = (s.shiftTask e.1,
          if post = [] then none else some ⟨.concurrentModificationException, none⟩) := by
  induction es with
  | nil => exact Or.inl ⟨by simp, rfl⟩
  | cons a es ih =>
    by_cases ha : some a.2 = client
    · refine Or.inr ⟨[], a, es, rfl, by simp, ha, ?_⟩
      rw [shiftLoop, if_pos ha]
      cases es <;> rfl
    · rw [shiftLoop, if_neg ha]
      rcases ih with ⟨hes, h⟩ | ⟨pre, e, post, rfl, hpre, he, h⟩
      · exact Or.inl ⟨by simpa [ha] using hes, h⟩
      · exact Or.inr ⟨a :: pre, e, post, rfl, by simpa [ha] using hpre, he, h⟩

/-- `shiftTasksFromClient` leaves the scheduler as it is when the client has no task, and
otherwise moves the client's first task in iteration order. It throws unless that task is the
last of the map. -/
theorem shiftTasksFromClient_cases (s : SchedulerImp) (client : Option SpreadGroup) :
    ((∀ t, s.processingTasks.get? t = none ∨ s.processingTasks.get? t ≠ client) ∧
        s.shiftTasksFromClient client = (s, none)) ∨
      ∃ pre t c post, s.processingTasks.entries = pre ++ (t, c) :: post ∧
        (∀ x ∈ pre, x.2 ≠ c) ∧ client = some c ∧ s.processingTasks.get? t = some c ∧
        s.shiftTasksFromClient client = (s.shiftTask t,
          if post = [] then none else some ⟨.concurrentModificationException, none⟩) := by
  rcases shiftLoop_cases client s.processingTasks.entries s with
    ⟨hes, h⟩ | ⟨pre, e, post, hes, hpre, he, h⟩
  · refine Or.inl ⟨fun t => ?_, h⟩
    cases hget : s.processingTasks.get? t with
    | none => exact Or.inl rfl
    | some c => exact Or.inr (hes _ (HashMap.get?_eq_some.mp hget))
  · refine Or.inr ⟨pre, e.1, e.2, post, hes, fun x hx hxe => hpre x hx (by rw [hxe, he]),
      he.symm, HashMap.get?_eq_some.mpr ?_, h⟩
    rw [hes]
    simp

/-! ## The ledger -/

/-- The scheduler as a work queue. -/
def ledger (s : SchedulerImp) : WorkQueue Task SpreadGroup :=
  ⟨s.waitingTasks, s.processingTasks.get?⟩

@[simp] theorem ledger_waiting (s : SchedulerImp) : s.ledger.waiting = s.waitingTasks := rfl

@[simp] theorem ledger_holder (s : SchedulerImp) (t : Task) :
    s.ledger.holder t = s.processingTasks.get? t := rfl

@[simp] theorem ledger_empty : empty.ledger = ⟨[], fun _ => none⟩ := by
  ext <;> simp [ledger, empty]

theorem mem_tasks {s : SchedulerImp} {t : Task} :
    t ∈ s.tasks ↔ s.ledger.Has t := by
  rw [tasks, List.mem_append, WorkQueue.Has, ledger_waiting, ledger_holder, ne_eq,
    HashMap.get?_eq_none, not_not]

theorem count_eq_zero_of_isNew {s : SchedulerImp} {url : Option JavaString} (h : s.IsNew url) :
    s.ledger.count ⟨url⟩ = 0 := by
  rw [WorkQueue.count_eq_zero, ← mem_tasks]
  exact fun hmem => (h _ hmem).2 rfl

theorem ledger_addTask (s : SchedulerImp) (t : Task) :
    SchedulerImp.ledger { s with waitingTasks := s.waitingTasks ++ [t] } = s.ledger.add t := rfl

theorem ledger_processTask (s : SchedulerImp) (client : SpreadGroup) (t : Task) :
    (s.processTask client t).ledger =
      ⟨s.waitingTasks, Function.update s.ledger.holder t (some client)⟩ := by
  refine WorkQueue.ext rfl ?_
  funext t'
  simp only [ledger_holder, processTask, HashMap.get?_put, Function.update_apply]

theorem ledger_remove (s : SchedulerImp) (t : Task) :
    SchedulerImp.ledger { s with processingTasks := s.processingTasks.remove t } =
      s.ledger.finish t := by
  refine WorkQueue.ext rfl ?_
  funext t'
  simp only [ledger_holder, HashMap.get?_remove, WorkQueue.finish, Function.update_apply]

theorem ledger_shiftTask (s : SchedulerImp) (t : Task) :
    (s.shiftTask t).ledger = s.ledger.giveBack t := by
  refine WorkQueue.ext rfl ?_
  funext t'
  simp only [ledger_holder, shiftTask, HashMap.get?_remove, WorkQueue.giveBack,
    Function.update_apply]

/-- Handing the first task to a client, as the handlers do. -/
theorem ledger_getTask {s s' : SchedulerImp} {t : Task} (h : s.getTask = .ok (t, s'))
    (client : SpreadGroup) :
    s.waitingTasks = t :: s'.waitingTasks ∧
      (s'.processTask client t).ledger = s.ledger.handOut client := by
  unfold getTask at h
  cases hw : s.waitingTasks with
  | nil =>
    rw [hw] at h
    cases h
  | cons a ts =>
    rw [hw] at h
    cases h
    refine ⟨rfl, ?_⟩
    rw [ledger_processTask, WorkQueue.handOut, ledger_waiting, hw]
    rfl

theorem processingTasks_getTask {s s' : SchedulerImp} {t : Task} (h : s.getTask = .ok (t, s')) :
    s'.processingTasks = s.processingTasks := by
  unfold getTask at h
  cases hw : s.waitingTasks with
  | nil =>
    rw [hw] at h
    cases h
  | cons a ts =>
    rw [hw] at h
    cases h
    rfl

theorem getTask_eq_error {s : SchedulerImp} {e : JavaException} (h : s.getTask = .error e) :
    s.waitingTasks = [] ∧ e = ⟨.noSuchElementException, none⟩ := by
  unfold getTask at h
  cases hw : s.waitingTasks with
  | nil =>
    rw [hw] at h
    cases h
    exact ⟨rfl, rfl⟩
  | cons a ts =>
    rw [hw] at h
    cases h

/-! ## The loop over entries that stay valid -/

theorem ledger_shiftAllTasksFromClient (s : SchedulerImp) (client : Option SpreadGroup) :
    (s.shiftAllTasksFromClient client).1.ledger = s.ledger.giveBackAll
      ((s.processingTasks.entries.filter fun e => some e.2 = client).map Prod.fst) := by
  show ((s.processingTasks.entries.filter _).foldl (fun s e => s.shiftTask e.1) s).ledger = _
  generalize s.processingTasks.entries.filter _ = es
  induction es generalizing s with
  | nil => rfl
  | cons e es ih =>
    rw [List.foldl_cons, ih, ledger_shiftTask]
    rfl

theorem mem_shifted {s : SchedulerImp} {client : Option SpreadGroup} {t : Task} :
    t ∈ (s.processingTasks.entries.filter fun e => some e.2 = client).map Prod.fst ↔
      s.ledger.holder t ≠ none ∧ s.ledger.holder t = client := by
  simp only [List.mem_map, List.mem_filter, decide_eq_true_eq, ledger_holder]
  constructor
  · rintro ⟨e, ⟨he, rfl⟩, rfl⟩
    rw [HashMap.get?_eq_some.mpr he]
    exact ⟨Option.some_ne_none _, rfl⟩
  · rintro ⟨hne, rfl⟩
    obtain ⟨c, hc⟩ := Option.ne_none_iff_exists'.mp hne
    exact ⟨(t, c), ⟨HashMap.get?_eq_some.mp hc, hc.symm⟩, rfl⟩

/-- All tasks of the client are taken from it, and no other. -/
theorem holder_shiftAllTasksFromClient (s : SchedulerImp) (client : Option SpreadGroup) (t : Task) :
    (s.shiftAllTasksFromClient client).1.ledger.holder t =
      if s.ledger.holder t = client then none else s.ledger.holder t := by
  rw [ledger_shiftAllTasksFromClient, WorkQueue.holder_giveBackAll]
  simp only [mem_shifted]
  generalize s.ledger.holder t = holder
  cases holder <;> simp

theorem unique_shiftAllTasksFromClient {s : SchedulerImp} (h : s.ledger.Unique)
    (client : Option SpreadGroup) : (s.shiftAllTasksFromClient client).1.ledger.Unique := by
  rw [ledger_shiftAllTasksFromClient]
  refine h.giveBackAll ?_ fun t ht => (mem_shifted.mp ht).1
  exact s.processingTasks.nodup_keys.sublist (List.filter_sublist.map _)

end SchedulerImp

end ReplicatedScheduler
