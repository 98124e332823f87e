import ReplicatedScheduler.Serialization

/-!
# The wire format

`writeObject` and `readObject` of every class registered with the serializer, and the dispatch of
the serializer to them.

**Theorem (`wire_round_trip`).** What is written of an object reads back, by the object's class as
well as through the serializer, and leaves what follows. An object that contains no scheduler
reads back as itself. A scheduler reads back with its waiting list and with a map of the same
entries, whose iteration order may be another (`CatalystSerializable.Same`); its sizes must be
`int`s.
-/

namespace ReplicatedScheduler

open JavaLib Lib

/-- Catalyst with the primitive for booleans. -/
structure WireCatalyst (β : Type) extends Catalyst β where
  writeBoolean : Bool → List β
  readBoolean : List β → Option (Bool × List β)
  readBoolean_writeBoolean : ∀ b rest, readBoolean (writeBoolean b ++ rest) = some (b, rest)

/-- A boolean in one byte. -/
def WireCatalyst.bytes : WireCatalyst (BitVec 8) where
  toCatalyst := Catalyst.bytes
  writeBoolean b := [if b then 1 else 0]
  readBoolean input := input.head?.map fun b => (b ≠ 0, input.drop 1)
  readBoolean_writeBoolean b rest := by cases b <;> rfl

/-- The objects of the registered classes. A reference in them may be null. -/
inductive CatalystSerializable
  | newTaskReq (id : JavaInt) (url : Option JavaString)
  | getTaskReq (id : JavaInt)
  | endTaskReq (id : JavaInt) (t : Option Task)
  | clientFailure (client : Option JavaString)
  | stateReq
  | newTaskRep (id : JavaInt) (res : Bool)
  | getTaskRep (id : JavaInt) (res : Option Task) (status : Bool)
  | endTaskRep (id : JavaInt) (res : Bool)
  | stateRep (scheduler : Option SchedulerImp)
  | schedulerImp (scheduler : SchedulerImp)
  | task (t : Task)

namespace CatalystSerializable

def cls : CatalystSerializable → Registered
  | newTaskReq .. => .newTaskReq
  | getTaskReq .. => .getTaskReq
  | endTaskReq .. => .endTaskReq
  | clientFailure .. => .clientFailure
  | stateReq => .stateReq
  | newTaskRep .. => .newTaskRep
  | getTaskRep .. => .getTaskRep
  | endTaskRep .. => .endTaskRep
  | stateRep .. => .stateRep
  | schedulerImp .. => .schedulerImp
  | task .. => .task

variable {β : Type} (c : WireCatalyst β)

/-! ## Writing and reading -/

/-- `Serializer.writeObject` of a scheduler, which may be null. -/
def writeScheduler : Option SchedulerImp → List β
  | none => c.writeClass none
  | some s => c.writeClass (some .schedulerImp) ++ s.writeObject c.toCatalyst

/-- `Serializer.readObject` where a scheduler is expected. -/
def readScheduler (input : List β) : Option (Option SchedulerImp × List β) := do
  let (cls, input) ← c.readClass input
  match cls with
  | none => some (none, input)
  | some .schedulerImp =>
    let (s, input) ← SchedulerImp.readObject c.toCatalyst input
    some (some s, input)
  | some _ => none

/-- The `writeObject` of each class. -/
def writeObject : CatalystSerializable → List β
  | newTaskReq id url => c.writeInt id ++ c.writeString url
  | getTaskReq id => c.writeInt id
  | endTaskReq id t => c.writeInt id ++ Task.writeObject c.toCatalyst t
  | clientFailure client => c.writeString client
  | stateReq => []
  | newTaskRep id res => c.writeBoolean res ++ c.writeInt id
  | getTaskRep id res status =>
    c.writeInt id ++ Task.writeObject c.toCatalyst res ++ c.writeBoolean status
  | endTaskRep id res => c.writeBoolean res ++ c.writeInt id
  | stateRep scheduler => writeScheduler c scheduler
  | schedulerImp scheduler => scheduler.writeObject c.toCatalyst
  | task t => c.writeString t.url

/-- The `readObject` of each class, on a new instance. -/
def readObject : Registered → List β → Option (CatalystSerializable × List β)
  | .newTaskReq, input => do
    let (id, input) ← c.readInt input
    let (url, input) ← c.readString input
    some (newTaskReq id url, input)
  | .getTaskReq, input => do
    let (id, input) ← c.readInt input
    some (getTaskReq id, input)
  | .endTaskReq, input => do
    let (id, input) ← c.readInt input
    let (t, input) ← Task.readObject c.toCatalyst input
    some (endTaskReq id t, input)
  | .clientFailure, input => do
    let (client, input) ← c.readString input
    some (clientFailure client, input)
  | .stateReq, input => some (stateReq, input)
  | .newTaskRep, input => do
    let (res, input) ← c.readBoolean input
    let (id, input) ← c.readInt input
    some (newTaskRep id res, input)
  | .getTaskRep, input => do
    let (id, input) ← c.readInt input
    let (res, input) ← Task.readObject c.toCatalyst input
    let (status, input) ← c.readBoolean input
    some (getTaskRep id res status, input)
  | .endTaskRep, input => do
    let (res, input) ← c.readBoolean input
    let (id, input) ← c.readInt input
    some (endTaskRep id res, input)
  | .stateRep, input => do
    let (scheduler, input) ← readScheduler c input
    some (stateRep scheduler, input)
  | .schedulerImp, input => do
    let (scheduler, input) ← SchedulerImp.readObject c.toCatalyst input
    some (schedulerImp scheduler, input)
  | .task, input => do
    let (url, input) ← c.readString input
    some (task ⟨url⟩, input)

/-- `Serializer.writeObject`: null, or the class and what it writes. -/
def serialize : Option CatalystSerializable → List β
  | none => c.writeClass none
  | some o => c.writeClass (some o.cls) ++ o.writeObject c

/-- `Serializer.readObject`. -/
def deserialize (input : List β) : Option (Option CatalystSerializable × List β) := do
  let (cls, input) ← c.readClass input
  match cls with
  | none => some (none, input)
  | some cls =>
    let (o, input) ← readObject c cls input
    some (some o, input)

/-! ## The round trip -/

/-- Equal objects; schedulers with the same waiting list and the same entries. -/
def Same : CatalystSerializable → CatalystSerializable → Prop
  | schedulerImp s, schedulerImp s' | stateRep (some s), stateRep (some s') =>
    s'.waitingTasks = s.waitingTasks ∧
      ∀ e, e ∈ s'.processingTasks.entries ↔ e ∈ s.processingTasks.entries
  | o, o' => o' = o

/-- The sizes of the scheduler in an object, if there is one, are `int`s. -/
def SizesFit : CatalystSerializable → Prop
  | schedulerImp s | stateRep (some s) => s.SizesFit
  | _ => True

theorem readScheduler_writeScheduler {s : Option SchedulerImp} (hs : (stateRep s).SizesFit)
    (rest : List β) :
    readScheduler c (writeScheduler c s ++ rest) = some (s.map SchedulerImp.copy, rest) := by
  cases s with
  | none => simp [readScheduler, writeScheduler, c.readClass_writeClass]
  | some s =>
    simp [readScheduler, writeScheduler, c.readClass_writeClass,
      SchedulerImp.readObject_writeObject _ (s := s) hs]

theorem mem_entries_copy (s : SchedulerImp) (e : Task × SpreadGroup) :
    e ∈ s.copy.processingTasks.entries ↔ e ∈ s.processingTasks.entries :=
  HashMap.mem_entries_ofEntries s.processingTasks.nodup_keys

/-- What is read of an object: the object with its schedulers copied. -/
def received : CatalystSerializable → CatalystSerializable
  | stateRep s => stateRep (s.map SchedulerImp.copy)
  | schedulerImp s => schedulerImp s.copy
  | o => o

theorem same_received (o : CatalystSerializable) : o.Same o.received := by
  cases o with
  | schedulerImp s => exact ⟨rfl, mem_entries_copy s⟩
  | stateRep s =>
    cases s with
    | none => rfl
    | some s => exact ⟨rfl, mem_entries_copy s⟩
  | _ => rfl

theorem readObject_writeObject {o : CatalystSerializable} (ho : o.SizesFit) (rest : List β) :
    readObject c o.cls (o.writeObject c ++ rest) = some (o.received, rest) := by
  cases o with
  | newTaskReq id url | getTaskReq id | endTaskReq id t | clientFailure client | stateReq
  | newTaskRep id res | getTaskRep id res status | endTaskRep id res | task t =>
    simp [readObject, writeObject, cls, received, c.readInt_writeInt, c.readString_writeString,
      c.readBoolean_writeBoolean, Task.readObject_writeObject]
  | stateRep s => simp [readObject, writeObject, cls, received, readScheduler_writeScheduler c ho]
  | schedulerImp s =>
    simp [readObject, writeObject, cls, received, SchedulerImp.readObject_writeObject _ (s := s) ho]

theorem deserialize_serialize {o : CatalystSerializable} (ho : o.SizesFit) (rest : List β) :
    deserialize c (serialize c (some o) ++ rest) = some (some o.received, rest) := by
  simp [deserialize, serialize, c.readClass_writeClass, readObject_writeObject c ho]

end CatalystSerializable

open CatalystSerializable

/-- **The wire format round-trips.** For every object of a registered class whose sizes are `int`s,
and whatever follows it, by the object's own methods and through the serializer; and for null
through the serializer. -/
theorem wire_round_trip {β : Type} (c : WireCatalyst β) (rest : List β) :
    (∀ o : CatalystSerializable, o.SizesFit → ∃ o' : CatalystSerializable, o.Same o' ∧
      readObject c o.cls (o.writeObject c ++ rest) = some (o', rest) ∧
      deserialize c (serialize c (some o) ++ rest) = some (some o', rest)) ∧
    deserialize c (serialize c none ++ rest) = some (none, rest) := by
  refine ⟨fun o ho => ⟨o.received, o.same_received, readObject_writeObject c ho rest,
    deserialize_serialize c ho rest⟩, ?_⟩
  simp [deserialize, serialize, c.readClass_writeClass]

/-- The state of a scheduler with a task that waits and one that is processed, in bytes. -/
theorem wire_round_trip_stateRep : ∃ o' : CatalystSerializable,
    (stateRep (some ⟨[⟨some (str "u")⟩],
      HashMap.empty.put ⟨some (str "v")⟩ (str "c")⟩)).Same o' ∧
    deserialize WireCatalyst.bytes (serialize WireCatalyst.bytes (some (stateRep
      (some ⟨[⟨some (str "u")⟩], HashMap.empty.put ⟨some (str "v")⟩ (str "c")⟩))) ++ [7, 9]) =
        some (some o', [7, 9]) := by
  have hfits : SchedulerImp.SizesFit
      ⟨[⟨some (str "u")⟩], HashMap.empty.put ⟨some (str "v")⟩ (str "c")⟩ := by decide +kernel
  obtain ⟨o', hsame, -, hread⟩ :=
    (wire_round_trip WireCatalyst.bytes [7, 9]).1 (stateRep (some _)) hfits
  exact ⟨o', hsame, hread⟩

/-- A reply without a task, and what follows it. -/
example : deserialize WireCatalyst.bytes (serialize WireCatalyst.bytes
    (some (.getTaskRep 7 none false)) ++ [9]) =
      some (some (.getTaskRep 7 none false), [9]) := rfl

end ReplicatedScheduler
