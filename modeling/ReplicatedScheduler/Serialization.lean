import ReplicatedScheduler.Lib.Bytes
import ReplicatedScheduler.SchedulerImp

/-!
# Writing and reading a scheduler

`writeObject` and `readObject` of `Task` and `SchedulerImp`, over the buffers and the serializer
of catalyst. Those are a parameter, `Catalyst`, with the laws that the code relies on: what a
primitive writes, its counterpart reads back, and leaves what follows. `Catalyst.bytes` is one with
an `int` in four bytes.

**Theorem (`SchedulerImp.readObject_writeObject`).** Reading what was written of a scheduler gives
its waiting list, and a map filled anew with the entries in iteration order (`copy`). The sizes are
written as `int`s, so there must be fewer than `2 ^ 31` tasks in each (`SizesFit`).
-/

namespace ReplicatedScheduler

open JavaLib Lib

/-- The classes registered with the serializer. -/
inductive Registered
  | newTaskReq | getTaskReq | endTaskReq | clientFailure | stateReq
  | newTaskRep | getTaskRep | endTaskRep | stateRep
  | schedulerImp | task
  deriving DecidableEq

/-- Catalyst's buffers and serializer, over bytes `β`. -/
structure Catalyst (β : Type) where
  writeInt : JavaInt → List β
  readInt : List β → Option (JavaInt × List β)
  writeString : Option JavaString → List β
  readString : List β → Option (Option JavaString × List β)
  /-- What `Serializer.writeObject` writes before an object: null, or the object's class. -/
  writeClass : Option Registered → List β
  readClass : List β → Option (Option Registered × List β)
  readInt_writeInt : ∀ i rest, readInt (writeInt i ++ rest) = some (i, rest)
  readString_writeString : ∀ s rest, readString (writeString s ++ rest) = some (s, rest)
  readClass_writeClass : ∀ c rest, readClass (writeClass c ++ rest) = some (c, rest)

namespace Catalyst

/-! ### Catalyst's primitives in bytes

A code unit takes three bytes, the first of which is 1, and three zeros end the string. -/

def writeUnits : JavaString → Bytes
  | [] => [0, 0, 0]
  | u :: us => 1 :: (u >>> 8).setWidth 8 :: u.setWidth 8 :: writeUnits us

def readUnits : Bytes → Option (JavaString × Bytes)
  | more :: high :: low :: rest =>
    if more = 0 then some ([], rest)
    else (readUnits rest).map fun r => ((high ++ low) :: r.1, r.2)
  | _ => none

theorem readUnits_writeUnits (s : JavaString) (rest : Bytes) :
    readUnits (writeUnits s ++ rest) = some (s, rest) := by
  induction s with
  | nil => rfl
  | cons u us ih =>
    have hone : (1 : BitVec 8) ≠ 0 := by decide
    have hunit : (u >>> 8).setWidth 8 ++ u.setWidth 8 = u := by
      ext i hi
      simp only [BitVec.getElem_append, BitVec.getElem_setWidth, BitVec.getLsbD_ushiftRight]
      grind
    rw [writeUnits, List.cons_append, List.cons_append, List.cons_append, readUnits, if_neg hone,
      ih, Option.map_some, hunit]

/-- A 1 before a string, and a 0 for null. -/
def writeNullable : Option JavaString → Bytes
  | none => [0]
  | some s => 1 :: writeUnits s

def readNullable : Bytes → Option (Option JavaString × Bytes)
  | [] => none
  | flag :: rest =>
    if flag = 0 then some (none, rest) else (readUnits rest).map fun r => (some r.1, r.2)

theorem readNullable_writeNullable (s : Option JavaString) (rest : Bytes) :
    readNullable (writeNullable s ++ rest) = some (s, rest) := by
  cases s with
  | none => rfl
  | some s =>
    have hone : (1 : BitVec 8) ≠ 0 := by decide
    rw [writeNullable, List.cons_append, readNullable, if_neg hone, readUnits_writeUnits,
      Option.map_some]

/-- The registered classes by number. -/
def registered : List Registered :=
  [.newTaskReq, .getTaskReq, .endTaskReq, .clientFailure, .stateReq, .newTaskRep, .getTaskRep,
    .endTaskRep, .stateRep, .schedulerImp, .task]

/-- The number of a class, and 0 for null. -/
def writeNumber : Option Registered → Bytes
  | none => [0]
  | some c => [BitVec.ofNat 8 (registered.idxOf c + 1)]

def readNumber : Bytes → Option (Option Registered × Bytes)
  | [] => none
  | number :: rest =>
    if number = 0 then some (none, rest)
    else registered[number.toNat - 1]?.map fun c => (some c, rest)

theorem readNumber_writeNumber (c : Option Registered) (rest : Bytes) :
    readNumber (writeNumber c ++ rest) = some (c, rest) := by
  cases c with
  | none => rfl
  | some c => cases c <;> rfl

/-- Catalyst's primitives in bytes, with an `int` in four of them. -/
def bytes : Catalyst (BitVec 8) where
  writeInt := ByteOrder.big.write
  readInt := ByteOrder.big.read
  writeString := writeNullable
  readString := readNullable
  writeClass := writeNumber
  readClass := readNumber
  readInt_writeInt i rest := by rw [ByteOrder.read_write, ByteOrder.seen_self]
  readString_writeString := readNullable_writeNullable
  readClass_writeClass := readNumber_writeNumber

end Catalyst

variable {β : Type}

/-! ## Tasks -/

/-- `Serializer.writeObject` of a task, which may be null. -/
def Task.writeObject (c : Catalyst β) : Option Task → List β
  | none => c.writeClass none
  | some t => c.writeClass (some .task) ++ c.writeString t.url

/-- `Serializer.readObject` where a task is expected. -/
def Task.readObject (c : Catalyst β) (input : List β) : Option (Option Task × List β) := do
  let (cls, input) ← c.readClass input
  match cls with
  | none => some (none, input)
  | some .task =>
    let (url, input) ← c.readString input
    some (some ⟨url⟩, input)
  | some _ => none

theorem Task.readObject_writeObject (c : Catalyst β) (t : Option Task) (rest : List β) :
    Task.readObject c (Task.writeObject c t ++ rest) = some (t, rest) := by
  cases t with
  | none => simp [Task.readObject, Task.writeObject, c.readClass_writeClass]
  | some t =>
    simp [Task.readObject, Task.writeObject, c.readClass_writeClass, c.readString_writeString]

/-! ## Schedulers -/

namespace SchedulerImp

/-- One entry of the map, as `writeObject` writes it. -/
def writeEntry (c : Catalyst β) (e : Task × SpreadGroup) : List β :=
  Task.writeObject c (some e.1) ++ c.writeString (some e.2)

def writeObject (c : Catalyst β) (s : SchedulerImp) : List β :=
  c.writeInt (sizeInt s.waitingTasks.length) ++
    (s.waitingTasks.flatMap fun t => Task.writeObject c (some t)) ++
    c.writeInt (sizeInt s.processingTasks.size) ++ s.processingTasks.entries.flatMap (writeEntry c)

/-- The first loop of `readObject`. A null is never written there. -/
def readWaiting (c : Catalyst β) : ℕ → List Task → List β → Option (List Task × List β)
  | 0, waiting, input => some (waiting, input)
  | n + 1, waiting, input => do
    let (t, input) ← Task.readObject c input
    readWaiting c n (waiting ++ [← t]) input

/-- The second loop of `readObject`. -/
def readProcessing (c : Catalyst β) :
    ℕ → HashMap Task SpreadGroup → List β → Option (HashMap Task SpreadGroup × List β)
  | 0, processing, input => some (processing, input)
  | n + 1, processing, input => do
    let (t, input) ← Task.readObject c input
    let (client, input) ← c.readString input
    readProcessing c n (processing.put (← t) (← client)) input

/-- `readObject` on a new scheduler. -/
def readObject (c : Catalyst β) (input : List β) : Option (SchedulerImp × List β) := do
  let (n, input) ← c.readInt input
  let (waiting, input) ← readWaiting c (iterations n) empty.waitingTasks input
  let (n, input) ← c.readInt input
  let (processing, input) ← readProcessing c (iterations n) empty.processingTasks input
  some (⟨waiting, processing⟩, input)

/-- Both collections have a size that is an `int`. -/
def SizesFit (s : SchedulerImp) : Prop :=
  s.waitingTasks.length < 2 ^ 31 ∧ s.processingTasks.size < 2 ^ 31

instance (s : SchedulerImp) : Decidable s.SizesFit := inferInstanceAs (Decidable (_ ∧ _))

/-- The scheduler that reads back: its map is filled entry by entry. -/
def copy (s : SchedulerImp) : SchedulerImp :=
  ⟨s.waitingTasks, HashMap.ofEntries s.processingTasks.entries⟩

/-- As a work queue, the copy is the original. -/
theorem ledger_copy (s : SchedulerImp) : s.copy.ledger = s.ledger :=
  WorkQueue.ext rfl (funext s.processingTasks.get?_ofEntries)

theorem readWaiting_write (c : Catalyst β) (ts waiting : List Task) (rest : List β) :
    readWaiting c ts.length waiting ((ts.flatMap fun t => Task.writeObject c (some t)) ++ rest) =
      some (waiting ++ ts, rest) := by
  induction ts generalizing waiting with
  | nil => simp [readWaiting]
  | cons t ts ih =>
    simp [readWaiting, Task.readObject_writeObject, ih]

theorem readProcessing_write (c : Catalyst β) (es : List (Task × SpreadGroup))
    (processing : HashMap Task SpreadGroup) (rest : List β) :
    readProcessing c es.length processing (es.flatMap (writeEntry c) ++ rest) =
      some (es.foldl (fun m e => m.put e.1 e.2) processing, rest) := by
  induction es generalizing processing with
  | nil => simp [readProcessing]
  | cons e es ih =>
    simp [readProcessing, writeEntry, Task.readObject_writeObject, c.readString_writeString, ih]

theorem readObject_writeObject (c : Catalyst β) {s : SchedulerImp} (hs : s.SizesFit)
    (rest : List β) : readObject c (writeObject c s ++ rest) = some (s.copy, rest) := by
  have hwaiting := readWaiting_write c s.waitingTasks []
  have hprocessing := readProcessing_write c s.processingTasks.entries HashMap.empty
  have hlen : s.processingTasks.entries.length < 2 ^ 31 := hs.2
  simp only [writeObject, List.append_assoc, readObject, c.readInt_writeInt, Option.bind_eq_bind,
    Option.bind_some, iterations_sizeInt hs.1, HashMap.size, iterations_sizeInt hlen, empty,
    hwaiting, hprocessing, List.nil_append]
  rfl

end SchedulerImp

end ReplicatedScheduler
