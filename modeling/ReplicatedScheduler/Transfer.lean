import ReplicatedScheduler.Conservation
import ReplicatedScheduler.Serialization

/-!
# A transferred copy and its original

**Theorem (`copy_behavesLike_iff`).** A scheduler that was written and read back behaves like the
original, for every sequence of messages, exactly if the original's map has the capacity that a
new map reaches when its entries are put into it.

If so, the copy is the original: a map is determined by its capacity and its entries in
iteration order. If not, the original's map grew for entries that are gone by now. Then messages
that empty both schedulers, hand out two new tasks to one client and report its failure tell
them apart (`handleAll_reorder`): the iteration orders of the two maps are opposite for tasks
that the smaller capacity puts into buckets 0 and 1 and the larger one into `cap` and 1, and
`shiftTasksFromClient` moves the task that comes first.
-/

namespace ReplicatedScheduler

open JavaLib Lib

namespace SchedulerImp

/-- The replies to each of a sequence of messages. -/
def answers (s : SchedulerImp) : List (SpreadGroup × ServerMsg) → List (List (SpreadGroup × Rep))
  | [] => []
  | m :: ms => replies (mainHandler shiftTasksFromClient s m.1 m.2).sent :: (s.handle m).answers ms

/-- Both schedulers answer every sequence of messages alike, and have the same waiting list and
the same mapping after it. -/
def BehavesLike (s s' : SchedulerImp) : Prop :=
  ∀ ms, s.answers ms = s'.answers ms ∧
    (s.handleAll ms).waitingTasks = (s'.handleAll ms).waitingTasks ∧
    ∀ t, (s.handleAll ms).processingTasks.get? t = (s'.handleAll ms).processingTasks.get? t

theorem handleAll_append (s : SchedulerImp) (ms ms' : List (SpreadGroup × ServerMsg)) :
    s.handleAll (ms ++ ms') = (s.handleAll ms).handleAll ms' := List.foldl_append

/-! ## Emptying a scheduler -/

/-- End every task of a list. -/
def endAll (ts : List Task) : List (SpreadGroup × ServerMsg) :=
  ts.map fun t => (str "c", .req (.endTaskReq 0 (some t)))

/-- Get and end a task, as often as the list is long. -/
def serveAll (ts : List Task) : List (SpreadGroup × ServerMsg) :=
  ts.flatMap fun t => [(str "c", .req (.getTaskReq 0)), (str "c", .req (.endTaskReq 0 (some t)))]

theorem handleAll_endAll (s : SchedulerImp) (ts : List Task) :
    ∃ m : HashMap Task SpreadGroup, s.handleAll (endAll ts) = ⟨s.waitingTasks, m⟩ ∧
      m.capacity = s.processingTasks.capacity ∧
      ∀ e, e ∈ m.entries ↔ e.1 ∉ ts ∧ e ∈ s.processingTasks.entries := by
  induction ts generalizing s with
  | nil => exact ⟨s.processingTasks, rfl, rfl, by simp⟩
  | cons t ts ih =>
    obtain ⟨m, hm, hcap, hmem⟩ := ih { s with processingTasks := s.processingTasks.remove t }
    refine ⟨m, hm, by rw [hcap, HashMap.capacity_remove], fun e => ?_⟩
    rw [hmem, HashMap.mem_entries_remove, List.mem_cons, not_or, ← and_assoc,
      and_comm (a := e.1 ∉ ts)]

theorem handleAll_serveAll (s : SchedulerImp) (hs : s.processingTasks.entries = []) :
    ∃ m : HashMap Task SpreadGroup, s.handleAll (serveAll s.waitingTasks) = ⟨[], m⟩ ∧
      m.capacity = s.processingTasks.capacity ∧ m.entries = [] := by
  obtain ⟨waiting, m⟩ := s
  induction waiting generalizing m with
  | nil => exact ⟨m, rfl, rfl, hs⟩
  | cons t ts ih =>
    have hempty : ((m.put t (str "c")).remove t).entries = [] := by
      rw [List.eq_nil_iff_forall_not_mem]
      intro e he
      rw [HashMap.mem_entries_remove, HashMap.mem_entries_put, show m.entries = [] from hs] at he
      simp at he
      exact he.1 he.2.2
    obtain ⟨m', hm', hcap, hentries⟩ := ih ((m.put t (str "c")).remove t) hempty
    refine ⟨m', hm', ?_, hentries⟩
    rw [hcap, HashMap.capacity_remove]
    exact HashMap.capacity_put (by rw [HashMap.size, show m.entries = [] from hs]; decide) _ _

/-- Messages that empty a scheduler with the waiting list and the keys of `s`. -/
def drain (s : SchedulerImp) : List (SpreadGroup × ServerMsg) :=
  endAll s.processingTasks.keys ++ serveAll s.waitingTasks

theorem handleAll_drain {s s' : SchedulerImp} (hwaiting : s'.waitingTasks = s.waitingTasks)
    (hkeys : s'.processingTasks.keys ⊆ s.processingTasks.keys) :
    ∃ m : HashMap Task SpreadGroup, s'.handleAll s.drain = ⟨[], m⟩ ∧
      m.capacity = s'.processingTasks.capacity ∧ m.entries = [] := by
  obtain ⟨m, hm, hcap, hmem⟩ := s'.handleAll_endAll s.processingTasks.keys
  have hempty : m.entries = [] := by
    rw [List.eq_nil_iff_forall_not_mem]
    intro e he
    obtain ⟨hout, hin⟩ := (hmem e).mp he
    exact hout (hkeys (List.mem_map_of_mem hin))
  obtain ⟨m', hm', hcap', hempty'⟩ := handleAll_serveAll ⟨s'.waitingTasks, m⟩ hempty
  rw [drain, handleAll_append, hm, ← hwaiting]
  exact ⟨m', hm', by rw [hcap', hcap], hempty'⟩

/-! ## Telling capacities apart -/

/-- Add two tasks, hand both to one client, and report its failure. -/
def reorder (t₁ t₂ : Task) : List (SpreadGroup × ServerMsg) :=
  [(str "c", .req (.newTaskReq 0 t₁.url)), (str "c", .req (.newTaskReq 0 t₂.url)),
    (str "c", .req (.getTaskReq 0)), (str "c", .req (.getTaskReq 0)),
    (str "d", .clientFailure (some (str "c")))]

/-- The failed client's first task in iteration order comes back. -/
theorem handleAll_reorder {m : HashMap Task SpreadGroup} (hm : m.entries = []) {t₁ t₂ : Task}
    (hnull : t₁.url ≠ none) (hne : t₁.url ≠ t₂.url) :
    ∃ e es, ((m.put t₁ (str "c")).put t₂ (str "c")).entries = e :: es ∧
      (handleAll ⟨[], m⟩ (reorder t₁ t₂)).waitingTasks = [e.1] := by
  have hfirst : handle ⟨[], m⟩ (str "c", .req (.newTaskReq 0 t₁.url)) = ⟨[t₁], m⟩ := by
    show (onNewTaskReq _ _ _ _).scheduler = _
    rw [onNewTaskReq, newTask_eq]
    simp [tasks, HashMap.keys, hm]
  have hsecond : handle ⟨[t₁], m⟩ (str "c", .req (.newTaskReq 0 t₂.url)) = ⟨[t₁, t₂], m⟩ := by
    have hstops : stops t₂.url t₁ = false := by simp [stops, hnull, hne]
    show (onNewTaskReq _ _ _ _).scheduler = _
    rw [onNewTaskReq, newTask_eq]
    simp [tasks, HashMap.keys, hm, hstops]
  have hthird : handleAll ⟨[], m⟩ (reorder t₁ t₂) =
      (shiftTasksFromClient ⟨[], (m.put t₁ (str "c")).put t₂ (str "c")⟩ (some (str "c"))).1 := by
    show handle (handle (handle (handle (handle ⟨[], m⟩ _) _) _) _) _ = _
    rw [hfirst, hsecond]
    rfl
  have hclient : ∀ e ∈ ((m.put t₁ (str "c")).put t₂ (str "c")).entries, e.2 = str "c" := by
    intro e he
    rw [HashMap.mem_entries_put, HashMap.mem_entries_put, hm] at he
    rcases he with he | ⟨-, he | ⟨-, he⟩⟩
    · exact he.1
    · exact he.1
    · cases he
  rw [hthird]
  rcases shiftTasksFromClient_cases ⟨[], (m.put t₁ (str "c")).put t₂ (str "c")⟩
    (some (str "c")) with ⟨hnot, -⟩ | ⟨pre, t, c, post, hes, hpre, hc, -, h⟩
  · have hget := hnot t₂
    rw [HashMap.get?_put, if_pos rfl] at hget
    simp at hget
  · -- every entry is of that client, so the first one is moved
    have hnil : pre = [] := by
      rw [List.eq_nil_iff_forall_not_mem]
      intro e he
      refine hpre e he ?_
      rw [← Option.some.inj hc]
      exact hclient e (by rw [hes]; exact List.mem_append_left _ he)
    subst hnil
    exact ⟨(t, c), post, hes, by rw [h]; rfl⟩

/-- Which of the two tasks comes first. -/
theorem handleAll_reorder_waitingTasks {m : HashMap Task SpreadGroup} (hm : m.entries = [])
    {t₁ t₂ : Task} (hnull : t₁.url ≠ none) (hne : t₁.url ≠ t₂.url)
    (hslot : slot m.capacity t₁ ≠ slot m.capacity t₂) :
    (handleAll ⟨[], m⟩ (reorder t₁ t₂)).waitingTasks =
      [if slot m.capacity t₁ < slot m.capacity t₂ then t₁ else t₂] := by
  obtain ⟨e, es, hes, h⟩ := handleAll_reorder hm hnull hne
  have hcap : ((m.put t₁ (str "c")).put t₂ (str "c")).capacity = m.capacity := by
    have hsize : m.size = 0 := by rw [HashMap.size, hm]; rfl
    have hsize' := m.size_put_le t₁ (str "c")
    rw [HashMap.capacity_put (by omega), HashMap.capacity_put (by omega)]
  have hsorted := ((m.put t₁ (str "c")).put t₂ (str "c")).sorted
  rw [hes, hcap, List.pairwise_cons] at hsorted
  have hmem : ∀ t, t = t₁ ∨ t = t₂ ↔ t = e.1 ∨ t ∈ es.map Prod.fst := by
    intro t
    have hkeys : t ∈ ((m.put t₁ (str "c")).put t₂ (str "c")).keys ↔ t = t₁ ∨ t = t₂ := by
      rw [HashMap.mem_keys]
      simp only [HashMap.get?_put, show m.get? t = none from
        HashMap.get?_eq_none.mpr (by simp [HashMap.keys, hm])]
      by_cases h₁ : t = t₁ <;> by_cases h₂ : t = t₂ <;> simp [h₁, h₂]
    rw [← hkeys, HashMap.keys, hes, List.map_cons, List.mem_cons]
  have hle : ∀ t, t = t₁ ∨ t = t₂ → slot m.capacity e.1 ≤ slot m.capacity t := by
    intro t ht
    rcases (hmem t).mp ht with rfl | ht
    · exact Nat.le_refl _
    · obtain ⟨e', he', rfl⟩ := List.mem_map.mp ht
      exact hsorted.1 e' he'
  have he : e.1 = t₁ ∨ e.1 = t₂ := (hmem e.1).mpr (Or.inl rfl)
  have h₁ := hle t₁ (Or.inl rfl)
  have h₂ := hle t₂ (Or.inr rfl)
  rw [h]
  split_ifs with hlt
  · rcases he with he | he
    · rw [he]
    · rw [he] at h₁
      omega
  · rcases he with he | he
    · rw [he] at h₂
      omega
    · rw [he]

/-- Some task has a given spread hash. -/
theorem exists_spreadHash_eq {n : ℕ} (hn : n < 2 ^ 32) :
    ∃ t : Task, t.url ≠ none ∧ spreadHash t = n := by
  obtain ⟨u, hu⟩ := exists_hashCode_eq (spread (BitVec.ofNat 32 n) - 31)
  refine ⟨⟨some u⟩, Option.some_ne_none u, ?_⟩
  have hhash : HashCode.hashCode (⟨some u⟩ : Task) = spread (BitVec.ofNat 32 n) := by
    show (31 : BitVec 32) + HashCode.hashCode u = _
    rw [hu, BitVec.add_comm, BitVec.sub_add_cancel]
  rw [spreadHash, hhash, spread_spread, BitVec.toNat_ofNat, Nat.mod_eq_of_lt hn]

/-- Two tasks that stand in opposite orders in maps of different capacities. -/
theorem exists_opposite {m m' : HashMap Task SpreadGroup} (h : m.capacity < m'.capacity) :
    ∃ t₁ t₂ : Task, t₁.url ≠ none ∧ t₁.url ≠ t₂.url ∧
      slot m.capacity t₁ < slot m.capacity t₂ ∧ slot m'.capacity t₂ < slot m'.capacity t₁ := by
  have hmax : m'.capacity ≤ maxCapacity := m'.isTable.length_le
  have hmin : 16 ≤ m.capacity := by
    obtain ⟨n, hn⟩ := m.capacity_eq
    have := Nat.one_le_two_pow (n := n)
    omega
  have hbound : maxCapacity < 2 ^ 32 := by decide
  obtain ⟨t₁, hnull, h₁⟩ := exists_spreadHash_eq (n := m.capacity) (by omega)
  obtain ⟨t₂, -, h₂⟩ := exists_spreadHash_eq (n := 1) (by decide)
  refine ⟨t₁, t₂, hnull, fun hurl => ?_, ?_, ?_⟩
  · have heq : t₁ = t₂ := by
      cases t₁
      cases t₂
      exact congrArg Task.mk hurl
    rw [heq, h₂] at h₁
    omega
  · rw [slot, slot, h₁, h₂, Nat.mod_self, Nat.mod_eq_of_lt (by omega)]
    decide
  · rw [slot, slot, h₁, h₂, Nat.mod_eq_of_lt (by omega), Nat.mod_eq_of_lt h]
    omega

/-- Schedulers with the same waiting list and the same tasks in maps of different capacities can
be told apart. -/
theorem capacity_eq_of_behavesLike {s s' : SchedulerImp} (h : s.BehavesLike s')
    (hwaiting : s'.waitingTasks = s.waitingTasks)
    (hkeys : s'.processingTasks.keys ⊆ s.processingTasks.keys) :
    s.processingTasks.capacity = s'.processingTasks.capacity := by
  obtain ⟨m, hm, hcap, hempty⟩ := handleAll_drain (s := s) rfl (List.Subset.refl _)
  obtain ⟨m', hm', hcap', hempty'⟩ := handleAll_drain hwaiting hkeys
  have hdiffer : ∀ t₁ t₂ : Task, t₁.url ≠ none → t₁.url ≠ t₂.url →
      slot m.capacity t₁ ≠ slot m.capacity t₂ → slot m'.capacity t₁ ≠ slot m'.capacity t₂ →
      (slot m.capacity t₁ < slot m.capacity t₂ ↔ slot m'.capacity t₁ < slot m'.capacity t₂) := by
    intro t₁ t₂ hnull hne hslot hslot'
    have hall := (h (s.drain ++ reorder t₁ t₂)).2.1
    rw [handleAll_append, handleAll_append, hm, hm',
      handleAll_reorder_waitingTasks hempty hnull hne hslot,
      handleAll_reorder_waitingTasks hempty' hnull hne hslot'] at hall
    have hne' : t₁ ≠ t₂ := fun heq => hne (by rw [heq])
    by_cases h₁ : slot m.capacity t₁ < slot m.capacity t₂ <;>
      by_cases h₂ : slot m'.capacity t₁ < slot m'.capacity t₂ <;>
      simp only [h₁, h₂, if_true, if_false, List.cons.injEq, and_true] at hall ⊢
    · exact absurd hall hne'
    · exact absurd hall.symm hne'
  rw [← hcap, ← hcap']
  rcases Nat.lt_trichotomy m.capacity m'.capacity with hlt | heq | hlt
  · obtain ⟨t₁, t₂, hnull, hne, h₁, h₂⟩ := exists_opposite hlt
    have := (hdiffer t₁ t₂ hnull hne (by omega) (by omega)).mp h₁
    omega
  · exact heq
  · obtain ⟨t₁, t₂, hnull, hne, h₁, h₂⟩ := exists_opposite hlt
    have := (hdiffer t₁ t₂ hnull hne (by omega) (by omega)).mpr h₁
    omega

theorem capacity_copy (s : SchedulerImp) :
    s.copy.processingTasks.capacity = HashMap.capacityFor s.processingTasks.size := by
  show (HashMap.ofEntries s.processingTasks.entries).table.length = _
  rw [HashMap.table_ofEntries s.processingTasks.nodup_keys, HashMap.length_tableOf]
  rfl

theorem keys_copy_subset (s : SchedulerImp) :
    s.copy.processingTasks.keys ⊆ s.processingTasks.keys := by
  intro t ht
  rw [HashMap.mem_keys] at ht ⊢
  rwa [show s.copy.processingTasks.get? t = s.processingTasks.get? t from
    s.processingTasks.get?_ofEntries t] at ht

end SchedulerImp

open SchedulerImp

/-- **A transferred copy behaves like the original** exactly if the original's map has no more
buckets than its entries, put into a new map, need. -/
theorem copy_behavesLike_iff {β : Type} (c : Catalyst β) (s : SchedulerImp) (hs : s.SizesFit) :
    ∃ s', SchedulerImp.readObject c (SchedulerImp.writeObject c s) = some (s', []) ∧
      (s.BehavesLike s' ↔
        s.processingTasks.capacity = HashMap.capacityFor s.processingTasks.size) := by
  refine ⟨s.copy, by simpa using readObject_writeObject c hs [], fun h => ?_, fun hcap => ?_⟩
  · rw [capacity_eq_of_behavesLike h rfl s.keys_copy_subset, capacity_copy]
  · have hcopy : s.copy = s := by
      obtain ⟨waiting, processing⟩ := s
      exact congrArg (SchedulerImp.mk waiting)
        ((HashMap.ofEntries_entries_eq_iff processing).mpr hcap)
    rw [hcopy]
    exact fun ms => ⟨rfl, rfl, fun t => rfl⟩

/-- A scheduler with one task that is processed, in bytes: it behaves like its copy. -/
theorem copy_behavesLike_iff_one_task : ∃ s', SchedulerImp.readObject Catalyst.bytes
    (SchedulerImp.writeObject Catalyst.bytes
      ⟨[], HashMap.empty.put ⟨some (str "u")⟩ (str "c")⟩) = some (s', []) ∧
    SchedulerImp.BehavesLike ⟨[], HashMap.empty.put ⟨some (str "u")⟩ (str "c")⟩ s' := by
  obtain ⟨s', hread, hiff⟩ := copy_behavesLike_iff Catalyst.bytes
    ⟨[], HashMap.empty.put ⟨some (str "u")⟩ (str "c")⟩ (by decide +kernel)
  exact ⟨s', hread, hiff.mpr (by decide +kernel)⟩

/-- Thirteen tasks are handed out, which doubles the capacity, and all but `B` and `Q` end. The
copy has the old capacity, and moves the other task of the two when the client fails. -/
theorem copy_of_grown_map_differs : ¬ ∀ (ms : List (SpreadGroup × ServerMsg)) (s' : SchedulerImp),
    SchedulerImp.readObject Catalyst.bytes
      (SchedulerImp.writeObject Catalyst.bytes (empty.handleAll ms)) = some (s', []) →
    (empty.handleAll ms).BehavesLike s' := by
  intro hall
  let urls := ["B", "Q", "C", "D", "E", "F", "G", "H", "I", "J", "K", "L", "M"].map str
  let ms : List (SpreadGroup × ServerMsg) :=
    urls.map (fun u => (str "c", .req (.newTaskReq 0 (some u)))) ++
    urls.map (fun _ => (str "c", .req (.getTaskReq 0))) ++
    (urls.drop 2).map fun u => (str "c", .req (.endTaskReq 0 (some ⟨some u⟩)))
  have hsizes : (empty.handleAll ms).SizesFit := by decide +kernel
  have hread := readObject_writeObject Catalyst.bytes hsizes []
  rw [List.append_nil] at hread
  have hwaiting := (hall ms _ hread [(str "d", .clientFailure (some (str "c")))]).2.1
  revert hwaiting
  decide +kernel

end ReplicatedScheduler
