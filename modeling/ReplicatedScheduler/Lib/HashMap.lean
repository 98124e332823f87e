import Mathlib.Tactic.Common
import Mathlib.Data.List.Nodup
import Mathlib.Data.List.Flatten
import Mathlib.Tactic.Positivity
import Mathlib.Tactic.IntervalCases

/-!
# `java.util.HashMap` with its iteration order

A table of buckets whose number is a power of two. A key sits in the bucket of its spread hash
modulo that number. Inside a bucket, entries stand in the order in which they were put. The
table doubles when it is more than three quarters full, up to `2 ^ 30` buckets, and never
shrinks. (The real table is allocated by the first `put`; here it is there from the start,
which no caller can see.)

The iteration order of a map is the concatenation of its buckets, `HashMap.entries`. As a
mapping, a map is `HashMap.get?`.

**The invariant** (`IsTable`) is carried by the type `HashMap`, so every operation keeps it:
each entry is in its own bucket, no bucket has a key twice, and the table is no fuller than it
may be.
-/

namespace JavaLib

/-- `Object.hashCode`. -/
class HashCode (α : Type*) where
  hashCode : α → BitVec 32

/-- `HashMap.hash`: the high half folded into the low half. -/
def spread (h : BitVec 32) : BitVec 32 := h ^^^ (h >>> 16)

/-- `HashMap.MAXIMUM_CAPACITY`. -/
def maxCapacity : ℕ := 2 ^ 30

/-! ## One bucket -/

section Bucket

variable {K V : Type*} [DecidableEq K]

/-- `put` in one bucket: overwrite the value in place, or append a new entry. -/
def putBucket (k : K) (v : V) : List (K × V) → List (K × V)
  | [] => [(k, v)]
  | e :: b => if e.1 = k then (e.1, v) :: b else e :: putBucket k v b

/-- `remove` in one bucket. -/
def removeBucket (k : K) (b : List (K × V)) : List (K × V) := b.filter fun e => e.1 ≠ k

theorem mem_removeBucket {k : K} {b : List (K × V)} {e : K × V} :
    e ∈ removeBucket k b ↔ e.1 ≠ k ∧ e ∈ b := by
  simp [removeBucket, and_comm]

theorem mem_putBucket {k : K} {v : V} {b : List (K × V)}
    (hb : (b.map Prod.fst).Nodup) {e : K × V} :
    e ∈ putBucket k v b ↔ (e.1 = k ∧ e.2 = v) ∨ (e.1 ≠ k ∧ e ∈ b) := by
  induction b with
  | nil => simp [putBucket, Prod.ext_iff]
  | cons a b ih =>
    obtain ⟨ha, hb⟩ := List.nodup_cons.mp hb
    have hout : ∀ x ∈ b, x.1 ≠ a.1 := fun x hx hxa => ha (hxa ▸ List.mem_map_of_mem hx)
    by_cases hak : a.1 = k
    · subst hak
      simp only [putBucket, if_true, List.mem_cons, Prod.ext_iff]
      constructor
      · rintro (h | h)
        · exact Or.inl h
        · exact Or.inr ⟨hout e h, Or.inr h⟩
      · rintro (h | ⟨hne, h | h⟩)
        · exact Or.inl h
        · exact absurd h.1 hne
        · exact Or.inr h
    · simp only [putBucket, if_neg hak, List.mem_cons, ih hb]
      constructor
      · rintro (rfl | h | h)
        · exact Or.inr ⟨hak, Or.inl rfl⟩
        · exact Or.inl h
        · exact Or.inr ⟨h.1, Or.inr h.2⟩
      · rintro (h | ⟨hne, h | h⟩)
        · exact Or.inr (Or.inl h)
        · exact Or.inl h
        · exact Or.inr (Or.inr ⟨hne, h⟩)

/-- A new key goes to the end of its bucket. -/
theorem putBucket_of_notMem {k : K} {b : List (K × V)}
    (hk : k ∉ b.map Prod.fst) (v : V) : putBucket k v b = b ++ [(k, v)] := by
  induction b with
  | nil => rfl
  | cons a b ih =>
    simp only [List.map_cons, List.mem_cons, not_or] at hk
    simp only [putBucket, if_neg (Ne.symm hk.1), ih hk.2, List.cons_append]

theorem map_fst_putBucket_of_mem {k : K} {b : List (K × V)}
    (hk : k ∈ b.map Prod.fst) (v : V) : (putBucket k v b).map Prod.fst = b.map Prod.fst := by
  induction b with
  | nil => simp at hk
  | cons a b ih =>
    by_cases hak : a.1 = k
    · simp [putBucket, hak]
    · simp only [List.map_cons, List.mem_cons] at hk
      simp [putBucket, hak, ih (hk.resolve_left (Ne.symm hak))]

theorem nodup_putBucket {b : List (K × V)} (hb : (b.map Prod.fst).Nodup) (k : K)
    (v : V) : ((putBucket k v b).map Prod.fst).Nodup := by
  by_cases hk : k ∈ b.map Prod.fst
  · rw [map_fst_putBucket_of_mem hk]
    exact hb
  · rw [putBucket_of_notMem hk, List.map_append]
    refine List.nodup_append.mpr ⟨hb, by simp, fun x hx y hy hxy => hk ?_⟩
    have hyk : y = k := List.mem_singleton.mp hy
    rwa [← hyk, ← hxy]

theorem length_putBucket_le (k : K) (v : V) (b : List (K × V)) :
    (putBucket k v b).length ≤ b.length + 1 := by
  induction b with
  | nil => simp [putBucket]
  | cons a b ih =>
    unfold putBucket
    split_ifs <;> simp only [List.length_cons] <;> omega

end Bucket

/-! ## The operations on raw tables -/

variable {K V : Type*} [HashCode K]

/-- The spread hash of a key. -/
def spreadHash (k : K) : ℕ := (spread (HashCode.hashCode k)).toNat

/-- The bucket of a key, `(n - 1) & hash` in a table of `n = 2 ^ i` buckets. -/
def slot (cap : ℕ) (k : K) : ℕ := spreadHash k % cap

abbrev Table (K V : Type*) := List (List (K × V))

namespace Table

/-- The half of each bucket whose next hash bit is `b`, in order. -/
def half (t : Table K V) (b : ℕ) : Table K V :=
  t.map fun l => l.filter fun e => spreadHash e.1 / t.length % 2 = b

/-- `resize`: every bucket is split by the next hash bit, in order. -/
def resize (t : Table K V) : Table K V := t.half 0 ++ t.half 1

/-- `if (++size > threshold) resize()`, with the threshold at three quarters. -/
def grow (t : Table K V) : Table K V :=
  if 3 * t.length < 4 * t.flatten.length ∧ t.length < maxCapacity then t.resize else t

def put [DecidableEq K] (t : Table K V) (k : K) (v : V) : Table K V :=
  grow (t.modify (slot t.length k) (putBucket k v))

def remove [DecidableEq K] (t : Table K V) (k : K) : Table K V :=
  t.modify (slot t.length k) (removeBucket k)

/-- Each entry is in its own bucket and no bucket has a key twice. -/
structure Layout (t : Table K V) : Prop where
  pow : ∃ n ≤ 26, t.length = 16 * 2 ^ n
  placed : ∀ j b, t[j]? = some b → ∀ e ∈ b, slot t.length e.1 = j
  nodup : ∀ b ∈ t, (b.map Prod.fst).Nodup

/-- A laid out table that is no fuller than it may be. -/
structure IsTable (t : Table K V) : Prop extends Layout t where
  load : 4 * t.flatten.length ≤ 3 * t.length ∨ t.length = maxCapacity

/-! ## Buckets and entries -/

theorem Layout.length_pos {t : Table K V} (h : t.Layout) : 0 < t.length := by
  obtain ⟨n, -, hn⟩ := h.pow
  rw [hn]
  positivity

/-- An entry of the table is an entry of its own bucket. -/
theorem Layout.mem_flatten {t : Table K V} (h : t.Layout) {e : K × V} :
    e ∈ t.flatten ↔ ∃ b, t[slot t.length e.1]? = some b ∧ e ∈ b := by
  constructor
  · intro he
    obtain ⟨b, hb, he⟩ := List.mem_flatten.mp he
    obtain ⟨j, hj⟩ := List.getElem?_of_mem hb
    exact ⟨b, by rw [h.placed j b hj e he]; exact hj, he⟩
  · rintro ⟨b, hb, he⟩
    exact List.mem_flatten.mpr ⟨b, List.mem_of_getElem? hb, he⟩

/-- Two entries of the table with the same key are the same entry. -/
theorem Layout.eq_of_fst_eq {t : Table K V} (h : t.Layout) {e e' : K × V}
    (he : e ∈ t.flatten) (he' : e' ∈ t.flatten) (hk : e.1 = e'.1) : e = e' := by
  obtain ⟨b, hb, he⟩ := h.mem_flatten.mp he
  obtain ⟨b', hb', he'⟩ := h.mem_flatten.mp he'
  rw [← hk, hb] at hb'
  cases hb'
  exact List.inj_on_of_nodup_map (h.nodup b (List.mem_of_getElem? hb)) he he' hk

/-- Filtering the entries by bucket gives the bucket. -/
theorem Layout.filter_slot {t : Table K V} (h : t.Layout) {j : ℕ} {b : List (K × V)}
    (hj : t[j]? = some b) : (t.flatten.filter fun e => slot t.length e.1 = j) = b := by
  have hsplit : t = t.take j ++ b :: t.drop (j + 1) := by
    obtain ⟨hlt, hget⟩ := List.getElem?_eq_some_iff.mp hj
    rw [← hget, List.getElem_cons_drop, List.take_append_drop]
  have hout : ∀ l : Table K V, (∀ b' ∈ l, ∃ i ≠ j, t[i]? = some b') →
      (l.flatten.filter fun e => slot t.length e.1 = j) = [] := by
    intro l hl
    rw [List.filter_eq_nil_iff]
    intro e he
    obtain ⟨b', hb', he⟩ := List.mem_flatten.mp he
    obtain ⟨i, hij, hi⟩ := hl b' hb'
    simpa [h.placed i b' hi e he] using hij
  have htake : ((t.take j).flatten.filter fun e => slot t.length e.1 = j) = [] := by
    refine hout _ fun b' hb' => ?_
    obtain ⟨i, hi, hget⟩ := List.mem_take_iff_getElem.mp hb'
    refine ⟨i, by omega, ?_⟩
    rw [List.getElem?_eq_some_iff]
    exact ⟨by omega, hget⟩
  have hdrop : ((t.drop (j + 1)).flatten.filter fun e => slot t.length e.1 = j) = [] := by
    refine hout _ fun b' hb' => ?_
    obtain ⟨i, hi, hget⟩ := List.mem_drop_iff_getElem.mp hb'
    refine ⟨j + 1 + i, by omega, ?_⟩
    rw [List.getElem?_eq_some_iff]
    exact ⟨by omega, hget⟩
  have hself : (b.filter fun e => slot t.length e.1 = j) = b := by
    rw [List.filter_eq_self]
    intro e he
    simpa using h.placed j b hj e he
  calc (t.flatten.filter fun e => slot t.length e.1 = j)
      = ((t.take j ++ b :: t.drop (j + 1)).flatten.filter fun e => slot t.length e.1 = j) := by
        rw [← hsplit]
    _ = b := by
        rw [List.flatten_append, List.flatten_cons, List.filter_append, List.filter_append, htake,
          hdrop, hself, List.nil_append, List.append_nil]

/-! ## The operations keep the invariant -/

/-- Changing one bucket keeps the layout when the new bucket is laid out. -/
theorem Layout.modify {t : Table K V} (h : t.Layout) {j : ℕ}
    {f : List (K × V) → List (K × V)}
    (hf : ∀ b, t[j]? = some b →
      (∀ e ∈ f b, slot t.length e.1 = j) ∧ ((f b).map Prod.fst).Nodup) :
    Layout (t.modify j f) := by
  refine ⟨by simpa using h.pow, fun i b hb e he => ?_, fun b hb => ?_⟩
  · rw [List.getElem?_modify] at hb
    obtain ⟨b₀, hb₀, rfl⟩ := Option.map_eq_some_iff.mp hb
    rw [List.length_modify]
    split_ifs at he with hij
    · subst hij
      exact (hf b₀ hb₀).1 e he
    · exact h.placed i b₀ hb₀ e he
  · obtain ⟨i, hi⟩ := List.getElem?_of_mem hb
    rw [List.getElem?_modify] at hi
    obtain ⟨b₀, hb₀, rfl⟩ := Option.map_eq_some_iff.mp hi
    split_ifs with hij
    · subst hij
      exact (hf b₀ hb₀).2
    · exact h.nodup b₀ (List.mem_of_getElem? hb₀)

theorem length_flatten_modify_le {α : Type*} {f : List α → List α} {n : ℕ}
    (hf : ∀ b, (f b).length ≤ b.length + n) (t : List (List α)) (j : ℕ) :
    (t.modify j f).flatten.length ≤ t.flatten.length + n := by
  induction t generalizing j with
  | nil => simp
  | cons b t ih =>
    cases j with
    | zero =>
      have := hf b
      simp only [List.modify_zero_cons, List.flatten_cons, List.length_append]
      omega
    | succ j =>
      have := ih j
      simp only [List.modify_succ_cons, List.flatten_cons, List.length_append]
      omega

theorem length_resize (t : Table K V) : t.resize.length = t.length * 2 := by
  simp [resize, half]
  omega

theorem length_flatten_resize (t : Table K V) : t.resize.flatten.length = t.flatten.length := by
  have key : ∀ (n : ℕ) (l : Table K V),
      (l.map fun b => b.filter fun e => spreadHash e.1 / n % 2 = 0).flatten.length +
        (l.map fun b => b.filter fun e => spreadHash e.1 / n % 2 = 1).flatten.length =
      l.flatten.length := by
    intro n l
    induction l with
    | nil => rfl
    | cons b l ih =>
      have hb : (b.filter fun e => spreadHash e.1 / n % 2 = 0).length +
          (b.filter fun e => spreadHash e.1 / n % 2 = 1).length = b.length := by
        have hnot : (b.filter fun e => spreadHash e.1 / n % 2 = 1) =
            b.filter fun e => !decide (spreadHash e.1 / n % 2 = 0) :=
          List.filter_congr fun e _ => by
            rcases Nat.mod_two_eq_zero_or_one (spreadHash e.1 / n) with h | h <;> simp [h]
        rw [hnot, ← List.length_eq_length_filter_add]
      simp only [List.map_cons, List.flatten_cons, List.length_append]
      omega
  rw [resize, half, half, List.flatten_append, List.length_append]
  exact key t.length t

/-- The bucket of a key after doubling: its old bucket, plus the old capacity when the next
hash bit is set. -/
theorem slot_mul_two (n : ℕ) (k : K) :
    slot (n * 2) k = slot n k + n * (spreadHash k / n % 2) :=
  Nat.mod_mul

theorem getElem?_half {t : Table K V} {bit j : ℕ} :
    (t.half bit)[j]? = t[j]?.map fun l => l.filter fun e => spreadHash e.1 / t.length % 2 = bit := by
  simp [half]

theorem Layout.resize {t : Table K V} (h : t.Layout) (hcap : t.length < maxCapacity) :
    t.resize.Layout := by
  have hbucket : ∀ j b, t.resize[j]? = some b → ∃ bit b₀, bit < 2 ∧ t[j - t.length * bit]? = some b₀ ∧
      t.length * bit ≤ j ∧ b = b₀.filter fun e => spreadHash e.1 / t.length % 2 = bit := by
    intro j b hb
    rw [Table.resize, List.getElem?_append] at hb
    have hlen : (t.half 0).length = t.length := by simp [half]
    rw [hlen] at hb
    split_ifs at hb with hj
    · rw [getElem?_half] at hb
      obtain ⟨b₀, hb₀, rfl⟩ := Option.map_eq_some_iff.mp hb
      exact ⟨0, b₀, by omega, by simpa using hb₀, by omega, rfl⟩
    · rw [getElem?_half] at hb
      obtain ⟨b₀, hb₀, rfl⟩ := Option.map_eq_some_iff.mp hb
      exact ⟨1, b₀, by omega, by simpa using hb₀, by omega, rfl⟩
  refine ⟨?_, fun j b hb e he => ?_, fun b hb => ?_⟩
  · obtain ⟨n, hn, hlen⟩ := h.pow
    have hlt : n < 26 := by
      by_contra hge
      have : n = 26 := by omega
      subst this
      rw [hlen] at hcap
      exact absurd hcap (by decide)
    exact ⟨n + 1, hlt, by rw [length_resize, hlen, pow_succ, Nat.mul_assoc]⟩
  · obtain ⟨bit, b₀, -, hb₀, hle, rfl⟩ := hbucket j b hb
    obtain ⟨he, hbit⟩ := List.mem_filter.mp he
    have hslot := h.placed _ b₀ hb₀ e he
    rw [length_resize, slot_mul_two, hslot, of_decide_eq_true hbit]
    omega
  · obtain ⟨j, hj⟩ := List.getElem?_of_mem hb
    obtain ⟨bit, b₀, -, hb₀, -, rfl⟩ := hbucket j b hj
    exact (h.nodup b₀ (List.mem_of_getElem? hb₀)).sublist (List.filter_sublist.map _)

/-- The capacity is at most the maximum. -/
theorem Layout.length_le {t : Table K V} (h : t.Layout) : t.length ≤ maxCapacity := by
  obtain ⟨n, hn, hlen⟩ := h.pow
  calc t.length = 16 * 2 ^ n := hlen
    _ ≤ 16 * 2 ^ 26 := Nat.mul_le_mul_left _ (Nat.pow_le_pow_right (by decide) hn)
    _ = maxCapacity := by decide

/-- Growing restores the load of a table that got one entry too many. -/
theorem Layout.grow {t : Table K V} (h : t.Layout)
    (hload : 4 * t.flatten.length ≤ 3 * t.length + 4 ∨ t.length = maxCapacity) :
    t.grow.IsTable := by
  have hpos : 16 ≤ t.length := by
    obtain ⟨n, -, hn⟩ := h.pow
    have := Nat.one_le_two_pow (n := n)
    omega
  have hmax := h.length_le
  unfold Table.grow
  split_ifs with hg
  · refine ⟨h.resize hg.2, Or.inl ?_⟩
    rw [length_flatten_resize, length_resize]
    omega
  · refine ⟨h, ?_⟩
    omega

theorem IsTable.put [DecidableEq K] {t : Table K V} (h : t.IsTable) (k : K) (v : V) :
    (t.put k v).IsTable := by
  refine Layout.grow (h.toLayout.modify fun b hb => ⟨fun e he => ?_, ?_⟩) ?_
  · rcases (mem_putBucket (h.nodup b (List.mem_of_getElem? hb))).mp he with he | he
    · rw [he.1]
    · exact h.placed _ b hb e he.2
  · exact nodup_putBucket (h.nodup b (List.mem_of_getElem? hb)) k v
  · have hlen := length_flatten_modify_le (length_putBucket_le k v) t (slot t.length k)
    rw [List.length_modify]
    have := h.load
    omega

theorem IsTable.remove [DecidableEq K] {t : Table K V} (h : t.IsTable) (k : K) :
    (t.remove k).IsTable := by
  refine ⟨h.toLayout.modify fun b hb => ⟨fun e he => ?_, ?_⟩, ?_⟩
  · exact h.placed _ b hb e (mem_removeBucket.mp he).2
  · exact (h.nodup b (List.mem_of_getElem? hb)).sublist (List.filter_sublist.map _)
  · have hlen : (t.modify (slot t.length k) (removeBucket k)).flatten.length ≤
        t.flatten.length + 0 :=
      length_flatten_modify_le (fun b => List.length_filter_le _ b) t (slot t.length k)
    have := h.load
    rw [Table.remove, List.length_modify]
    omega

theorem isTable_replicate : Table.IsTable (List.replicate 16 ([] : List (K × V))) where
  pow := ⟨0, by decide, by simp⟩
  placed := fun j b hb e he => by
    rw [List.getElem?_replicate] at hb
    split_ifs at hb
    cases hb
    exact absurd he List.not_mem_nil
  nodup := fun b hb => by
    rw [(List.mem_replicate.mp hb).2]
    exact List.nodup_nil
  load := by simp

/-- Changing the bucket of `k` changes the entries of that bucket only. -/
theorem Layout.mem_flatten_modify {t : Table K V} (h : t.Layout) {k : K}
    {f : List (K × V) → List (K × V)} {P : K × V → Prop}
    (hf : ∀ b, t[slot t.length k]? = some b → ∀ e, e ∈ f b ↔ P e ∧ e.1 = k ∨ e.1 ≠ k ∧ e ∈ b)
    {e : K × V} :
    e ∈ (t.modify (slot t.length k) f).flatten ↔ P e ∧ e.1 = k ∨ e.1 ≠ k ∧ e ∈ t.flatten := by
  have hlt : slot t.length k < t.length := Nat.mod_lt _ h.length_pos
  have hk : t[slot t.length k]? = some t[slot t.length k] := List.getElem?_eq_getElem hlt
  refine ⟨fun hmem => ?_, fun he => ?_⟩
  · obtain ⟨b, hb, he⟩ := List.mem_flatten.mp hmem
    obtain ⟨j, hj⟩ := List.getElem?_of_mem hb
    rw [List.getElem?_modify] at hj
    obtain ⟨b₀, hb₀, rfl⟩ := Option.map_eq_some_iff.mp hj
    by_cases hjk : slot t.length k = j
    · rw [if_pos hjk] at he
      subst hjk
      rcases (hf b₀ hb₀ e).mp he with he | he
      · exact Or.inl he
      · exact Or.inr ⟨he.1, List.mem_flatten.mpr ⟨b₀, List.mem_of_getElem? hb₀, he.2⟩⟩
    · rw [if_neg hjk] at he
      refine Or.inr ⟨fun hek => hjk ?_, List.mem_flatten.mpr ⟨b₀, List.mem_of_getElem? hb₀, he⟩⟩
      rw [← hek]
      exact h.placed j b₀ hb₀ e he
  · by_cases hek : slot t.length e.1 = slot t.length k
    · have hmem : e ∈ f t[slot t.length k] := by
        refine (hf _ hk e).mpr (he.imp id fun he => ⟨he.1, ?_⟩)
        obtain ⟨b, hb, hmem⟩ := h.mem_flatten.mp he.2
        rw [hek, hk] at hb
        cases hb
        exact hmem
      refine List.mem_flatten.mpr ⟨_, List.mem_of_getElem? (i := slot t.length k) ?_, hmem⟩
      rw [List.getElem?_modify, hk]
      simp
    · have hne : e.1 ≠ k := fun h => hek (by rw [h])
      obtain ⟨b, hb, hmem⟩ := h.mem_flatten.mp (he.resolve_left fun h => hne h.2).2
      refine List.mem_flatten.mpr ⟨b, List.mem_of_getElem? (i := slot t.length e.1) ?_, hmem⟩
      rw [List.getElem?_modify, hb]
      simp [Ne.symm hek]

/-- `resize` moves entries between buckets and loses none. -/
theorem mem_flatten_resize {t : Table K V} {e : K × V} : e ∈ t.resize.flatten ↔ e ∈ t.flatten := by
  have hhalf : ∀ bit, e ∈ (t.half bit).flatten ↔
      e ∈ t.flatten ∧ spreadHash e.1 / t.length % 2 = bit := by
    intro bit
    simp only [Table.half, List.mem_flatten, List.mem_map]
    constructor
    · rintro ⟨_, ⟨b, hb, rfl⟩, he⟩
      exact ⟨⟨b, hb, List.mem_of_mem_filter he⟩, of_decide_eq_true (List.mem_filter.mp he).2⟩
    · rintro ⟨⟨b, hb, he⟩, hbit⟩
      exact ⟨_, ⟨b, hb, rfl⟩, List.mem_filter.mpr ⟨he, decide_eq_true hbit⟩⟩
  rw [Table.resize, List.flatten_append, List.mem_append, hhalf, hhalf, ← and_or_left,
    and_iff_left (Nat.mod_two_eq_zero_or_one _)]

/-- The keys of a table are distinct. -/
theorem Layout.nodup_keys {t : Table K V} (h : t.Layout) : (t.flatten.map Prod.fst).Nodup := by
  refine List.Nodup.map_on (fun e he e' he' hk => h.eq_of_fst_eq he he' hk) ?_
  rw [List.nodup_flatten]
  refine ⟨fun b hb => (h.nodup b hb).of_map _, ?_⟩
  rw [List.pairwise_iff_getElem]
  intro i j hi hj hij e he he'
  have hei := h.placed i _ (List.getElem?_eq_getElem hi) e he
  have hej := h.placed j _ (List.getElem?_eq_getElem hj) e he'
  omega

/-- The iteration order goes through the buckets in order. -/
theorem Layout.sorted {t : Table K V} (h : t.Layout) :
    t.flatten.Pairwise fun e e' => slot t.length e.1 ≤ slot t.length e'.1 := by
  rw [List.pairwise_flatten]
  constructor
  · intro b hb
    obtain ⟨j, hj⟩ := List.getElem?_of_mem hb
    exact List.pairwise_of_forall_mem_list fun e he e' he' => by
      rw [h.placed j b hj e he, h.placed j b hj e' he']
  · rw [List.pairwise_iff_getElem]
    intro i j hi hj hij e he e' he'
    rw [h.placed i _ (List.getElem?_eq_getElem hi) e he,
      h.placed j _ (List.getElem?_eq_getElem hj) e' he']
    omega

end Table

/-! ## The map -/

/-- A hash map: a table with the invariant. -/
structure HashMap (K V : Type*) [HashCode K] where
  table : Table K V
  isTable : table.IsTable

namespace HashMap

@[ext] theorem ext {m m' : HashMap K V} (h : m.table = m'.table) : m = m' := by
  cases m
  cases m'
  congr

instance [DecidableEq K] [DecidableEq V] : DecidableEq (HashMap K V) := fun m m' =>
  decidable_of_iff (m.table = m'.table) ⟨ext, fun h => h ▸ rfl⟩

/-- `new HashMap<>()`. -/
def empty : HashMap K V := ⟨List.replicate 16 [], Table.isTable_replicate⟩

def capacity (m : HashMap K V) : ℕ := m.table.length

/-- `entrySet()`, in iteration order. -/
def entries (m : HashMap K V) : List (K × V) := m.table.flatten

def keys (m : HashMap K V) : List K := m.entries.map Prod.fst

def size (m : HashMap K V) : ℕ := m.entries.length

variable [DecidableEq K]

/-- The value of a key, looked up in the key's bucket. -/
def get? (m : HashMap K V) (k : K) : Option V :=
  ((m.table.getD (slot m.capacity k) []).find? fun e => e.1 = k).map Prod.snd

def put (m : HashMap K V) (k : K) (v : V) : HashMap K V := ⟨m.table.put k v, m.isTable.put k v⟩

def remove (m : HashMap K V) (k : K) : HashMap K V := ⟨m.table.remove k, m.isTable.remove k⟩

/-! ## Maps as mappings -/

theorem get?_eq_some {m : HashMap K V} {k : K} {v : V} :
    m.get? k = some v ↔ (k, v) ∈ m.entries := by
  rw [entries, m.isTable.mem_flatten, get?, capacity, List.getD_eq_getElem?_getD]
  cases hb : m.table[slot m.table.length k]? with
  | none => simp
  | some b =>
    simp only [Option.getD_some, Option.map_eq_some_iff, Option.some.injEq, exists_eq_left']
    constructor
    · rintro ⟨e, he, rfl⟩
      have hk : e.1 = k := by simpa using List.find?_some he
      rw [← hk]
      exact List.mem_of_find?_eq_some he
    · intro hmem
      have hsome : (b.find? fun e => e.1 = k).isSome := by
        rw [List.find?_isSome]
        exact ⟨(k, v), hmem, by simp⟩
      obtain ⟨e, he⟩ := Option.isSome_iff_exists.mp hsome
      have hk : e.1 = k := by simpa using List.find?_some he
      have heq : e = (k, v) :=
        List.inj_on_of_nodup_map (m.isTable.nodup b (List.mem_of_getElem? hb))
          (List.mem_of_find?_eq_some he) hmem hk
      exact ⟨e, he, by rw [heq]⟩

theorem get?_eq_none {m : HashMap K V} {k : K} : m.get? k = none ↔ k ∉ m.keys := by
  refine ⟨fun h hk => ?_, fun h => ?_⟩
  · obtain ⟨e, he, rfl⟩ := List.mem_map.mp hk
    rw [get?_eq_some.mpr he] at h
    cases h
  · cases hget : m.get? k with
    | none => rfl
    | some v => exact absurd (List.mem_map.mpr ⟨_, get?_eq_some.mp hget, rfl⟩) h

theorem mem_keys {m : HashMap K V} {k : K} : k ∈ m.keys ↔ ∃ v, m.get? k = some v := by
  rw [← Option.ne_none_iff_exists', ne_eq, get?_eq_none, not_not]

omit [DecidableEq K] in
theorem nodup_keys (m : HashMap K V) : m.keys.Nodup := m.isTable.nodup_keys

omit [DecidableEq K] in
theorem sorted (m : HashMap K V) :
    m.entries.Pairwise fun e e' => slot m.capacity e.1 ≤ slot m.capacity e'.1 :=
  m.isTable.sorted

omit [DecidableEq K] in
@[simp] theorem entries_empty : (empty : HashMap K V).entries = [] := rfl

@[simp] theorem get?_empty (k : K) : (empty : HashMap K V).get? k = none :=
  get?_eq_none.mpr (by simp [keys])

theorem mem_entries_put {m : HashMap K V} {k : K} {v : V} {e : K × V} :
    e ∈ (m.put k v).entries ↔ e.2 = v ∧ e.1 = k ∨ e.1 ≠ k ∧ e ∈ m.entries := by
  have hmod := m.isTable.mem_flatten_modify (e := e) (P := fun e => e.2 = v) (k := k)
    (f := putBucket k v) fun b hb e => by
      rw [mem_putBucket (m.isTable.nodup b (List.mem_of_getElem? hb)), and_comm (a := e.1 = k)]
  rw [entries, entries, ← hmod]
  show e ∈ (Table.grow _).flatten ↔ _
  unfold Table.grow
  split_ifs
  · rw [Table.mem_flatten_resize]
  · rfl

theorem mem_entries_remove {m : HashMap K V} {k : K} {e : K × V} :
    e ∈ (m.remove k).entries ↔ e.1 ≠ k ∧ e ∈ m.entries := by
  have hmod := m.isTable.mem_flatten_modify (e := e) (P := fun _ => False) (k := k)
    (f := removeBucket k) fun b hb e => by rw [mem_removeBucket]; simp
  rw [false_and, false_or] at hmod
  exact hmod

theorem get?_put (m : HashMap K V) (k : K) (v : V) (k' : K) :
    (m.put k v).get? k' = if k' = k then some v else m.get? k' := by
  ext w
  rw [get?_eq_some, mem_entries_put]
  split_ifs with hk
  · simp [hk, eq_comm]
  · rw [get?_eq_some]
    simp [hk]

theorem get?_remove (m : HashMap K V) (k k' : K) :
    (m.remove k).get? k' = if k' = k then none else m.get? k' := by
  ext w
  rw [get?_eq_some, mem_entries_remove]
  split_ifs with hk
  · simp [hk]
  · rw [get?_eq_some]
    simp [hk]

/-! ## Capacity -/

omit [DecidableEq K] in
/-- The capacities are the powers of two from 16 on. -/
theorem capacity_eq (m : HashMap K V) : ∃ n, m.capacity = 16 * 2 ^ n := by
  obtain ⟨n, -, hn⟩ := m.isTable.pow
  exact ⟨n, hn⟩

theorem capacity_remove (m : HashMap K V) (k : K) : (m.remove k).capacity = m.capacity :=
  List.length_modify _ _ _

theorem size_put_le (m : HashMap K V) (k : K) (v : V) : (m.put k v).size ≤ m.size + 1 := by
  have hlen := Table.length_flatten_modify_le (length_putBucket_le k v) m.table
    (slot m.table.length k)
  show (Table.grow _).flatten.length ≤ _
  unfold Table.grow
  split_ifs
  · rw [Table.length_flatten_resize]
    exact hlen
  · exact hlen

/-- A map of less than 12 entries never grows. -/
theorem capacity_put {m : HashMap K V} (h : m.size < 12) (k : K) (v : V) :
    (m.put k v).capacity = m.capacity := by
  have hlen := Table.length_flatten_modify_le (length_putBucket_le k v) m.table
    (slot m.table.length k)
  have hcap : 16 ≤ m.table.length := by
    obtain ⟨n, -, hn⟩ := m.isTable.pow
    have := Nat.one_le_two_pow (n := n)
    omega
  have hsize : m.table.flatten.length < 12 := h
  show (Table.grow _).length = m.table.length
  rw [Table.grow, List.length_modify, if_neg (by omega), List.length_modify]

/-! ## Copying a map

A map read back entry by entry has the entries of the original in the same buckets, if its
table has as many of them. -/

omit [DecidableEq K] in
/-- The table of `cap` buckets that holds the entries `es`, in order. -/
def tableOf (cap : ℕ) (es : List (K × V)) : Table K V :=
  (List.range cap).map fun j => es.filter fun e => slot cap e.1 = j

omit [DecidableEq K] in
theorem getElem?_tableOf {cap j : ℕ} {es : List (K × V)} :
    (tableOf cap es)[j]? = if j < cap then some (es.filter fun e => slot cap e.1 = j) else none := by
  rw [tableOf, List.getElem?_map]
  split_ifs with hj
  · rw [List.getElem?_range hj]
    rfl
  · rw [List.getElem?_eq_none (by simpa using hj)]
    rfl

omit [DecidableEq K] in
theorem length_tableOf (cap : ℕ) (es : List (K × V)) : (tableOf cap es).length = cap := by
  simp [tableOf]

omit [DecidableEq K] in
/-- A table is determined by its capacity and its entries in iteration order. -/
theorem table_eq_tableOf (m : HashMap K V) : m.table = tableOf m.capacity m.entries := by
  apply List.ext_getElem?
  intro j
  rw [getElem?_tableOf]
  split_ifs with hj
  · have hget : m.table[j]? = some m.table[j] := List.getElem?_eq_getElem hj
    rw [hget]
    exact congrArg some (m.isTable.filter_slot hget).symm
  · exact List.getElem?_eq_none (Nat.le_of_not_lt hj)

omit [DecidableEq K] in
/-- One more entry goes to the end of its bucket. -/
theorem modify_tableOf (cap : ℕ) (es : List (K × V)) (e : K × V) :
    (tableOf cap es).modify (slot cap e.1) (· ++ [e]) = tableOf cap (es ++ [e]) := by
  apply List.ext_getElem?
  intro j
  rw [List.getElem?_modify, getElem?_tableOf, getElem?_tableOf]
  by_cases hj : j < cap
  · by_cases hjk : slot cap e.1 = j <;> simp [hj, hjk, List.filter_append]
  · simp [hj]

omit [DecidableEq K] in
theorem length_flatten_tableOf {cap : ℕ} (hcap : 0 < cap) (es : List (K × V)) :
    (tableOf cap es).flatten.length = es.length := by
  induction es using List.reverseRecOn with
  | nil => simp [tableOf]
  | append_singleton es e ih =>
    have hlt : slot cap e.1 < (tableOf cap es).length := by
      rw [length_tableOf]
      exact Nat.mod_lt _ hcap
    rw [← modify_tableOf, List.modify_eq_take_cons_drop hlt, List.flatten_append, List.flatten_cons,
      List.length_append, List.length_append, List.length_append, List.length_append,
      List.length_singleton, ← ih]
    conv_rhs => rw [← List.take_append_drop (slot cap e.1) (tableOf cap es),
      List.drop_eq_getElem_cons hlt, List.flatten_append, List.flatten_cons, List.length_append,
      List.length_append]
    omega

omit [DecidableEq K] in
theorem resize_tableOf (cap : ℕ) (es : List (K × V)) :
    (tableOf cap es).resize = tableOf (cap * 2) es := by
  apply List.ext_getElem?
  intro j
  have hlen : ((tableOf cap es).half 0).length = cap := by simp [Table.half, length_tableOf]
  have hsplit : ∀ e : K × V, ∀ bit i : ℕ, i < cap → bit < 2 →
      (slot cap e.1 = i ∧ spreadHash e.1 / cap % 2 = bit ↔ slot (cap * 2) e.1 = i + cap * bit) := by
    intro e bit i hi hbit
    have hlt : slot cap e.1 < cap := Nat.mod_lt _ (by omega)
    have hmod := Nat.mod_two_eq_zero_or_one (spreadHash e.1 / cap)
    rw [Table.slot_mul_two]
    rcases hmod with h | h <;> rw [h] <;> interval_cases bit <;> omega
  rw [Table.resize, List.getElem?_append, hlen, getElem?_tableOf]
  split_ifs with hj hj2 hj2
  · rw [Table.getElem?_half, getElem?_tableOf, if_pos hj, length_tableOf]
    simp only [Option.map_some, List.filter_filter, Option.some.injEq]
    refine List.filter_congr fun e _ => ?_
    rw [← Bool.decide_and, decide_eq_decide, and_comm, hsplit e 0 j hj (by decide)]
    simp
  · omega
  · rw [Table.getElem?_half, getElem?_tableOf, if_pos (by omega), length_tableOf]
    simp only [Option.map_some, List.filter_filter, Option.some.injEq]
    refine List.filter_congr fun e _ => ?_
    rw [← Bool.decide_and, decide_eq_decide, and_comm, hsplit e 1 (j - cap) (by omega) (by decide),
      show j - cap + cap * 1 = j by omega]
  · rw [Table.getElem?_half, getElem?_tableOf, if_neg (by omega)]
    rfl

/-- The capacity that a new map reaches by `n` insertions of new keys. -/
def capacityFor : ℕ → ℕ
  | 0 => 16
  | n + 1 => if 3 * capacityFor n < 4 * (n + 1) ∧ capacityFor n < maxCapacity
      then capacityFor n * 2 else capacityFor n

/-- A map filled entry by entry, as a reader of a written map does. -/
def ofEntries (es : List (K × V)) : HashMap K V := es.foldl (fun m e => m.put e.1 e.2) empty

/-- The copy has the entries of the original. -/
theorem mem_entries_ofEntries {es : List (K × V)} (hes : (es.map Prod.fst).Nodup) {e : K × V} :
    e ∈ (ofEntries es).entries ↔ e ∈ es := by
  induction es using List.reverseRecOn with
  | nil => simp [ofEntries]
  | append_singleton es a ih =>
    rw [List.map_append, List.nodup_append] at hes
    have ha : ∀ x ∈ es, x.1 ≠ a.1 := fun x hx hxa =>
      hes.2.2 _ (List.mem_map_of_mem hx) a.1 (by simp) hxa
    have hput : ofEntries (es ++ [a]) = (ofEntries es).put a.1 a.2 := by
      rw [ofEntries, List.foldl_append]
      rfl
    rw [hput, mem_entries_put, ih hes.1, List.mem_append, List.mem_singleton, Prod.ext_iff]
    constructor
    · rintro (h | h)
      · exact Or.inr ⟨h.2, h.1⟩
      · exact Or.inl h.2
    · rintro (h | h)
      · exact Or.inr ⟨ha e h, h⟩
      · exact Or.inl ⟨h.2, h.1⟩

/-- As a mapping, the copy is the original. -/
theorem get?_ofEntries (m : HashMap K V) (k : K) : (ofEntries m.entries).get? k = m.get? k := by
  ext v
  rw [get?_eq_some, get?_eq_some, mem_entries_ofEntries m.nodup_keys]

theorem table_ofEntries {es : List (K × V)} (hes : (es.map Prod.fst).Nodup) :
    (ofEntries es).table = tableOf (capacityFor es.length) es := by
  induction es using List.reverseRecOn with
  | nil => rfl
  | append_singleton es e ih =>
    rw [List.map_append, List.nodup_append] at hes
    have hk : e.1 ∉ es.map Prod.fst := fun h => hes.2.2 _ h e.1 (by simp) rfl
    have hput : (ofEntries (es ++ [e])).table = ((ofEntries es).table).put e.1 e.2 := by
      rw [ofEntries, List.foldl_append]
      rfl
    have hpos : 0 < capacityFor es.length := by
      have := (ofEntries es).isTable.length_pos
      rwa [ih hes.1, length_tableOf] at this
    have hmodify : (tableOf (capacityFor es.length) es).modify (slot (capacityFor es.length) e.1)
        (putBucket e.1 e.2) = tableOf (capacityFor es.length) (es ++ [e]) := by
      rw [← modify_tableOf]
      apply List.ext_getElem?
      intro j
      rw [List.getElem?_modify, List.getElem?_modify, getElem?_tableOf]
      split_ifs with hj hj'
      · have hbucket : e.1 ∉ (es.filter fun x => slot (capacityFor es.length) x.1 = j).map Prod.fst :=
          fun h => hk ((List.filter_sublist.map _).subset h)
        simp [putBucket_of_notMem hbucket]
      · rfl
      · rfl
      · rfl
    rw [hput, Table.put, ih hes.1, length_tableOf, hmodify, Table.grow, length_tableOf,
      length_flatten_tableOf hpos, List.length_append, List.length_singleton, capacityFor]
    split_ifs
    · exact resize_tableOf _ _
    · rfl

/-- The copy has the order of the original if its table has as many buckets. -/
theorem ofEntries_entries_eq_iff (m : HashMap K V) :
    ofEntries m.entries = m ↔ m.capacity = capacityFor m.size := by
  rw [HashMap.ext_iff, table_ofEntries m.nodup_keys, m.table_eq_tableOf]
  refine ⟨fun h => ?_, fun h => ?_⟩
  · have := congrArg List.length h
    rw [length_tableOf, length_tableOf] at this
    exact this.symm
  · rw [h]
    rfl

end HashMap

end JavaLib
