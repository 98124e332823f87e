import Mathlib.Tactic.Common

/-!
# Replaying an agreed sequence

State machine replication: every replica applies one agreed sequence of events, each at its own
pace. `replay f s log p` is the state after the first `p` events. It depends on nothing but the
prefix, so two replicas at the same position are in the same state, and a longer sequence does
not change what has been replayed.
-/

namespace Lib

variable {σ ε : Type*} (f : σ → ε → σ) (s : σ)

/-- The state after the first `p` events of the sequence. -/
def replay (log : List ε) (p : ℕ) : σ := (log.take p).foldl f s

@[simp] theorem replay_zero (log : List ε) : replay f s log 0 = s := rfl

/-- A longer sequence replays the same up to the old end. -/
theorem replay_append {log : List ε} {p : ℕ} (h : p ≤ log.length) (more : List ε) :
    replay f s (log ++ more) p = replay f s log p := by
  rw [replay, replay, List.take_append_of_le_length h]

/-- The next event. -/
theorem replay_succ {log : List ε} {p : ℕ} {e : ε} (h : log[p]? = some e) :
    replay f s log (p + 1) = f (replay f s log p) e := by
  rw [replay, replay, List.take_add_one, h, List.foldl_append]
  rfl

theorem getElem?_of_append {log : List ε} {p : ℕ} {e : ε} (h : log[p]? = some e)
    (more : List ε) : (log ++ more)[p]? = some e := by
  rw [List.getElem?_append_left (List.getElem?_eq_some_iff.mp h).1, h]

/-- What is ahead of position `p`. -/
theorem drop_eq_cons {log : List ε} {p : ℕ} {e : ε} (h : log[p]? = some e) :
    log.drop p = e :: log.drop (p + 1) := by
  obtain ⟨hp, rfl⟩ := List.getElem?_eq_some_iff.mp h
  exact List.drop_eq_getElem_cons hp

theorem mem_drop_append {log : List ε} {p : ℕ} {e : ε} (h : e ∈ log.drop p) (more : List ε) :
    e ∈ (log ++ more).drop p := by
  rw [List.drop_append]
  exact List.mem_append_left _ h

/-- What is added is ahead of every position. -/
theorem mem_drop_concat {log : List ε} {p : ℕ} (h : p ≤ log.length) (e : ε) :
    e ∈ (log ++ [e]).drop p := by
  rw [List.drop_append_of_le_length h]
  exact List.mem_append_right _ List.mem_cons_self

/-- An event of a sequence that grew is the new one or was there before. -/
theorem concat_eq_append_cons {log pre post : List ε} {e e' : ε}
    (h : log ++ [e] = pre ++ e' :: post) :
    (log = pre ∧ e = e' ∧ post = []) ∨ ∃ post', post = post' ++ [e] ∧ log = pre ++ e' :: post' := by
  rcases List.eq_nil_or_concat post with rfl | ⟨post', e'', rfl⟩
  · obtain ⟨rfl, heq⟩ := List.append_inj' h rfl
    exact Or.inl ⟨rfl, (List.cons.inj heq).1, rfl⟩
  · rw [List.concat_eq_append, ← List.cons_append, ← List.append_assoc] at h
    obtain ⟨rfl, heq⟩ := List.append_inj' h rfl
    obtain ⟨rfl, -⟩ := List.cons.inj heq
    exact Or.inr ⟨post', List.concat_eq_append .., rfl⟩

/-- Removing an entry keeps every other entry. -/
theorem mem_eraseIdx_of_ne {l : List ε} {i : ℕ} {a b : ε} (h : l[i]? = some a)
    (hb : b ∈ l) (hne : b ≠ a) : b ∈ l.eraseIdx i := by
  obtain ⟨j, hj⟩ := List.mem_iff_getElem?.mp hb
  refine List.mem_eraseIdx_iff_getElem?.mpr ⟨j, ?_, hj⟩
  rintro rfl
  rw [h] at hj
  exact hne (Option.some.inj hj).symm

/-! ## Segments -/

/-- The events from position `a` up to position `b`. -/
def segment (log : List ε) (a b : ℕ) : List ε := (log.take b).drop a

theorem mem_segment {log : List ε} {a b : ℕ} {e : ε} :
    e ∈ segment log a b ↔ ∃ i, a ≤ i ∧ i < b ∧ log[i]? = some e := by
  rw [segment, List.mem_iff_getElem?]
  constructor
  · rintro ⟨i, hi⟩
    rw [List.getElem?_drop, List.getElem?_take] at hi
    split_ifs at hi with hlt
    exact ⟨a + i, by omega, hlt, hi⟩
  · rintro ⟨i, ha, hb, hi⟩
    refine ⟨i - a, ?_⟩
    rw [List.getElem?_drop, List.getElem?_take, show a + (i - a) = i by omega, if_pos hb, hi]

theorem segment_eq_nil {log : List ε} {a b : ℕ} (h : b ≤ a) : segment log a b = [] := by
  rw [segment, List.drop_eq_nil_iff, List.length_take]
  omega

/-- A longer sequence has the same segments up to the old end. -/
theorem segment_append {log : List ε} {b : ℕ} (h : b ≤ log.length) (a : ℕ) (more : List ε) :
    segment (log ++ more) a b = segment log a b := by
  rw [segment, segment, List.take_append_of_le_length h]

theorem segment_split {log : List ε} {a b c : ℕ} (hab : a ≤ b) (hbc : b ≤ c) :
    segment log a c = segment log a b ++ segment log b c := by
  have htake : log.take c = log.take b ++ (log.take c).drop b := by
    conv_lhs => rw [← List.take_append_drop b (log.take c)]
    rw [List.take_take, Nat.min_eq_left hbc]
  rw [segment, segment, segment]
  conv_lhs => rw [htake]
  by_cases hlen : a ≤ (log.take b).length
  · rw [List.drop_append_of_le_length hlen]
  · -- the sequence ends before `a`
    have hshort : log.length ≤ a := by
      rw [List.length_take] at hlen
      omega
    have hdrop : (log.take c).drop b = [] :=
      List.drop_eq_nil_of_le (by rw [List.length_take]; omega)
    rw [hdrop]
    simp

theorem segment_succ {log : List ε} {a b : ℕ} {e : ε} (hab : a ≤ b) (h : log[b]? = some e) :
    segment log a (b + 1) = segment log a b ++ [e] := by
  rw [segment_split hab (Nat.le_succ b)]
  congr 1
  obtain ⟨hb, rfl⟩ := List.getElem?_eq_some_iff.mp h
  have hlen : b ≤ (log.take b).length := by
    rw [List.length_take]
    omega
  rw [segment, List.take_add_one, h, List.drop_append_of_le_length hlen]
  simp

/-! ## Positions -/

/-- Keys that occur once occur at one position. -/
theorem eq_of_nodup_filterMap {κ : Type*} {key : ε → Option κ} {log : List ε}
    (h : (log.filterMap key).Nodup) {p q : ℕ} {e e' : ε} {k : κ} (hp : log[p]? = some e)
    (hq : log[q]? = some e') (hk : key e = some k) (hk' : key e' = some k) : p = q := by
  obtain ⟨hp', rfl⟩ := List.getElem?_eq_some_iff.mp hp
  obtain ⟨hq', rfl⟩ := List.getElem?_eq_some_iff.mp hq
  have hpair := List.pairwise_iff_getElem.mp (List.pairwise_filterMap.mp h)
  rcases Nat.lt_trichotomy p q with hlt | heq | hlt
  · exact absurd rfl (hpair p q hp' hq' hlt k hk k hk')
  · exact heq
  · exact absurd rfl (hpair q p hq' hp' hlt k hk' k hk)

end Lib
