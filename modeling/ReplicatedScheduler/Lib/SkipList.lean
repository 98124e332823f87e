import Mathlib.Data.List.Nodup
import Mathlib.Order.Lattice

/-!
# Containers sorted by a key

A container has its elements in the order of their keys, and one element for a key. Putting an
element replaces the one with its key.

Two containers with the same elements are equal (`SkipList.ext`): how they came about leaves no
trace in the order.
-/

namespace Lib

variable {α κ : Type*} [LinearOrder κ]

/-- Elements sorted by `key`. -/
structure SkipList (key : α → κ) where
  elems : List α
  sorted : elems.Pairwise fun a b => key a < key b

namespace SkipList

variable {key : α → κ}

instance [DecidableEq α] : DecidableEq (SkipList key) := fun s t =>
  decidable_of_iff (s.elems = t.elems) ⟨fun h => by cases s; cases t; cases h; rfl, fun h => h ▸ rfl⟩

instance : Membership α (SkipList key) := ⟨fun s a => a ∈ s.elems⟩

theorem mem_elems {s : SkipList key} {a : α} : a ∈ s.elems ↔ a ∈ s := Iff.rfl

/-- An element goes before the first one with a greater key. -/
def insertElem (key : α → κ) (a : α) : List α → List α
  | [] => [a]
  | b :: l =>
    if key a < key b then a :: b :: l
    else if key b < key a then b :: insertElem key a l
    else a :: l

theorem mem_insertElem {a b : α} {l : List α} (h : l.Pairwise fun a b => key a < key b) :
    b ∈ insertElem key a l ↔ b = a ∨ b ∈ l ∧ key b ≠ key a := by
  induction l with
  | nil => simp [insertElem]
  | cons c l ih =>
    obtain ⟨hc, hl⟩ := List.pairwise_cons.mp h
    rw [insertElem]
    split_ifs with hlt hgt
    · have hne : ∀ d ∈ c :: l, key d ≠ key a := by
        intro d hd
        rcases List.mem_cons.mp hd with rfl | hd
        · exact ne_of_gt hlt
        · exact ne_of_gt (lt_trans hlt (hc d hd))
      rw [List.mem_cons]
      exact or_congr_right ⟨fun hb => ⟨hb, hne b hb⟩, And.left⟩
    · rw [List.mem_cons, ih hl, List.mem_cons]
      constructor
      · rintro (rfl | rfl | ⟨hb, hne⟩)
        · exact Or.inr ⟨Or.inl rfl, ne_of_lt hgt⟩
        · exact Or.inl rfl
        · exact Or.inr ⟨Or.inr hb, hne⟩
      · rintro (rfl | ⟨rfl | hb, hne⟩)
        · exact Or.inr (Or.inl rfl)
        · exact Or.inl rfl
        · exact Or.inr (Or.inr ⟨hb, hne⟩)
    · have heq : key c = key a := le_antisymm (not_lt.mp hlt) (not_lt.mp hgt)
      rw [List.mem_cons, List.mem_cons]
      constructor
      · rintro (rfl | hb)
        · exact Or.inl rfl
        · exact Or.inr ⟨Or.inr hb, heq ▸ ne_of_gt (hc b hb)⟩
      · rintro (rfl | ⟨rfl | hb, hne⟩)
        · exact Or.inl rfl
        · exact absurd heq hne
        · exact Or.inr hb

theorem sorted_insertElem (a : α) {l : List α} (h : l.Pairwise fun a b => key a < key b) :
    (insertElem key a l).Pairwise fun a b => key a < key b := by
  induction l with
  | nil => exact List.pairwise_singleton _ a
  | cons c l ih =>
    obtain ⟨hc, hl⟩ := List.pairwise_cons.mp h
    rw [insertElem]
    split_ifs with hlt hgt
    · refine List.pairwise_cons.mpr ⟨fun d hd => ?_, h⟩
      rcases List.mem_cons.mp hd with rfl | hd
      · exact hlt
      · exact lt_trans hlt (hc d hd)
    · refine List.pairwise_cons.mpr ⟨fun d hd => ?_, ih hl⟩
      rcases (mem_insertElem hl).mp hd with rfl | ⟨hd, -⟩
      · exact hgt
      · exact hc d hd
    · have heq : key c = key a := le_antisymm (not_lt.mp hlt) (not_lt.mp hgt)
      exact List.pairwise_cons.mpr ⟨fun d hd => heq ▸ hc d hd, hl⟩

def empty : SkipList key := ⟨[], List.Pairwise.nil⟩

def find? (s : SkipList key) (k : κ) : Option α := s.elems.find? fun a => key a = k

def put (s : SkipList key) (a : α) : SkipList key :=
  ⟨insertElem key a s.elems, sorted_insertElem a s.sorted⟩

def erase (s : SkipList key) (k : κ) : SkipList key :=
  ⟨s.elems.filter fun a => key a ≠ k, s.sorted.filter _⟩

@[simp] theorem not_mem_empty (a : α) : a ∉ (empty : SkipList key) := List.not_mem_nil

@[simp] theorem find?_empty (k : κ) : (empty : SkipList key).find? k = none := rfl

theorem mem_put {s : SkipList key} {a b : α} : b ∈ s.put a ↔ b = a ∨ b ∈ s ∧ key b ≠ key a :=
  mem_insertElem s.sorted

theorem mem_erase {s : SkipList key} {k : κ} {b : α} : b ∈ s.erase k ↔ b ∈ s ∧ key b ≠ k := by
  show b ∈ s.elems.filter _ ↔ _
  rw [List.mem_filter, decide_eq_true_iff, mem_elems]

/-- A key is one element's. -/
theorem eq_of_key {s : SkipList key} {a b : α} (ha : a ∈ s) (hb : b ∈ s) (h : key a = key b) :
    a = b := by
  obtain ⟨l, hl⟩ := s
  change a ∈ l at ha
  change b ∈ l at hb
  induction l with
  | nil => exact absurd ha List.not_mem_nil
  | cons c l ih =>
    obtain ⟨hc, hl⟩ := List.pairwise_cons.mp hl
    rcases List.mem_cons.mp ha with ha' | ha' <;> rcases List.mem_cons.mp hb with hb' | hb'
    · rw [ha', hb']
    · exact absurd (ha' ▸ h) (ne_of_lt (hc b hb'))
    · exact absurd (hb' ▸ h) (ne_of_gt (hc a ha'))
    · exact ih hl ha' hb'

theorem find?_eq_some {s : SkipList key} {k : κ} {a : α} :
    s.find? k = some a ↔ a ∈ s ∧ key a = k := by
  constructor
  · intro h
    have hkey := List.find?_some h
    exact ⟨List.mem_of_find?_eq_some h, of_decide_eq_true hkey⟩
  · rintro ⟨ha, rfl⟩
    obtain ⟨b, hb⟩ : ∃ b, s.find? (key a) = some b :=
      Option.isSome_iff_exists.mp (List.find?_isSome.mpr ⟨a, ha, decide_eq_true rfl⟩)
    have hmem : b ∈ s := List.mem_of_find?_eq_some hb
    have hkey := List.find?_some hb
    rw [hb, eq_of_key hmem ha (of_decide_eq_true hkey)]

theorem find?_eq_none {s : SkipList key} {k : κ} : s.find? k = none ↔ ∀ a ∈ s, key a ≠ k := by
  rw [find?, List.find?_eq_none]
  exact forall₂_congr fun a _ => by simp

theorem nodup (s : SkipList key) : s.elems.Nodup :=
  s.sorted.imp fun {a b} h => fun heq : a = b => lt_irrefl (key b) (heq ▸ h)

/-- The elements decide the container. -/
theorem ext {s t : SkipList key} (h : ∀ a, a ∈ s ↔ a ∈ t) : s = t := by
  have hperm : s.elems.Perm t.elems :=
    (List.perm_ext_iff_of_nodup s.nodup t.nodup).mpr h
  have heq : s.elems = t.elems := hperm.eq_of_pairwise
    (fun _ _ _ _ hab hba => (lt_asymm hab hba).elim) s.sorted t.sorted
  cases s
  cases t
  cases heq
  rfl

/-! ## Containers of related elements

`R` relates elements that have the same key. -/

theorem exists_rel {β : Type*} {key' : β → κ} {R : α → β → Prop} {s : SkipList key}
    {t : SkipList key'} (h : List.Forall₂ R s.elems t.elems) {a : α} (ha : a ∈ s) :
    ∃ b ∈ t, R a b := by
  obtain ⟨k, hk, rfl⟩ := List.getElem_of_mem ha
  have hk' : k < t.elems.length := h.length_eq ▸ hk
  exact ⟨t.elems[k], List.getElem_mem hk', h.get hk hk'⟩

variable {β : Type*} {key' : β → κ} {R : α → β → Prop} (hkey : ∀ a b, R a b → key a = key' b)
include hkey

theorem forall₂_put {s : SkipList key} {t : SkipList key'} (h : List.Forall₂ R s.elems t.elems)
    {a : α} {b : β} (hab : R a b) : List.Forall₂ R (s.put a).elems (t.put b).elems := by
  obtain ⟨l, hl⟩ := s
  obtain ⟨m, hm⟩ := t
  change List.Forall₂ R l m at h
  show List.Forall₂ R (insertElem key a l) (insertElem key' b m)
  clear hl hm
  induction h with
  | nil => exact List.Forall₂.cons hab List.Forall₂.nil
  | @cons c d l m hcd htail ih =>
    rw [insertElem, insertElem, hkey a b hab, hkey c d hcd]
    split_ifs
    · exact List.Forall₂.cons hab (List.Forall₂.cons hcd htail)
    · exact List.Forall₂.cons hcd ih
    · exact List.Forall₂.cons hab htail

theorem forall₂_erase {s : SkipList key} {t : SkipList key'}
    (h : List.Forall₂ R s.elems t.elems) (k : κ) :
    List.Forall₂ R (s.erase k).elems (t.erase k).elems := by
  obtain ⟨l, hl⟩ := s
  obtain ⟨m, hm⟩ := t
  change List.Forall₂ R l m at h
  show List.Forall₂ R (l.filter _) (m.filter _)
  clear hl hm
  induction h with
  | nil => exact List.Forall₂.nil
  | @cons c d l m hcd _ ih =>
    rw [List.filter_cons, List.filter_cons, hkey c d hcd]
    split_ifs
    · exact List.Forall₂.cons hcd ih
    · exact ih

theorem rel_find? {s : SkipList key} {t : SkipList key'} (h : List.Forall₂ R s.elems t.elems)
    (k : κ) : Option.Rel R (s.find? k) (t.find? k) := by
  obtain ⟨l, hl⟩ := s
  obtain ⟨m, hm⟩ := t
  change List.Forall₂ R l m at h
  show Option.Rel R (l.find? _) (m.find? _)
  clear hl hm
  induction h with
  | nil => exact Option.Rel.none
  | @cons c d l m hcd _ ih =>
    rw [List.find?_cons, List.find?_cons, hkey c d hcd]
    split
    · exact Option.Rel.some hcd
    · exact ih

end SkipList

end Lib
