import ReplicatedScheduler.Spread.Groups
import Mathlib.Data.Finset.Card

/-!
# What groups are for

Each group has a set of members and a number that counts its changes. A member is told of every
change to one of its groups while it is a member, and gets every message for one of its groups
(`Views.tells`). Nothing of that knows of daemons, mailboxes or containers.

Below it is how a daemon tells its sessions: `Hear f ss ss'` says that each session was told what
`f` says, and nothing else about it changed.
-/

namespace ReplicatedScheduler.Spread

open Lib

/-! ## Sets of members -/

/-- A group that has members. -/
structure Roster where
  name : Name
  grpId : GroupId
  members : Finset Name

def Roster.key (r : Roster) : List ℕ := order r.name

/-- The groups that have members, by name. -/
abbrev Views := SkipList Roster.key

/-- What a session is told. -/
inductive Told
  | message (m : Message)
  | view (group : Name) (grpId : GroupId) (members : Finset Name) (cause : MembCause)
      (subject : Name)
  | selfLeave (group : Name)
  deriving DecidableEq

def GroupId.next (g : GroupId) : GroupId := { g with index := g.index + 1 }

namespace Roster

def view (r : Roster) (cause : MembCause) (subject : Name) : Told :=
  .view r.name r.grpId r.members cause subject

/-- After `p` joined. -/
def joined (r : Roster) (p : Name) : Roster :=
  { r with grpId := r.grpId.next, members := insert p r.members }

/-- After `p` left. -/
def without (r : Roster) (p : Name) : Roster :=
  { r with grpId := r.grpId.next, members := r.members.erase p }

/-- More members than a membership message has room for. -/
def Crowded (r : Roster) : Prop := 4471 < r.members.card

instance (r : Roster) : Decidable r.Crowded := inferInstanceAs (Decidable (_ < _))

theorem Crowded.of_without {r : Roster} {p : Name} (h : (r.without p).Crowded) : r.Crowded :=
  Nat.lt_of_lt_of_le h (Finset.card_le_card (Finset.erase_subset p r.members))

end Roster

theorem tooManyElements_iff (k : ℕ) :
    maxScatterElements < numElements (membLen k + messageHeaderSize) ↔ 4471 < k := by
  simp only [maxScatterElements, numElements, membLen, messageHeaderSize, maxGroupName,
    packetBodySize]
  omega

/-- A message ends the session that sent it. -/
def Message.Ends (m : Message) : Prop :=
  ¬ Has m.type joinMess ∧ ¬ Has m.type leaveMess ∧ Has m.type killMess

instance (m : Message) : Decidable m.Ends := inferInstanceAs (Decidable (_ ∧ _))

theorem ends_of_oneKind {m : Message} (hkind : OneKind m.type) (h : Has m.type killMess) :
    m.Ends := by
  have hbits : countBitsSet m.type 16 19 =
      (m.type.getLsbD 16).toNat + (m.type.getLsbD 17).toNat + (m.type.getLsbD 18).toNat := by
    have hrange : List.range (19 - 16) = [0, 1, 2] := rfl
    rw [countBitsSet, hrange]
    simp only [List.filter_cons, List.filter_nil]
    cases m.type.getLsbD 16 <;> cases m.type.getLsbD 17 <;> cases m.type.getLsbD 18 <;> rfl
  have hone := hkind.2.1
  have hkill : m.type.getLsbD 18 = true := (has_twoPow m.type (by omega)).mp h
  rw [hbits, hkill] at hone
  refine ⟨fun hjoin => ?_, fun hleave => ?_, h⟩
  · have hjoin : m.type.getLsbD 16 = true := (has_twoPow m.type (by omega)).mp hjoin
    rw [hjoin] at hone
    simp at hone
  · have hleave : m.type.getLsbD 17 = true := (has_twoPow m.type (by omega)).mp hleave
    rw [hleave] at hone
    simp at hone

namespace Views

/-- The group with a name; one that has no members begins at 0. -/
def roster (v : Views) (id : MembershipId) (g : Name) : Roster :=
  (v.find? (order g)).getD ⟨g, ⟨id, 0⟩, ∅⟩

def join (v : Views) (id : MembershipId) (p g : Name) : Views :=
  if p ∈ (v.roster id g).members then v else v.put ((v.roster id g).joined p)

/-- Without the member `p` of `r`. -/
def remove (v : Views) (p : Name) (r : Roster) : Views :=
  if p ∈ r.members then
    if r.members.erase p = ∅ then v.erase r.key else v.put (r.without p)
  else v

def leave (v : Views) (p g : Name) : Views :=
  match v.find? (order g) with
  | none => v
  | some r => v.remove p r

def kill (v : Views) (p : Name) : Views := v.elems.foldl (fun v r => v.remove p r) v

/-- The table after a message. -/
def apply (id : MembershipId) (v : Views) (m : Message) : Views :=
  if Has m.type joinMess then v.join id m.sender (m.groups.headD [])
  else if Has m.type leaveMess then v.leave m.sender (m.groups.headD [])
  else if Has m.type killMess then v.kill m.sender
  else v

/-- What `q` is told when a member of `r` is removed. -/
def removalTells (p : Name) (cause : MembCause) (q : Name) (r : Roster) : List Told :=
  if p ∈ r.members ∧ q ∈ r.members.erase p then [(r.without p).view cause p] else []

def joinTells (v : Views) (id : MembershipId) (p g q : Name) : List Told :=
  if p ∉ (v.roster id g).members ∧ q ∈ ((v.roster id g).joined p).members then
    [((v.roster id g).joined p).view .join p]
  else []

def leaveTells (v : Views) (p g q : Name) : List Told :=
  match v.find? (order g) with
  | none => []
  | some r =>
    (if q = p ∧ p ∈ r.members then [Told.selfLeave r.name] else []) ++ removalTells p .leave q r

def killTells (v : Views) (p q : Name) : List Told :=
  v.elems.flatMap (removalTells p .disconnect q)

/-- A message is for a session: for its private group, or for a group that it is a member of. -/
def Reaches (v : Views) (m : Message) (q : Name) : Prop :=
  q ∈ m.groups ∨ ∃ g ∈ m.groups, g.head? ≠ some hashChar ∧ ∃ r ∈ v.find? (order g), q ∈ r.members

instance (v : Views) (m : Message) (q : Name) : Decidable (v.Reaches m q) :=
  inferInstanceAs (Decidable (_ ∨ _))

/-- One of the groups of a message is for `q`. -/
def ReachesBy (v : Views) (g q : Name) : Prop :=
  g = q ∨ g.head? ≠ some hashChar ∧ ∃ r ∈ v.find? (order g), q ∈ r.members

theorem reaches_iff (v : Views) {m : Message} {q : Name} :
    v.Reaches m q ↔ ∃ g ∈ m.groups, v.ReachesBy g q := by
  constructor
  · rintro (hq | ⟨g, hg, hreach⟩)
    · exact ⟨q, hq, Or.inl rfl⟩
    · exact ⟨g, hg, Or.inr hreach⟩
  · rintro ⟨g, hg, rfl | hreach⟩
    · exact Or.inl hg
    · exact Or.inr ⟨g, hg, hreach⟩

/-- What a message tells the session `q`, which may not have asked for membership messages. -/
def tells (id : MembershipId) (v : Views) (m : Message) (q : Name) (memb : Bool) :
    List Told :=
  if Has m.type joinMess then
    if memb then v.joinTells id m.sender (m.groups.headD []) q else []
  else if Has m.type leaveMess then
    if memb then v.leaveTells m.sender (m.groups.headD []) q else []
  else if Has m.type killMess then if memb then v.killTells m.sender q else []
  else if v.Reaches m q ∧ ¬ (Has m.type selfDiscard ∧ m.sender = q) then [.message m] else []

end Views

namespace Views

theorem not_mem_foldl_remove {p : Name} {rs : List Roster} {v : Views}
    (h : ∀ r ∈ v, p ∈ r.members → r ∈ rs) :
    ∀ r ∈ rs.foldl (fun v r => v.remove p r) v, p ∉ r.members := by
  induction rs generalizing v with
  | nil => exact fun r hr hin => List.not_mem_nil (h r hr hin)
  | cons r₀ rs ih =>
    refine ih fun r hr hin => ?_
    change r ∈ v.remove p r₀ at hr
    have hne : p ∈ r₀.members → r ∈ v ∧ r ≠ r₀ := by
      intro hin₀
      rw [remove, if_pos hin₀] at hr
      split_ifs at hr
      · obtain ⟨hr, hkey⟩ := SkipList.mem_erase.mp hr
        exact ⟨hr, fun heq => hkey (congrArg Roster.key heq)⟩
      · rcases SkipList.mem_put.mp hr with rfl | ⟨hr, hkey⟩
        · exact absurd hin (Finset.notMem_erase p r₀.members)
        · exact ⟨hr, fun heq => hkey (heq ▸ rfl)⟩
    by_cases hin₀ : p ∈ r₀.members
    · obtain ⟨hr, hne⟩ := hne hin₀
      exact (List.mem_cons.mp (h r hr hin)).resolve_left hne
    · rw [remove, if_neg hin₀] at hr
      refine (List.mem_cons.mp (h r hr hin)).resolve_left fun heq => hin₀ ?_
      rwa [← heq]

/-- Each group has a member. -/
def Occupied (v : Views) : Prop := ∀ r ∈ v, r.members ≠ ∅

theorem Occupied.put {v : Views} (h : v.Occupied) {r : Roster} (hr : r.members ≠ ∅) :
    Occupied (v.put r) := by
  intro r' hr'
  rcases SkipList.mem_put.mp hr' with rfl | ⟨hr', -⟩
  · exact hr
  · exact h r' hr'

theorem Occupied.remove {v : Views} (h : v.Occupied) (p : Name) (r : Roster) :
    (v.remove p r).Occupied := by
  unfold Views.remove
  split_ifs with hin hempty
  · exact fun r' hr' => h r' (SkipList.mem_erase.mp hr').1
  · exact h.put hempty
  · exact h

theorem Occupied.apply {v : Views} (h : v.Occupied) (id : MembershipId) (m : Message) :
    (v.apply id m).Occupied := by
  unfold Views.apply
  split_ifs
  · unfold join
    split_ifs
    · exact h
    · exact h.put (Finset.insert_ne_empty _ _)
  · unfold leave
    split
    · exact h
    · exact h.remove m.sender _
  · unfold kill
    generalize v.elems = rs
    induction rs generalizing v with
    | nil => exact h
    | cons r rs ih => exact ih (h.remove m.sender r)
  · exact h

/-- A session that ended is a member of no group. -/
theorem not_mem_kill (v : Views) (p : Name) : ∀ r ∈ v.kill p, p ∉ r.members :=
  not_mem_foldl_remove fun _ hr _ => hr

/-- The groups after some messages. -/
def after (id : MembershipId) (v : Views) (ms : List Message) : Views := ms.foldl (apply id) v

/-- What some messages tell the session `q`. -/
def tellsAll (id : MembershipId) (q : Name) (memb : Bool) : Views → List Message → List Told
  | _, [] => []
  | v, m :: ms => v.tells id m q memb ++ tellsAll id q memb (v.apply id m) ms

theorem after_append (id : MembershipId) (v : Views) (ms ms' : List Message) :
    v.after id (ms ++ ms') = (v.after id ms).after id ms' := List.foldl_append

theorem tellsAll_append (id : MembershipId) (q : Name) (memb : Bool) (v : Views)
    (ms ms' : List Message) :
    v.tellsAll id q memb (ms ++ ms') =
      v.tellsAll id q memb ms ++ (v.after id ms).tellsAll id q memb ms' := by
  induction ms generalizing v with
  | nil => rfl
  | cons m ms ih => rw [List.cons_append, tellsAll, tellsAll, ih, List.append_assoc]; rfl

theorem Occupied.after {v : Views} (h : v.Occupied) (id : MembershipId) (ms : List Message) :
    (v.after id ms).Occupied := by
  induction ms generalizing v with
  | nil => exact h
  | cons m ms ih => exact ih (h.apply id m)

/-- Only joins, leaves and ends of sessions change the groups. -/
theorem after_filter (id : MembershipId) (v : Views) (ms : List Message) :
    v.after id (ms.filter fun m => IsControl m.type) = v.after id ms := by
  induction ms generalizing v with
  | nil => rfl
  | cons m ms ih =>
    by_cases hm : IsControl m.type
    · rw [List.filter_cons_of_pos (by simpa using hm)]
      exact ih (v.apply id m)
    · have hsame : v.apply id m = v := by
        rw [apply, if_neg fun h => hm (Or.inl h), if_neg fun h => hm (Or.inr (Or.inl h)),
          if_neg fun h => hm (Or.inr (Or.inr h))]
      rw [List.filter_cons_of_neg (by simpa using hm), ih]
      show v.after id ms = (v.apply id m).after id ms
      rw [hsame]

end Views

/-- What a message to a session tells it. -/
def Notice.told : Notice → Told
  | .message m => .message m
  | .membership v => .view v.group v.grpId v.members.toFinset v.cause v.subject
  | .selfLeave g => .selfLeave g

/-! ## Telling sessions -/

def Session.write (s : Session) (notice : Notice) : Session :=
  { s with out := s.out ++ [notice] }

/-- All sessions of a kind are told, except those that are killed. -/
def tellAll (ss : List Session) (P : Session → Prop) [DecidablePred P] (notice : Notice) :
    List Session :=
  ss.map fun s => if P s ∧ s.op = true then s.write notice else s

/-- Nothing but what it was told changed, and that by `ts`. -/
structure Session.Hears (s s' : Session) (ts : List Told) : Prop where
  same : s' = { s with out := s'.out }
  out : s'.out.map Notice.told = s.out.map Notice.told ++ if s.op then ts else []

/-- Every session was told what `f` says. -/
def Hear (f : Session → List Told) (ss ss' : List Session) : Prop :=
  List.Forall₂ (fun s s' => s.Hears s' (f s)) ss ss'

/-- No two sessions have the same name, or the same mailbox. -/
structure Distinct (ss : List Session) : Prop where
  names : (ss.map Session.name).Nodup
  mboxes : (ss.map Session.mbox).Nodup

namespace Distinct

variable {ss : List Session}

theorem eq_of_name (h : Distinct ss) {s t : Session} (hs : s ∈ ss) (ht : t ∈ ss)
    (heq : s.name = t.name) : s = t := List.inj_on_of_nodup_map h.names hs ht heq

theorem eq_of_mbox (h : Distinct ss) {s t : Session} (hs : s ∈ ss) (ht : t ∈ ss)
    (heq : s.mbox = t.mbox) : s = t := List.inj_on_of_nodup_map h.mboxes hs ht heq

theorem getSession_eq (h : Distinct ss) {s : Session} (hs : s ∈ ss) :
    getSession ss s.name = some s := by
  obtain ⟨t, ht⟩ : ∃ t, getSession ss s.name = some t :=
    Option.isSome_iff_exists.mp (List.find?_isSome.mpr ⟨s, hs, decide_eq_true rfl⟩)
  have hname := List.find?_some ht
  rw [ht, h.eq_of_name (List.mem_of_find?_eq_some ht) hs (of_decide_eq_true hname)]

theorem getSessionIndex_eq (h : Distinct ss) {s : Session} (hs : s ∈ ss) :
    getSessionIndex ss s.mbox = some s := by
  obtain ⟨t, ht⟩ : ∃ t, getSessionIndex ss s.mbox = some t :=
    Option.isSome_iff_exists.mp (List.find?_isSome.mpr ⟨s, hs, decide_eq_true rfl⟩)
  have hmbox := List.find?_some ht
  rw [ht, h.eq_of_mbox (List.mem_of_find?_eq_some ht) hs (of_decide_eq_true hmbox)]

end Distinct

theorem mem_of_getSession {ss : List Session} {s : Name} {ses : Session}
    (h : getSession ss s = some ses) : ses ∈ ss ∧ ses.name = s := by
  have hname := List.find?_some h
  exact ⟨List.mem_of_find?_eq_some h, of_decide_eq_true hname⟩

theorem hear_tellAll (ss : List Session) (P : Session → Prop) [DecidablePred P]
    (notice : Notice) :
    Hear (fun s => if P s then [notice.told] else []) ss (tellAll ss P notice) := by
  induction ss with
  | nil => exact List.Forall₂.nil
  | cons s ss ih =>
    refine List.Forall₂.cons ?_ ih
    show s.Hears (if P s ∧ s.op = true then s.write notice else s)
      (if P s then [notice.told] else [])
    by_cases hP : P s <;> by_cases hop : s.op = true
    · rw [if_pos ⟨hP, hop⟩, if_pos hP]
      exact ⟨rfl, by rw [if_pos hop]; exact List.map_append⟩
    · rw [if_neg fun h => hop h.2]
      exact ⟨rfl, by rw [if_neg hop, List.append_nil]⟩
    · rw [if_neg fun h => hP h.1, if_neg hP]
      exact ⟨rfl, by rw [ite_self, List.append_nil]⟩
    · rw [if_neg fun h => hP h.1, if_neg hP]
      exact ⟨rfl, by rw [ite_self, List.append_nil]⟩

theorem tellAll_congr {ss : List Session} {P Q : Session → Prop} [DecidablePred P]
    [DecidablePred Q] {notice : Notice} (h : ∀ s ∈ ss, P s ↔ Q s) :
    tellAll ss P notice = tellAll ss Q notice :=
  List.map_congr_left fun s hs => if_congr (and_congr_left' (h s hs)) rfl rfl

/-- Sessions of two kinds are told, none of them twice. -/
theorem tellAll_tellAll (ss : List Session) (P Q : Session → Prop) [DecidablePred P]
    [DecidablePred Q] {notice : Notice} (hnot : ∀ s, P s → ¬ Q s)
    (hwrite : ∀ s, Q (s.write notice) ↔ Q s) :
    tellAll (tellAll ss P notice) Q notice = tellAll ss (fun s => P s ∨ Q s) notice := by
  rw [tellAll, tellAll, tellAll, List.map_map]
  refine List.map_congr_left fun s _ => ?_
  rw [Function.comp_apply]
  by_cases hP : P s ∧ s.op = true
  · rw [if_pos hP, if_neg fun h => hnot s hP.1 ((hwrite s).mp h.1), if_pos ⟨Or.inl hP.1, hP.2⟩]
  · rw [if_neg hP]
    refine if_congr ?_ rfl rfl
    exact ⟨fun h => ⟨Or.inr h.1, h.2⟩,
      fun h => ⟨h.1.resolve_left fun hp => hP ⟨hp, h.2⟩, h.2⟩⟩

theorem Hear.refl (ss : List Session) : Hear (fun _ => []) ss ss :=
  List.forall₂_same.mpr fun s _ => ⟨rfl, by rw [ite_self, List.append_nil]⟩

theorem Hear.congr {f g : Session → List Told} {ss ss' : List Session} (h : Hear f ss ss')
    (hfg : ∀ s ∈ ss, s.op = true → f s = g s) : Hear g ss ss' := by
  induction h with
  | nil => exact List.Forall₂.nil
  | @cons s s' ss ss' hs _ ih =>
    refine List.Forall₂.cons ⟨hs.same, ?_⟩ (ih fun t ht => hfg t (List.mem_cons_of_mem _ ht))
    rw [hs.out]
    by_cases hop : s.op = true
    · rw [if_pos hop, if_pos hop, hfg s List.mem_cons_self hop]
    · rw [if_neg hop, if_neg hop]

/-- Being told twice. The second time it does not depend on what was told before. -/
theorem Hear.trans {f g : Session → List Told} {ss ss' ss'' : List Session} (h : Hear f ss ss')
    (h' : Hear g ss' ss'') (hg : ∀ s out, g { s with out := out } = g s) :
    Hear (fun s => f s ++ g s) ss ss'' := by
  induction h generalizing ss'' with
  | nil =>
    cases h'
    exact List.Forall₂.nil
  | @cons s s' ss ss' hs _ ih =>
    obtain _ | ⟨hs', htail⟩ := h'
    refine List.Forall₂.cons ⟨?_, ?_⟩ (ih htail)
    · rw [hs'.same, hs.same]
    · have hop : s'.op = s.op := by rw [hs.same]
      have hgs : g s' = g s := by rw [hs.same, hg]
      rw [hs'.out, hs.out, hop, hgs, List.append_assoc]
      split_ifs <;> simp

/-- Names and mailboxes are as before. -/
theorem Hear.map_eq {f : Session → List Told} {ss ss' : List Session} (h : Hear f ss ss') {α : Type}
    (g : Session → α) (hg : ∀ s out, g { s with out := out } = g s) : ss'.map g = ss.map g := by
  induction h with
  | nil => rfl
  | cons hs _ ih => rw [List.map_cons, List.map_cons, ih, hs.same, hg]

theorem Hear.filter {f : Session → List Told} {ss ss' : List Session} (h : Hear f ss ss')
    (P : Session → Prop) [DecidablePred P] (hP : ∀ s out, P { s with out := out } ↔ P s) :
    Hear f (ss.filter fun s => P s) (ss'.filter fun s => P s) := by
  induction h with
  | nil => exact List.Forall₂.nil
  | @cons s s' ss ss' hs _ ih =>
    have hiff : P s' ↔ P s := by rw [hs.same, hP]
    rw [List.filter_cons, List.filter_cons]
    simp only [hiff]
    split_ifs
    · exact List.Forall₂.cons hs ih
    · exact ih

theorem Hear.exists_left {f : Session → List Told} {ss ss' : List Session} (h : Hear f ss ss')
    {s' : Session} (hs' : s' ∈ ss') : ∃ s ∈ ss, s.Hears s' (f s) := by
  induction h with
  | nil => exact absurd hs' List.not_mem_nil
  | @cons s t ss ss' hs _ ih =>
    rcases List.mem_cons.mp hs' with rfl | hs'
    · exact ⟨s, List.mem_cons_self, hs⟩
    · obtain ⟨u, hu, hhears⟩ := ih hs'
      exact ⟨u, List.mem_cons_of_mem _ hu, hhears⟩

theorem Hear.exists_right {f : Session → List Told} {ss ss' : List Session} (h : Hear f ss ss')
    {s : Session} (hs : s ∈ ss) : ∃ s' ∈ ss', s.Hears s' (f s) := by
  induction h with
  | nil => exact absurd hs List.not_mem_nil
  | @cons t s' ss ss' ht _ ih =>
    rcases List.mem_cons.mp hs with rfl | hs
    · exact ⟨s', List.mem_cons_self, ht⟩
    · obtain ⟨u, hu, hhears⟩ := ih hs
      exact ⟨u, List.mem_cons_of_mem _ hu, hhears⟩

theorem Hear.distinct {f : Session → List Told} {ss ss' : List Session} (h : Hear f ss ss')
    (hd : Distinct ss) : Distinct ss' where
  names := by
    rw [h.map_eq Session.name fun _ _ => rfl]
    exact hd.names
  mboxes := by
    rw [h.map_eq Session.mbox fun _ _ => rfl]
    exact hd.mboxes

/-- The loop over mailboxes tells the sessions that have one of them, each once. -/
theorem foldlM_tell (f : Session → Bool) (hf : ∀ s out, f { s with out := out } = f s)
    (notice : Notice) {ss : List Session} (hd : Distinct ss) {ms : List ℕ} (hms : ms.Nodup)
    (hres : ∀ m ∈ ms, ∃ s ∈ ss, s.mbox = m) :
    ms.foldlM (fun ss mbox =>
      match getSessionIndex ss mbox with
      | none => Except.error SessAlarm.noSession
      | some ses => .ok (if f ses then sessWrite ss ses.name notice else ss)) ss =
      .ok (tellAll ss (fun s => s.mbox ∈ ms ∧ f s = true) notice) := by
  induction ms generalizing ss with
  | nil =>
    refine congrArg Except.ok ?_
    symm
    rw [tellAll]
    simp
  | cons m ms ih =>
    obtain ⟨hm, hrest⟩ := List.nodup_cons.mp hms
    obtain ⟨s, hs, rfl⟩ := hres m List.mem_cons_self
    rw [List.foldlM_cons, hd.getSessionIndex_eq hs]
    -- the first mailbox's session, if it is to be told
    have hfirst : (if f s = true then sessWrite ss s.name notice else ss) =
        tellAll ss (fun t => t.mbox = s.mbox ∧ f t = true) notice := by
      rw [tellAll]
      split_ifs with hfs
      · refine List.map_congr_left fun t ht => ?_
        have hiff : t.name = s.name ∧ t.op = true ↔
            (t.mbox = s.mbox ∧ f t = true) ∧ t.op = true := by
          constructor
          · rintro ⟨hname, hop⟩
            rw [hd.eq_of_name ht hs hname] at hop ⊢
            exact ⟨⟨rfl, hfs⟩, hop⟩
          · rintro ⟨⟨hmbox, -⟩, hop⟩
            exact ⟨by rw [hd.eq_of_mbox ht hs hmbox], hop⟩
        exact if_congr hiff rfl rfl
      · symm
        refine (List.map_congr_left fun t ht => if_neg ?_).trans (List.map_id _)
        rintro ⟨⟨hmbox, hft⟩, -⟩
        rw [hd.eq_of_mbox ht hs hmbox] at hft
        exact hfs hft
    have hhear := hear_tellAll ss (fun t => t.mbox = s.mbox ∧ f t = true) notice
    have hmem : ∀ m' ∈ ms, ∃ t ∈ tellAll ss (fun t => t.mbox = s.mbox ∧ f t = true) notice,
        t.mbox = m' := by
      intro m' hm'
      obtain ⟨t, ht, htm⟩ := hres m' (List.mem_cons_of_mem _ hm')
      have hmaps := hhear.map_eq Session.mbox fun _ _ => rfl
      have : m' ∈ (tellAll ss (fun t => t.mbox = s.mbox ∧ f t = true) notice).map Session.mbox := by
        rw [hmaps, ← htm]
        exact List.mem_map_of_mem ht
      exact List.mem_map.mp this
    show (Except.ok (if f s = true then sessWrite ss s.name notice else ss) >>= _) = _
    rw [hfirst]
    refine (ih (hhear.distinct hd) hrest hmem).trans (congrArg Except.ok ?_)
    -- nobody is told twice, since the mailboxes differ
    rw [tellAll_tellAll]
    · refine tellAll_congr fun t _ => ?_
      rw [List.mem_cons]
      exact ⟨fun h => h.elim (fun h => ⟨Or.inl h.1, h.2⟩) fun h => ⟨Or.inr h.1, h.2⟩,
        fun h => h.1.imp (fun hfirst => ⟨hfirst, h.2⟩) fun hin => ⟨hin, h.2⟩⟩
    · intro t ht hin
      exact hm (ht.1 ▸ hin.1)
    · intro t
      rw [Session.write, hf]

/-- The loop over mailboxes, without the session that sent the message. -/
theorem foldlM_tellOthers (source : Option Name) (notice : Notice) {ss : List Session}
    (hd : Distinct ss) {ms : List ℕ} (hms : ms.Nodup) (hres : ∀ m ∈ ms, ∃ s ∈ ss, s.mbox = m) :
    ms.foldlM (fun ss mbox =>
      match getSessionIndex ss mbox with
      | none => Except.error SessAlarm.noSession
      | some ses => .ok (if some ses.name = source then ss else sessWrite ss ses.name notice)) ss =
      .ok (tellAll ss (fun s => s.mbox ∈ ms ∧ some s.name ≠ source) notice) := by
  have htell := foldlM_tell (fun s => decide (some s.name ≠ source)) (fun _ _ => rfl) notice hd hms
    hres
  simp only [decide_eq_true_eq, ite_not] at htell
  exact htell

end ReplicatedScheduler.Spread
