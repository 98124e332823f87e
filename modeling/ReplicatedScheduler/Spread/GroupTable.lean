import ReplicatedScheduler.Lib.Outcome
import ReplicatedScheduler.Spread.Views

/-!
# A daemon's table of groups

**Theorem (`Node.deliverMessage_good`).** A daemon's table shows the members of all groups, whatever
it delivers, and each local session is told exactly what it is to be told. The only alarm is that of
a membership message that is too long, and then a group has too many members (`Roster.Crowded`).

The table of mailboxes is what the proof is about: a group's mailboxes are those of the local
sessions that are members (`Local`), each once. A local member must have its session still; that a
session ends only when its own end is delivered is for the order of messages to see to.
-/

namespace ReplicatedScheduler.Spread

open Lib


variable {n : ℕ}

namespace Network

/-- The private group of a session of daemon `i`. -/
def member (net : Network n) (i : Fin n) (s : Name) : Name := privateGroup s (net.procName i)

variable {net : Network n} {i j : Fin n} {s t : Name}

theorem privateToNames_member (hs : IsPrivateName s) :
    privateToNames (net.member i s) = some (s, net.procName i) :=
  privateToNames_eq_some.mpr ⟨rfl, hs, net.isProcName i⟩

theorem member_injective (hs : IsPrivateName s) (ht : IsPrivateName t)
    (h : net.member i s = net.member j t) : i = j ∧ s = t := by
  have hnames := congrArg privateToNames h
  rw [privateToNames_member hs, privateToNames_member ht, Option.some.injEq,
    Prod.mk.injEq] at hnames
  exact ⟨net.injective hnames.2, hnames.1⟩

/-- A private group fits in the field of a name. -/
theorem isName_member (net : Network n) (i : Fin n) (hs : IsPrivateName s) :
    IsName (net.member i s) where
  noZero := by
    have hlegal : ∀ b : BitVec 8, LegalChar b → b ≠ 0 := by
      rintro b hb rfl
      exact absurd hb.1 (by decide)
    intro hzero
    rcases List.mem_cons.mp hzero with heq | hzero
    · exact absurd heq (by decide)
    rcases List.mem_append.mp hzero with hzero | hzero
    · exact hlegal _ (hs.legal _ hzero) rfl
    rcases List.mem_cons.mp hzero with heq | hzero
    · exact absurd heq (by decide)
    · exact hlegal _ ((net.isProcName i).legal _ hzero) rfl
  fits := by
    have hlen := hs.fits
    have hproc := (net.isProcName i).fits
    rw [maxPrivateName] at hlen
    rw [maxProcName] at hproc
    rw [member, privateGroup, List.length_cons, List.length_append, List.length_cons, maxGroupName]
    omega

end Network

/-- A group of the table has the members of `r`, each at its daemon. -/
structure Abstracts (net : Network n) (grp : Group n) (r : Roster) : Prop where
  name : grp.name = r.name
  grpId : grp.grpId = r.grpId
  nonempty : ∀ d ∈ grp.daemons, d.members.elems ≠ []
  placed : ∀ d ∈ grp.daemons, ∀ p ∈ d.members, ∃ s, IsPrivateName s ∧ p = net.member d.procId s
  mem : ∀ p, p ∈ r.members ↔ ∃ d ∈ grp.daemons, p ∈ d.members
  numMembers : grp.numMembers = r.members.card

/-- The mailboxes of a group are those of the local sessions that are members. -/
structure Local (net : Network n) (me : Fin n) (ss : List Session) (mboxes : List ℕ)
    (members : Finset Name) : Prop where
  nodup : mboxes.Nodup
  mem : ∀ m, m ∈ mboxes ↔ ∃ s ∈ ss, s.mbox = m ∧ net.member me s.name ∈ members
  session : ∀ s, IsPrivateName s → net.member me s ∈ members → ∃ t ∈ ss, t.name = s

/-- A daemon's table shows `v`. -/
structure Node.Good (net : Network n) (me : Fin n) (v : Views) (node : Node n) : Prop where
  distinct : Distinct node.sessions
  legal : ∀ s ∈ node.sessions, IsPrivateName s.name
  groups : List.Forall₂ (fun grp r => Abstracts net grp r ∧
    Local net me node.sessions grp.mboxes r.members) node.groups.elems v.elems

/-- The members of a group at a daemon. -/
def Group.daemon (grp : Group n) (i : Fin n) : DaemonMembers n :=
  (grp.daemons.find? i).getD ⟨i, SkipList.empty⟩

/-- The daemons of a group without the member `p` of `dmn`. -/
def Group.extractMember (grp : Group n) (dmn : DaemonMembers n) (p : Name) :
    SkipList (DaemonMembers.procId (n := n)) :=
  if (dmn.members.erase (order p)).elems = [] then grp.daemons.erase dmn.procId
  else grp.daemons.put { dmn with members := dmn.members.erase (order p) }

theorem Group.procId_daemon (grp : Group n) (i : Fin n) : (grp.daemon i).procId = i := by
  rw [Group.daemon]
  cases hfind : grp.daemons.find? i with
  | none => rfl
  | some d => exact (SkipList.find?_eq_some.mp hfind).2

namespace Abstracts

variable {net : Network n} {grp : Group n} {r : Roster} {i : Fin n} {s : Name}

/-- A member is found at its daemon. -/
theorem mem_member (h : Abstracts net grp r) (hs : IsPrivateName s) :
    net.member i s ∈ r.members ↔
      ∃ dmn, grp.daemons.find? i = some dmn ∧ net.member i s ∈ dmn.members := by
  rw [h.mem]
  constructor
  · rintro ⟨d, hd, hp⟩
    obtain ⟨t, ht, heq⟩ := h.placed d hd _ hp
    obtain ⟨rfl, -⟩ := Network.member_injective hs ht heq
    exact ⟨d, SkipList.find?_eq_some.mpr ⟨hd, rfl⟩, hp⟩
  · rintro ⟨d, hd, hp⟩
    exact ⟨d, (SkipList.find?_eq_some.mp hd).1, hp⟩

/-- Who is not a member is not found. -/
theorem isNone_find? (h : Abstracts net grp r) (hs : IsPrivateName s)
    (hnot : net.member i s ∉ r.members) {dmn : DaemonMembers n}
    (hfind : grp.daemons.find? i = some dmn) :
    (dmn.members.find? (order (net.member i s))).isNone := by
  refine Option.isNone_iff_eq_none.mpr (SkipList.find?_eq_none.mpr fun p hp hkey => hnot ?_)
  rw [order_injective hkey] at hp
  exact (h.mem_member hs).mpr ⟨dmn, hfind, hp⟩

/-- A member is the daemon's, or another daemon's. -/
theorem mem_split (h : Abstracts net grp r) (i : Fin n) (p : Name) :
    p ∈ r.members ↔
      p ∈ (grp.daemon i).members ∨ ∃ e ∈ grp.daemons, e.procId ≠ i ∧ p ∈ e.members := by
  rw [h.mem, Group.daemon]
  constructor
  · rintro ⟨d, hd, hp⟩
    by_cases hi : d.procId = i
    · rw [SkipList.find?_eq_some.mpr ⟨hd, hi⟩]
      exact Or.inl hp
    · exact Or.inr ⟨d, hd, hi, hp⟩
  · rintro (hp | ⟨e, he, -, hp⟩)
    · cases hfind : grp.daemons.find? i with
      | none =>
        rw [hfind] at hp
        exact absurd hp (SkipList.not_mem_empty p)
      | some d =>
        rw [hfind] at hp
        exact ⟨d, (SkipList.find?_eq_some.mp hfind).1, hp⟩
    · exact ⟨e, he, hp⟩

theorem placed_daemon (h : Abstracts net grp r) (i : Fin n) :
    ∀ p ∈ (grp.daemon i).members, ∃ s, IsPrivateName s ∧ p = net.member i s := by
  intro p hp
  rw [Group.daemon] at hp
  cases hfind : grp.daemons.find? i with
  | none =>
    rw [hfind] at hp
    exact absurd hp (SkipList.not_mem_empty p)
  | some d =>
    rw [hfind] at hp
    obtain ⟨hd, rfl⟩ := SkipList.find?_eq_some.mp hfind
    exact h.placed d hd p hp

/-- One daemon's members are replaced by those of `d`. -/
theorem update (h : Abstracts net grp r) {grp' : Group n} {r' : Roster} {d : DaemonMembers n}
    (hname : grp'.name = r'.name) (hgrpId : grp'.grpId = r'.grpId)
    (hnumMembers : grp'.numMembers = r'.members.card)
    (hplaced : ∀ p ∈ d.members, ∃ s, IsPrivateName s ∧ p = net.member d.procId s)
    (hdaemons : ∀ e, e ∈ grp'.daemons ↔
      (e = d ∧ d.members.elems ≠ []) ∨ (e ∈ grp.daemons ∧ e.procId ≠ d.procId))
    (hmem : ∀ p, p ∈ r'.members ↔
      p ∈ d.members ∨ ∃ e ∈ grp.daemons, e.procId ≠ d.procId ∧ p ∈ e.members) :
    Abstracts net grp' r' where
  name := hname
  grpId := hgrpId
  numMembers := hnumMembers
  nonempty e he := by
    rcases (hdaemons e).mp he with ⟨rfl, hne⟩ | ⟨he, -⟩
    · exact hne
    · exact h.nonempty e he
  placed e he := by
    rcases (hdaemons e).mp he with ⟨rfl, -⟩ | ⟨he, -⟩
    · exact hplaced
    · exact h.placed e he
  mem p := by
    rw [hmem]
    constructor
    · rintro (hp | ⟨e, he, hne, hp⟩)
      · exact ⟨d, (hdaemons d).mpr (Or.inl ⟨rfl, List.ne_nil_of_mem hp⟩), hp⟩
      · exact ⟨e, (hdaemons e).mpr (Or.inr ⟨he, hne⟩), hp⟩
    · rintro ⟨e, he, hp⟩
      rcases (hdaemons e).mp he with ⟨rfl, -⟩ | ⟨he, hne⟩
      · exact Or.inl hp
      · exact Or.inr ⟨e, he, hne, hp⟩

/-- After a join. -/
theorem joined (h : Abstracts net grp r) (hs : IsPrivateName s)
    (hnot : net.member i s ∉ r.members) (mboxes : List ℕ) :
    Abstracts net { grp with
      numMembers := grp.numMembers + 1
      grpId := grp.grpId.next
      daemons := grp.daemons.put
        { grp.daemon i with members := (grp.daemon i).members.put (net.member i s) }
      mboxes := mboxes } (r.joined (net.member i s)) := by
  have hproc : (grp.daemon i).procId = i := grp.procId_daemon i
  have hin : net.member i s ∈ (grp.daemon i).members.put (net.member i s) :=
    SkipList.mem_put.mpr (Or.inl rfl)
  refine h.update (d := { grp.daemon i with
    members := (grp.daemon i).members.put (net.member i s) }) h.name ?_ ?_ ?_ ?_ ?_
  · show grp.grpId.next = r.grpId.next
    rw [h.grpId]
  · show grp.numMembers + 1 = (insert (net.member i s) r.members).card
    rw [Finset.card_insert_of_notMem hnot, h.numMembers]
  · intro p hp
    rw [hproc]
    rcases SkipList.mem_put.mp hp with rfl | ⟨hp, -⟩
    · exact ⟨s, hs, rfl⟩
    · exact h.placed_daemon i p hp
  · intro e
    refine SkipList.mem_put.trans (or_congr_left (iff_self_and.mpr fun _ => ?_))
    exact List.ne_nil_of_mem hin
  · intro p
    show p ∈ insert (net.member i s) r.members ↔ p ∈ (grp.daemon i).members.put _ ∨ _
    rw [Finset.mem_insert, h.mem_split i, SkipList.mem_put, hproc, ← or_assoc]
    refine or_congr_left (or_congr_right' fun hne => ?_)
    exact ⟨fun hp => ⟨hp, fun heq => hne (order_injective heq)⟩, And.left⟩

/-- After a member is extracted, with its daemon if that has no more members. -/
theorem without (h : Abstracts net grp r) (hs : IsPrivateName s) {dmn : DaemonMembers n}
    (hfind : grp.daemons.find? i = some dmn) (hin : net.member i s ∈ dmn.members)
    (mboxes : List ℕ) :
    Abstracts net { grp with
      numMembers := grp.numMembers - 1
      grpId := grp.grpId.next
      daemons := grp.extractMember dmn (net.member i s)
      mboxes := mboxes } (r.without (net.member i s)) := by
  obtain ⟨hd, rfl⟩ := SkipList.find?_eq_some.mp hfind
  have hmem := (h.mem_member hs).mpr ⟨dmn, hfind, hin⟩
  have hdaemon : grp.daemon dmn.procId = dmn := by rw [Group.daemon, hfind, Option.getD_some]
  refine h.update (d := { dmn with
    members := dmn.members.erase (order (net.member dmn.procId s)) }) h.name ?_ ?_ ?_ ?_ ?_
  · show grp.grpId.next = r.grpId.next
    rw [h.grpId]
  · show grp.numMembers - 1 = (r.members.erase _).card
    rw [Finset.card_erase_of_mem hmem, h.numMembers]
  · exact fun p hp => h.placed dmn hd p (SkipList.mem_erase.mp hp).1
  · intro e
    show e ∈ grp.extractMember dmn _ ↔ _
    rw [Group.extractMember]
    split_ifs with hempty
    · rw [SkipList.mem_erase]
      exact (or_iff_right fun h => h.2 hempty).symm
    · rw [SkipList.mem_put]
      exact or_congr_left (iff_self_and.mpr fun _ => hempty)
  · intro p
    show p ∈ r.members.erase _ ↔ p ∈ dmn.members.erase _ ∨ _
    rw [Finset.mem_erase, h.mem_split dmn.procId, hdaemon, SkipList.mem_erase]
    constructor
    · rintro ⟨hne, hp | hother⟩
      · exact Or.inl ⟨hp, fun heq => hne (order_injective heq)⟩
      · exact Or.inr hother
    · rintro (⟨hp, hne⟩ | ⟨e, he, hproc, hp⟩)
      · exact ⟨fun heq => hne (congrArg order heq), Or.inl hp⟩
      · refine ⟨?_, Or.inr ⟨e, he, hproc, hp⟩⟩
        rintro rfl
        -- a member has one daemon
        obtain ⟨t, ht, heq⟩ := h.placed e he _ hp
        exact hproc (Network.member_injective hs ht heq).1.symm

/-- A group without members has no daemons. -/
theorem daemons_eq_nil (h : Abstracts net grp r) (hempty : r.members = ∅) :
    grp.daemons.elems = [] := by
  refine List.eq_nil_iff_forall_not_mem.mpr fun d hd => ?_
  obtain ⟨p, hp⟩ := List.exists_mem_of_ne_nil _ (h.nonempty d hd)
  have hin := (h.mem p).mpr ⟨d, hd, hp⟩
  rw [hempty] at hin
  exact Finset.notMem_empty p hin

/-- What is written of the members is the set of them. -/
theorem toFinset_members (h : Abstracts net grp r) : grp.members.toFinset = r.members := by
  ext p
  rw [List.mem_toFinset, Group.members, List.mem_flatMap, h.mem]
  rfl

theorem nodup_members (h : Abstracts net grp r) : grp.members.Nodup := by
  refine List.nodup_flatMap.mpr ⟨fun d _ => d.members.nodup, ?_⟩
  refine grp.daemons.sorted.imp_of_mem fun {d e} hd he hlt => ?_
  refine List.disjoint_left.mpr fun p hpd hpe => ?_
  obtain ⟨s, hs, rfl⟩ := h.placed d hd p hpd
  obtain ⟨t, ht, heq⟩ := h.placed e he _ hpe
  exact absurd (Network.member_injective hs ht heq).1 (ne_of_lt hlt)

theorem length_members (h : Abstracts net grp r) : grp.members.length = r.members.card := by
  rw [← h.toFinset_members, List.toFinset_card_of_nodup h.nodup_members]

end Abstracts

/-! ## Mailboxes -/

/-- The others are kept, in some order. -/
theorem removeMailbox_perm {mboxes : List ℕ} {m : ℕ} (h : m ∈ mboxes) :
    ∃ rest, removeMailbox mboxes m = .ok rest ∧ (m :: rest).Perm mboxes := by
  obtain ⟨k, hk⟩ := Option.isSome_iff_exists.mp (List.isSome_idxOf?.mpr h)
  obtain ⟨hlt, hm, -⟩ := List.idxOf?_eq_some_iff.mp hk
  rcases List.eq_nil_or_concat' mboxes with rfl | ⟨init, last, rfl⟩
  · exact absurd h List.not_mem_nil
  obtain ⟨a, b, hsplit, rfl⟩ : ∃ a b, init ++ [last] = a ++ m :: b ∧ a.length = k :=
    ⟨_, _, by rw [← hm, ← List.drop_eq_getElem_cons, List.take_append_drop],
      List.length_take_of_le (le_of_lt hlt)⟩
  clear hlt hm
  refine ⟨((init ++ [last]).set a.length last).dropLast, ?_, ?_⟩
  · rw [removeMailbox, hk, List.getLast?_concat]
  rcases List.eq_nil_or_concat' b with rfl | ⟨b, last', rfl⟩
  · -- it is the last one
    obtain ⟨rfl, hlast⟩ := List.append_inj' hsplit rfl
    obtain rfl : last = m := List.head_eq_of_cons_eq hlast
    rw [List.set_append_right _ _ le_rfl, Nat.sub_self, List.set_cons_zero, List.dropLast_concat]
    exact (List.perm_append_singleton last init).symm
  · obtain ⟨rfl, hlast⟩ := List.append_inj'
      (hsplit.trans (List.append_assoc a (m :: b) [last']).symm) rfl
    obtain rfl : last = last' := List.head_eq_of_cons_eq hlast
    rw [List.set_append_left _ _ (by rw [List.length_append, List.length_cons]; omega),
      List.set_append_right _ _ le_rfl, Nat.sub_self, List.set_cons_zero, List.dropLast_concat]
    have hmiddle : (m :: (a ++ last :: b)).Perm (last :: (a ++ m :: b)) :=
      ((List.perm_middle.cons m).trans (List.Perm.swap last m _)).trans
        (List.perm_middle.symm.cons last)
    exact hmiddle.trans (List.perm_append_singleton last _).symm

namespace Local

variable {net : Network n} {me i : Fin n} {ss : List Session} {mboxes : List ℕ}
  {members : Finset Name} {s : Name} {ses : Session}

/-- Only names and mailboxes matter. -/
theorem of_map {ss' : List Session} (h : Local net me ss mboxes members)
    (hmap : ss'.map (fun s => (s.name, s.mbox)) = ss.map fun s => (s.name, s.mbox)) :
    Local net me ss' mboxes members := by
  have hex : ∀ P : Name → ℕ → Prop,
      (∃ s ∈ ss', P s.name s.mbox) ↔ ∃ s ∈ ss, P s.name s.mbox := fun P => by
    have hall := congrArg (fun l => ∃ q ∈ l, P q.1 q.2) hmap
    simpa only [List.mem_map, exists_exists_and_eq_and, eq_iff_iff] using hall
  refine ⟨h.nodup, fun m => ?_, fun s hs hin => ?_⟩
  · rw [h.mem]
    exact (hex fun s mbox => mbox = m ∧ net.member me s ∈ members).symm
  · exact (hex fun t _ => t = s).mpr (h.session s hs hin)

theorem hear {f : Session → List Told} {ss' : List Session} (h : Local net me ss mboxes members)
    (hhear : Hear f ss ss') : Local net me ss' mboxes members :=
  h.of_map (hhear.map_eq (fun s => (s.name, s.mbox)) fun _ _ => rfl)

theorem mem_mbox (h : Local net me ss mboxes members) (hd : Distinct ss) (hses : ses ∈ ss) :
    ses.mbox ∈ mboxes ↔ net.member me ses.name ∈ members := by
  rw [h.mem]
  constructor
  · rintro ⟨t, ht, hmbox, hin⟩
    rwa [hd.eq_of_mbox ht hses hmbox] at hin
  · exact fun hin => ⟨ses, hses, rfl, hin⟩

/-- Members of other daemons do not matter. -/
theorem congr {members' : Finset Name} (h : Local net me ss mboxes members)
    (hlegal : ∀ s ∈ ss, IsPrivateName s.name)
    (hiff : ∀ s, IsPrivateName s → (net.member me s ∈ members' ↔ net.member me s ∈ members)) :
    Local net me ss mboxes members' := by
  refine ⟨h.nodup, fun m => ?_, fun s hs hin => h.session s hs ((hiff s hs).mp hin)⟩
  rw [h.mem]
  exact exists_congr fun t => and_congr_right fun ht => and_congr_right fun _ =>
    (hiff t.name (hlegal t ht)).symm

theorem insert_remote (h : Local net me ss mboxes members)
    (hlegal : ∀ s ∈ ss, IsPrivateName s.name) (hi : i ≠ me) (hs : IsPrivateName s) :
    Local net me ss mboxes (insert (net.member i s) members) := by
  refine h.congr hlegal fun t ht => ?_
  rw [Finset.mem_insert]
  exact or_iff_right fun heq => hi (Network.member_injective ht hs heq).1.symm

theorem erase_remote (h : Local net me ss mboxes members)
    (hlegal : ∀ s ∈ ss, IsPrivateName s.name) (hi : i ≠ me) (hs : IsPrivateName s) :
    Local net me ss mboxes (members.erase (net.member i s)) := by
  refine h.congr hlegal fun t ht => ?_
  rw [Finset.mem_erase]
  exact and_iff_right fun heq => hi (Network.member_injective ht hs heq).1.symm

/-- A session is accepted. -/
theorem accept (h : Local net me ss mboxes members) (hlegal : IsPrivateName ses.name)
    (hnew : ∀ t ∈ ss, t.name ≠ ses.name) : Local net me (ses :: ss) mboxes members := by
  have hnot : net.member me ses.name ∉ members := fun hin => by
    obtain ⟨t, ht, hname⟩ := h.session ses.name hlegal hin
    exact hnew t ht hname
  refine ⟨h.nodup, fun m => ?_, fun s hs hin => ?_⟩
  · rw [h.mem]
    constructor
    · rintro ⟨t, ht, hmem⟩
      exact ⟨t, List.mem_cons_of_mem _ ht, hmem⟩
    · rintro ⟨t, ht, hmbox, hin⟩
      rcases List.mem_cons.mp ht with rfl | ht
      · exact absurd hin hnot
      · exact ⟨t, ht, hmbox, hin⟩
  · obtain ⟨t, ht, hname⟩ := h.session s hs hin
    exact ⟨t, List.mem_cons_of_mem _ ht, hname⟩

/-- A local session joins. -/
theorem joined (h : Local net me ss mboxes members) (hd : Distinct ss)
    (hlegal : ∀ s ∈ ss, IsPrivateName s.name) (hses : ses ∈ ss)
    (hnot : net.member me ses.name ∉ members) :
    Local net me ss (mboxes ++ [ses.mbox]) (insert (net.member me ses.name) members) := by
  refine ⟨?_, fun m => ?_, fun s hs hin => ?_⟩
  · refine List.nodup_append.mpr ⟨h.nodup, List.nodup_singleton _, fun m hm m' hm' heq => ?_⟩
    rw [List.mem_singleton.mp hm'] at heq
    exact hnot ((h.mem_mbox hd hses).mp (heq ▸ hm))
  · rw [List.mem_append, List.mem_singleton, h.mem]
    constructor
    · rintro (⟨t, ht, hmbox, hin⟩ | rfl)
      · exact ⟨t, ht, hmbox, Finset.mem_insert_of_mem hin⟩
      · exact ⟨ses, hses, rfl, Finset.mem_insert_self _ _⟩
    · rintro ⟨t, ht, hmbox, hin⟩
      rcases Finset.mem_insert.mp hin with heq | hin
      · have hname := (Network.member_injective (hlegal t ht) (hlegal ses hses) heq).2
        rw [hd.eq_of_name ht hses hname] at hmbox
        exact Or.inr hmbox.symm
      · exact Or.inl ⟨t, ht, hmbox, hin⟩
  · rcases Finset.mem_insert.mp hin with heq | hin
    · exact ⟨ses, hses, (Network.member_injective hs (hlegal ses hses) heq).2.symm⟩
    · exact h.session s hs hin

/-- A local member is extracted. -/
theorem removed (h : Local net me ss mboxes members) (hd : Distinct ss)
    (hlegal : ∀ s ∈ ss, IsPrivateName s.name) (hses : ses ∈ ss)
    (hin : net.member me ses.name ∈ members) :
    ∃ rest, removeMailbox mboxes ses.mbox = .ok rest ∧
      Local net me ss rest (members.erase (net.member me ses.name)) := by
  obtain ⟨rest, hremove, hperm⟩ := removeMailbox_perm ((h.mem_mbox hd hses).mpr hin)
  obtain ⟨hnot, hrest⟩ := List.nodup_cons.mp (hperm.nodup_iff.mpr h.nodup)
  refine ⟨rest, hremove, hrest, fun m => ?_, fun s hs hin =>
    h.session s hs (Finset.mem_of_mem_erase hin)⟩
  constructor
  · intro hm
    obtain ⟨t, ht, rfl, hmem⟩ := (h.mem m).mp (hperm.subset (List.mem_cons_of_mem _ hm))
    refine ⟨t, ht, rfl, Finset.mem_erase.mpr ⟨fun heq => hnot ?_, hmem⟩⟩
    rwa [← hd.eq_of_name ht hses
      (Network.member_injective (hlegal t ht) (hlegal ses hses) heq).2]
  · rintro ⟨t, ht, rfl, hmem⟩
    obtain ⟨hne, hmem⟩ := Finset.mem_erase.mp hmem
    rcases List.mem_cons.mp (hperm.mem_iff.mpr ((h.mem_mbox hd ht).mpr hmem)) with hmbox | hm
    · exact absurd (by rw [hd.eq_of_mbox ht hses hmbox]) hne
    · exact hm

/-- A session that is no member is removed. -/
theorem filter (h : Local net me ss mboxes members) (hnot : net.member i s ∉ members) :
    Local net me (ss.filter fun t => net.member i s ≠ net.member me t.name) mboxes members := by
  have hkeep : ∀ t, net.member me t ∈ members → net.member i s ≠ net.member me t :=
    fun t hin heq => hnot (heq ▸ hin)
  refine ⟨h.nodup, fun m => ?_, fun t ht hin => ?_⟩
  · rw [h.mem]
    refine exists_congr fun t => ?_
    rw [List.mem_filter, decide_eq_true_iff]
    exact ⟨fun ⟨ht, hmbox, hin⟩ => ⟨⟨ht, hkeep t.name hin⟩, hmbox, hin⟩,
      fun ⟨⟨ht, _⟩, hmbox, hin⟩ => ⟨ht, hmbox, hin⟩⟩
  · obtain ⟨u, hu, rfl⟩ := h.session t ht hin
    exact ⟨u, List.mem_filter.mpr ⟨hu, decide_eq_true (hkeep u.name hin)⟩, rfl⟩

/-- Without members there are no mailboxes. -/
theorem eq_nil (h : Local net me ss mboxes ∅) : mboxes = [] := by
  refine List.eq_nil_iff_forall_not_mem.mpr fun m hm => ?_
  obtain ⟨t, -, -, hin⟩ := (h.mem m).mp hm
  exact Finset.notMem_empty _ hin

end Local

/-! ## One group changes -/

namespace Node

variable {net : Network n} {me i : Fin n} {node : Node n} {v : Views} {grp : Group n} {r : Roster}
  {s : Name}

/-- Sessions may change, but for their names and mailboxes. -/
theorem Good.of_map {ss : List Session} (h : node.Good net me v)
    (hmap : ss.map (fun s => (s.name, s.mbox)) =
      node.sessions.map fun s => (s.name, s.mbox)) :
    Good net me v { node with sessions := ss } := by
  have hnames : ss.map Session.name = node.sessions.map Session.name := by
    have hfst := congrArg (List.map Prod.fst) hmap
    rwa [List.map_map, List.map_map] at hfst
  have hmboxes : ss.map Session.mbox = node.sessions.map Session.mbox := by
    have hsnd := congrArg (List.map Prod.snd) hmap
    rwa [List.map_map, List.map_map] at hsnd
  refine ⟨⟨?_, ?_⟩, fun t ht => ?_, h.groups.imp fun _ _ hgrp => ⟨hgrp.1, hgrp.2.of_map hmap⟩⟩
  · show (ss.map Session.name).Nodup
    rw [hnames]
    exact h.distinct.names
  · show (ss.map Session.mbox).Nodup
    rw [hmboxes]
    exact h.distinct.mboxes
  · have hname : t.name ∈ node.sessions.map Session.name := hnames ▸ List.mem_map_of_mem ht
    obtain ⟨t', ht', heq⟩ := List.mem_map.mp hname
    exact heq ▸ h.legal t' ht'

/-- Telling sessions leaves the table. -/
theorem Good.hear {f : Session → List Told} {ss : List Session} (h : node.Good net me v)
    (hhear : Hear f node.sessions ss) : Good net me v { node with sessions := ss } :=
  h.of_map (hhear.map_eq (fun s => (s.name, s.mbox)) fun _ _ => rfl)

/-- A group of the table has the key of what it shows. -/
theorem key_eq {ss : List Session} (grp : Group n) (r : Roster)
    (h : Abstracts net grp r ∧ Local net me ss grp.mboxes r.members) : grp.key = r.key :=
  congrArg order h.1.name

/-- A session is accepted. -/
theorem Good.accept (h : node.Good net me v) {ses : Session} (hlegal : IsPrivateName ses.name)
    (hname : ∀ t ∈ node.sessions, t.name ≠ ses.name)
    (hmbox : ∀ t ∈ node.sessions, t.mbox ≠ ses.mbox) :
    Good net me v { node with sessions := ses :: node.sessions } where
  distinct := by
    refine ⟨List.nodup_cons.mpr ⟨fun hin => ?_, h.distinct.names⟩,
      List.nodup_cons.mpr ⟨fun hin => ?_, h.distinct.mboxes⟩⟩
    · obtain ⟨t, ht, heq⟩ := List.mem_map.mp hin
      exact hname t ht heq
    · obtain ⟨t, ht, heq⟩ := List.mem_map.mp hin
      exact hmbox t ht heq
  legal t ht := by
    rcases List.mem_cons.mp ht with rfl | ht
    · exact hlegal
    · exact h.legal t ht
  groups := h.groups.imp fun _ _ hgrp => ⟨hgrp.1, hgrp.2.accept hlegal hname⟩

theorem setGroup_good (h : node.Good net me v) (hgrp : Abstracts net grp r)
    (hlocal : Local net me node.sessions grp.mboxes r.members) (cause : MembCause)
    (subject : Name) :
    GoesOn (fun node' => node'.Good net me (v.put r) ∧
      Hear (fun t => if t.memb = true ∧ net.member me t.name ∈ r.members then
        [r.view cause subject] else []) node.sessions node'.sessions)
      .tooManyElements r.Crowded (node.setGroup grp cause subject) := by
  let notice := Notice.membership ⟨grp.name, grp.grpId, grp.members, cause, subject⟩
  have htold : notice.told = r.view cause subject := by
    show Told.view grp.name grp.grpId grp.members.toFinset cause subject = _
    rw [hgrp.name, hgrp.grpId, hgrp.toFinset_members, Roster.view]
  have htell := foldlM_tell Session.memb (fun _ _ => rfl) notice h.distinct hlocal.nodup
    fun m hm => by
      obtain ⟨t, ht, hmbox, -⟩ := (hlocal.mem m).mp hm
      exact ⟨t, ht, hmbox⟩
  have hhear := hear_tellAll node.sessions (fun t => t.mbox ∈ grp.mboxes ∧ t.memb = true) notice
  have hput : ∀ ss, ss = tellAll node.sessions (fun t => t.mbox ∈ grp.mboxes ∧ t.memb = true) notice →
      Good net me (v.put r) ⟨ss, node.groups.put grp⟩ ∧
      Hear (fun t => if t.memb = true ∧ net.member me t.name ∈ r.members then
        [r.view cause subject] else []) node.sessions ss := by
    rintro ss rfl
    refine ⟨⟨(h.hear hhear).distinct, (h.hear hhear).legal, ?_⟩, hhear.congr fun t ht _ => ?_⟩
    · exact SkipList.forall₂_put (fun grp r => key_eq grp r) (h.hear hhear).groups
        ⟨hgrp, hlocal.hear hhear⟩
    · rw [htold]
      exact if_congr (and_comm.trans (and_congr_right' (hlocal.mem_mbox h.distinct ht))) rfl rfl
  rw [setGroup]
  split_ifs with hempty
  · rw [hempty] at htell
    exact .ok (hput node.sessions (hempty ▸ Except.ok.inj htell))
  · rw [sendLightweightMemb]
    split_ifs with hlong
    · rw [hgrp.length_members] at hlong
      exact .exit ((tooManyElements_iff _).mp hlong)
    · exact Or.inl ⟨_, congrArg (fun run : Except SessAlarm (List Session) =>
        run >>= fun ss => pure (Node.mk ss (node.groups.put grp))) htell, hput _ rfl⟩

/-- A member is extracted from its group, whose mailboxes are already without it. -/
theorem extract_good (h : node.Good net me v) (hgrp : Abstracts net grp r)
    (hs : IsPrivateName s) {dmn : DaemonMembers n} (hfind : grp.daemons.find? i = some dmn)
    (hin : net.member i s ∈ dmn.members) {mboxes : List ℕ}
    (hlocal : Local net me node.sessions mboxes (r.members.erase (net.member i s)))
    (cause : MembCause) :
    GoesOn (fun node' => node'.Good net me (v.remove (net.member i s) r) ∧
      Hear (fun t => if t.memb = true then
        Views.removalTells (net.member i s) cause (net.member me t.name) r else [])
        node.sessions node'.sessions)
      .tooManyElements r.Crowded
      (node.extract { grp with mboxes := mboxes } dmn (net.member i s) cause) := by
  have hmem := (hgrp.mem_member hs).mpr ⟨dmn, hfind, hin⟩
  have hwithout := hgrp.without hs hfind hin mboxes
  have hcard : grp.numMembers - 1 = (r.members.erase (net.member i s)).card :=
    hwithout.numMembers
  rw [Views.remove, if_pos hmem]
  by_cases hempty : r.members.erase (net.member i s) = ∅
  · -- the group is empty
    have hnone : grp.numMembers - 1 = 0 := by rw [hcard, hempty, Finset.card_empty]
    have hdaemons := hwithout.daemons_eq_nil hempty
    rw [hempty] at hlocal
    refine Or.inl ⟨{ node with groups := node.groups.erase grp.key }, ?_,
      ⟨h.distinct, h.legal, ?_⟩, ?_⟩
    · show (if grp.numMembers - 1 = 0 then _ else _) = _
      rw [if_pos hnone]
      exact if_pos ⟨hdaemons, hlocal.eq_nil⟩
    · rw [if_pos hempty, ← show grp.key = r.key from congrArg order hgrp.name]
      exact SkipList.forall₂_erase (fun grp r => key_eq grp r) h.groups _
    · have hnobody : ∀ t ∈ node.sessions, t.op = true → ([] : List Told) =
          if t.memb = true then
            Views.removalTells (net.member i s) cause (net.member me t.name) r else [] := by
        intro t _ _
        have hnot : ¬ (net.member i s ∈ r.members ∧ net.member me t.name ∈ (∅ : Finset Name)) :=
          fun h => Finset.notMem_empty _ h.2
        rw [Views.removalTells, hempty, if_neg hnot, ite_self]
      exact (Hear.refl _).congr hnobody
  · have hsome : grp.numMembers - 1 ≠ 0 := fun hzero =>
      hempty (Finset.card_eq_zero.mp (hcard ▸ hzero))
    have hrun : node.extract { grp with mboxes := mboxes } dmn (net.member i s) cause =
        node.setGroup _ cause (net.member i s) := if_neg hsome
    rw [hrun]
    refine (setGroup_good h hwithout hlocal cause (net.member i s)).imp (fun node' hnode' => ?_)
      Roster.Crowded.of_without
    refine ⟨?_, hnode'.2.congr fun t _ _ => ?_⟩
    · rw [if_neg hempty]
      exact hnode'.1
    · show (if t.memb = true ∧ net.member me t.name ∈ r.members.erase _ then _ else _) = _
      rw [Views.removalTells, ite_and]
      exact if_congr Iff.rfl (if_congr (iff_and_self.mpr fun _ => hmem) rfl rfl) rfl

/-! ## Joins and leaves -/

/-- The group that a join is for, which may be new. -/
theorem Good.roster (h : node.Good net me v) (g : Name) :
    ∃ grp, (node.groups.find? (order g)).getD ⟨g, ⟨net.regMembId, 0⟩, 0, SkipList.empty, []⟩ = grp ∧
      Abstracts net grp (v.roster net.regMembId g) ∧
      Local net me node.sessions grp.mboxes (v.roster net.regMembId g).members := by
  have hrel := SkipList.rel_find? (fun grp r => key_eq grp r) h.groups (order g)
  rw [Views.roster]
  revert hrel
  cases hgrp : node.groups.find? (order g) <;> cases hr : v.find? (order g) <;> intro hrel
  · refine ⟨_, rfl, ⟨rfl, rfl, ?_, ?_, ?_, rfl⟩, ⟨List.nodup_nil, ?_, ?_⟩⟩
    · exact fun d hd => absurd hd (SkipList.not_mem_empty d)
    · exact fun d hd => absurd hd (SkipList.not_mem_empty d)
    · refine fun p => iff_of_false (Finset.notMem_empty p) ?_
      rintro ⟨d, hd, -⟩
      exact SkipList.not_mem_empty d hd
    · refine fun m => iff_of_false List.not_mem_nil ?_
      rintro ⟨t, -, -, hin⟩
      exact Finset.notMem_empty _ hin
    · exact fun t _ hin => absurd hin (Finset.notMem_empty _)
  · cases hrel
  · cases hrel
  · cases hrel with
    | some hrel => exact ⟨_, rfl, hrel⟩

theorem handleJoin_good (h : node.Good net me v) (hs : IsPrivateName s)
    (hses : i = me → ∃ t ∈ node.sessions, t.name = s) (g : Name) :
    GoesOn (fun node' => node'.Good net me (v.join net.regMembId (net.member i s) g) ∧
      Hear (fun t => if t.memb = true then
        v.joinTells net.regMembId (net.member i s) g (net.member me t.name) else [])
        node.sessions node'.sessions)
      .tooManyElements (∃ r ∈ v.join net.regMembId (net.member i s) g, r.Crowded)
      (node.handleJoin net me (net.member i s) g) := by
  obtain ⟨grp, hgrp, habs, hlocal⟩ := h.roster g
  rw [handleJoin, Network.privateToNames_member hs]
  simp only [Network.procByName_eq_some.mpr rfl, hgrp]
  rw [← Group.daemon, Views.join]
  by_cases hmem : net.member i s ∈ (v.roster net.regMembId g).members
  · -- it is a member already
    have hfind : ((grp.daemon i).members.find? (order (net.member i s))).isSome := by
      obtain ⟨dmn, hdmn, hin⟩ := (habs.mem_member hs).mp hmem
      rw [Group.daemon, hdmn, Option.getD_some, SkipList.find?_eq_some.mpr ⟨hin, rfl⟩]
      rfl
    rw [if_pos hfind, if_pos hmem]
    refine .ok ⟨h, (Hear.refl _).congr fun t _ _ => ?_⟩
    rw [Views.joinTells, if_neg (not_and.mpr fun hnot => absurd hmem hnot), ite_self]
  · have hfind : ¬ ((grp.daemon i).members.find? (order (net.member i s))).isSome := by
      intro hsome
      obtain ⟨p, hp⟩ := Option.isSome_iff_exists.mp hsome
      obtain ⟨hp, hkey⟩ := SkipList.find?_eq_some.mp hp
      rw [order_injective hkey] at hp
      exact hmem ((habs.mem_split i _).mpr (Or.inl hp))
    rw [if_neg hfind, if_neg hmem]
    have hset : ∀ mboxes, Local net me node.sessions mboxes
        (insert (net.member i s) (v.roster net.regMembId g).members) →
        GoesOn (fun node' =>
          node'.Good net me (v.put ((v.roster net.regMembId g).joined (net.member i s))) ∧
          Hear (fun t => if t.memb = true then
            v.joinTells net.regMembId (net.member i s) g (net.member me t.name) else [])
            node.sessions node'.sessions)
          .tooManyElements
          (∃ r ∈ v.put ((v.roster net.regMembId g).joined (net.member i s)), r.Crowded)
          (node.setGroup { grp with
            numMembers := grp.numMembers + 1
            grpId := grp.grpId.next
            daemons := grp.daemons.put
              { grp.daemon i with members := (grp.daemon i).members.put (net.member i s) }
            mboxes := mboxes } .join (net.member i s)) := by
      intro mboxes hnew
      refine (setGroup_good h (habs.joined hs hmem mboxes) hnew .join (net.member i s)).imp
        (fun node' hnode' => ⟨hnode'.1, hnode'.2.congr fun t _ _ => ?_⟩)
        fun hcrowded => ⟨_, SkipList.mem_put.mpr (Or.inl rfl), hcrowded⟩
      rw [Views.joinTells, ite_and]
      exact if_congr Iff.rfl (if_congr (iff_and_self.mpr fun _ => hmem) rfl rfl) rfl
    by_cases hi : i = me
    · obtain ⟨t, ht, rfl⟩ := hses hi
      subst hi
      simp only [if_true, h.distinct.getSession_eq ht]
      exact hset _ (hlocal.joined h.distinct h.legal ht hmem)
    · simp only [hi, if_false]
      exact hset _ (hlocal.insert_remote h.legal hi hs)

/-- A member that is extracted, in one group. -/
theorem killInGroup_good (h : node.Good net me v) (hgrp : Abstracts net grp r)
    (hlocal : Local net me node.sessions grp.mboxes r.members) (hs : IsPrivateName s) :
    GoesOn (fun node' => node'.Good net me (v.remove (net.member i s) r) ∧
      Hear (fun t => if t.memb = true then
        Views.removalTells (net.member i s) .disconnect (net.member me t.name) r else [])
        node.sessions node'.sessions)
      .tooManyElements r.Crowded (killInGroup me i s (net.member i s) node grp) := by
  rw [killInGroup]
  by_cases hmem : net.member i s ∈ r.members
  · obtain ⟨dmn, hdmn, hin⟩ := (hgrp.mem_member hs).mp hmem
    simp only [hdmn, SkipList.find?_eq_some.mpr ⟨hin, rfl⟩]
    rw [if_neg (by simp)]
    by_cases hi : i = me
    · subst hi
      obtain ⟨t, ht, rfl⟩ := hlocal.session s hs hmem
      obtain ⟨rest, hremove, hrest⟩ := hlocal.removed h.distinct h.legal ht hmem
      rw [if_pos rfl]
      simp only [h.distinct.getSession_eq ht, hremove]
      exact extract_good h hgrp hs hdmn hin hrest .disconnect
    · rw [if_neg hi]
      exact extract_good h hgrp hs hdmn hin (hlocal.erase_remote h.legal hi hs) .disconnect
  · refine Or.inl ⟨node, ?_, ?_, (Hear.refl _).congr fun t _ _ => ?_⟩
    · cases hdmn : grp.daemons.find? i with
      | none => rfl
      | some dmn => exact if_pos (hgrp.isNone_find? hs hmem hdmn)
    · rwa [Views.remove, if_neg hmem]
    · rw [Views.removalTells, if_neg (not_and.mpr fun hin => absurd hin hmem), ite_self]

/-- One session is told that it left. -/
theorem hear_sendSelfLeave {ss : List Session} (hd : Distinct ss) {ses : Session} (hses : ses ∈ ss)
    (group : Name) :
    Hear (fun t => if t.memb = true ∧ t.name = ses.name then [Told.selfLeave group] else [])
      ss (sendSelfLeave ss group ses) := by
  rw [sendSelfLeave]
  split_ifs with hmemb
  · refine (hear_tellAll ss (fun t => t.name = ses.name) (.selfLeave group)).congr
      fun t ht _ => if_congr (iff_and_self.mpr fun hname => ?_) rfl rfl
    rwa [hd.eq_of_name ht hses hname]
  · refine (Hear.refl ss).congr fun t ht _ => (if_neg fun h => hmemb ?_).symm
    rw [← hd.eq_of_name ht hses h.2]
    exact h.1

theorem handleLeave_good (h : node.Good net me v) (hs : IsPrivateName s) (g : Name) :
    GoesOn (fun node' => node'.Good net me (v.leave (net.member i s) g) ∧
      Hear (fun t => if t.memb = true then
        v.leaveTells (net.member i s) g (net.member me t.name) else [])
        node.sessions node'.sessions)
      .tooManyElements (∃ r ∈ v, r.Crowded) (node.handleLeave net me (net.member i s) g) := by
  have hrel := SkipList.rel_find? (fun grp r => key_eq grp r) h.groups (order g)
  rw [handleLeave, Network.privateToNames_member hs]
  simp only [Network.procByName_eq_some.mpr rfl]
  rw [Views.leave]
  simp only [Views.leaveTells]
  revert hrel
  cases hgrp : node.groups.find? (order g) <;> cases hr : v.find? (order g) <;> intro hrel
  · exact .ok ⟨h, (Hear.refl _).congr fun t _ _ => (ite_self _).symm⟩
  · cases hrel
  · cases hrel
  rename_i grp r
  have hcrowded : r.Crowded → ∃ r ∈ v, r.Crowded :=
    fun h => ⟨r, (SkipList.find?_eq_some.mp hr).1, h⟩
  obtain ⟨habs, hlocal⟩ : Abstracts net grp r ∧ Local net me node.sessions grp.mboxes r.members := by
    cases hrel
    assumption
  dsimp only
  by_cases hmem : net.member i s ∈ r.members
  · obtain ⟨dmn, hdmn, hin⟩ := (habs.mem_member hs).mp hmem
    simp only [hdmn, SkipList.find?_eq_some.mpr ⟨hin, rfl⟩]
    rw [if_neg (by simp)]
    by_cases hi : i = me
    · subst hi
      obtain ⟨t, ht, rfl⟩ := hlocal.session s hs hmem
      have hself := hear_sendSelfLeave h.distinct ht grp.name
      obtain ⟨rest, hremove, hrest⟩ := hlocal.removed h.distinct h.legal ht hmem
      rw [if_pos rfl]
      simp only [h.distinct.getSession_eq ht, hremove]
      refine (extract_good (h.hear hself) habs hs hdmn hin (hrest.hear hself) .leave).imp
        (fun node' hnode' => ⟨hnode'.1,
          (hself.trans hnode'.2 fun _ _ => rfl).congr fun u hu _ => ?_⟩) hcrowded
      have hiff : u.name = t.name ↔
          net.member i u.name = net.member i t.name ∧ net.member i t.name ∈ r.members :=
        ⟨fun hname => ⟨congrArg _ hname, hmem⟩,
          fun hname => (Network.member_injective (h.legal u hu) hs hname.1).2⟩
      rw [ite_and, habs.name, if_congr hiff rfl rfl]
      split_ifs <;> rfl
    · rw [if_neg hi]
      refine (extract_good h habs hs hdmn hin (hlocal.erase_remote h.legal hi hs) .leave).imp
        (fun node' hnode' => ⟨hnode'.1, hnode'.2.congr fun u hu _ => ?_⟩) hcrowded
      rw [if_neg (fun hself : net.member me u.name = net.member i s ∧ _ =>
        hi (Network.member_injective (h.legal u hu) hs hself.1).1.symm), List.nil_append]
  · refine Or.inl ⟨node, ?_, ?_, (Hear.refl _).congr fun t _ _ => ?_⟩
    · cases hdmn : grp.daemons.find? i with
      | none => rfl
      | some dmn => exact if_pos (habs.isNone_find? hs hmem hdmn)
    · rwa [Views.remove, if_neg hmem]
    · rw [Views.removalTells, if_neg (not_and.mpr fun hin => absurd hin hmem),
        if_neg (not_and.mpr fun _ => hmem), List.append_nil, ite_self]

/-! ## The end of a session -/

theorem foldlM_killInGroup (hs : IsPrivateName s) {gs : List (Group n)} {rs : List Roster}
    (hall : List.Forall₂ (fun grp r => Abstracts net grp r ∧
      Local net me node.sessions grp.mboxes r.members) gs rs) (h : node.Good net me v) :
    GoesOn (fun node' =>
      node'.Good net me (rs.foldl (fun v r => v.remove (net.member i s) r) v) ∧
      Hear (fun t => if t.memb = true then
        rs.flatMap (Views.removalTells (net.member i s) .disconnect (net.member me t.name)) else [])
        node.sessions node'.sessions)
      .tooManyElements (∃ r ∈ rs, r.Crowded)
      (gs.foldlM (killInGroup me i s (net.member i s)) node) := by
  induction gs generalizing rs node v with
  | nil =>
    cases hall
    exact .ok ⟨h, (Hear.refl _).congr fun t _ _ => (ite_self _).symm⟩
  | cons grp gs ih =>
    obtain ⟨r, rs, hgrp, htail, rfl⟩ := List.forall₂_cons_left_iff.mp hall
    rw [List.foldlM_cons]
    have hfirst := (killInGroup_good (i := i) h hgrp.1 hgrp.2 hs).imp (fun _ h => h)
      fun h => (⟨r, List.mem_cons_self, h⟩ : ∃ r' ∈ r :: rs, r'.Crowded)
    refine hfirst.bind fun node₁ ⟨hgood, hhear⟩ => ?_
    have htail₁ := htail.imp fun grp r (hgrp : Abstracts net grp r ∧ _) =>
      And.intro hgrp.1 (Local.hear hgrp.2 hhear)
    refine (ih htail₁ hgood).imp (fun node₂ hnode₂ => ⟨hnode₂.1, ?_⟩)
      fun ⟨r', hr', hcrowded⟩ => ⟨r', List.mem_cons_of_mem _ hr', hcrowded⟩
    refine (hhear.trans hnode₂.2 fun _ _ => rfl).congr fun t _ _ => ?_
    rw [List.flatMap_cons]
    split_ifs <;> rfl

theorem handleKill_good (h : node.Good net me v) (hs : IsPrivateName s) :
    GoesOn (fun node' => node'.Good net me (v.kill (net.member i s)) ∧
      Hear (fun t => if t.memb = true then
        v.killTells (net.member i s) (net.member me t.name) else [])
        node.sessions node'.sessions)
      .tooManyElements (∃ r ∈ v, r.Crowded) (node.handleKill net me (net.member i s)) := by
  rw [handleKill, Network.privateToNames_member hs]
  simp only [Network.procByName_eq_some.mpr rfl]
  exact foldlM_killInGroup hs h.groups h

/-- With the ended session removed. -/
theorem Good.filter (h : node.Good net me v)
    (hgone : ∀ r ∈ v, net.member i s ∉ r.members) :
    Good net me v { node with
      sessions := node.sessions.filter fun t => net.member i s ≠ net.member me t.name } where
  distinct := ⟨h.distinct.names.sublist (List.filter_sublist.map _),
    h.distinct.mboxes.sublist (List.filter_sublist.map _)⟩
  legal t ht := h.legal t (List.mem_filter.mp ht).1
  groups := by
    obtain ⟨hlen, hzip⟩ := List.forall₂_iff_zip.mp h.groups
    refine List.forall₂_iff_zip.mpr ⟨hlen, fun {grp r} hmem => ?_⟩
    obtain ⟨hgrp, hlocal⟩ := hzip hmem
    exact ⟨hgrp, hlocal.filter (hgone r (List.of_mem_zip hmem).2)⟩

/-- The daemon's own session ends if it is killed. -/
theorem sessHandleKill_good (h : node.Good net me v) (hs : IsPrivateName s)
    (hop : ∀ t ∈ node.sessions, net.member i s = net.member me t.name → t.op = false) :
    GoesOn (fun node' => node'.Good net me (v.kill (net.member i s)) ∧
      Hear (fun t => if t.memb = true then
        v.killTells (net.member i s) (net.member me t.name) else [])
        (node.sessions.filter fun t => net.member i s ≠ net.member me t.name) node'.sessions)
      .tooManyElements (∃ r ∈ v, r.Crowded)
      (node.sessHandleKill net me (net.member i s)) := by
  rw [sessHandleKill, Network.privateToNames_member hs]
  refine (handleKill_good h hs).bind fun node₁ ⟨hgood, hhear⟩ => ?_
  have hfilter := hgood.filter (Views.not_mem_kill v (net.member i s))
  have hrest := hhear.filter (fun t => net.member i s ≠ net.member me t.name) fun _ _ => Iff.rfl
  have hsame : (∀ t ∈ node₁.sessions, net.member i s ≠ net.member me t.name) →
      node₁.sessions.filter (fun t => net.member i s ≠ net.member me t.name) = node₁.sessions :=
    fun hall => List.filter_eq_self.mpr fun t ht => decide_eq_true (hall t ht)
  by_cases hi : i = me
  · subst hi
    have hiff : ∀ t ∈ node₁.sessions, t.name ≠ s ↔ net.member i s ≠ net.member i t.name := fun t ht =>
      not_congr ⟨fun heq => congrArg _ heq.symm,
        fun heq => (Network.member_injective hs (hgood.legal t ht) heq).2.symm⟩
    rw [if_pos rfl]
    cases hses : getSession node₁.sessions s with
    | none =>
      have hnone : ∀ t ∈ node₁.sessions, t.name ≠ s := fun t ht heq => by
        rw [← heq, hgood.distinct.getSession_eq ht] at hses
        cases hses
      rw [hsame fun t ht => (hiff t ht).mp (hnone t ht)] at hrest
      exact .ok ⟨hgood, hrest⟩
    | some ses =>
      obtain ⟨hmem, rfl⟩ := mem_of_getSession hses
      have hkilled : ¬ ses.op = true := by
        have hmap := hhear.map_eq (fun t => (t.name, t.op)) fun _ _ => rfl
        have hin : (ses.name, ses.op) ∈ node.sessions.map fun t => (t.name, t.op) :=
          hmap ▸ List.mem_map_of_mem hmem
        obtain ⟨t, ht, heq⟩ := List.mem_map.mp hin
        obtain ⟨hname, hop'⟩ := Prod.mk.inj heq
        rw [← hop', hop t ht (by rw [hname])]
        exact Bool.false_ne_true
      refine Or.inl ⟨_, if_neg hkilled, ?_⟩
      rw [List.filter_congr fun t ht => decide_eq_decide.mpr (hiff t ht)]
      exact ⟨hfilter, hrest⟩
  · have hall := hsame fun t ht heq => hi (Network.member_injective hs (hgood.legal t ht) heq).1
    rw [hall] at hfilter hrest
    have hproc : ¬ net.procName i = net.procName me := fun heq => hi (net.injective heq)
    exact Or.inl ⟨node₁, if_neg hproc, hfilter, hrest⟩

/-! ## Regular messages -/

theorem mem_addMboxes {mboxes litbox : List ℕ} {m : ℕ} :
    m ∈ addMboxes mboxes litbox ↔ m ∈ mboxes ∨ m ∈ litbox := by
  rw [addMboxes]
  split_ifs with hempty
  · rw [hempty]
    exact (or_iff_right List.not_mem_nil).symm
  · rw [List.mem_append, List.mem_filter, decide_eq_true_iff]
    exact or_congr_right' fun hnot => and_iff_left hnot

theorem nodup_addMboxes {mboxes litbox : List ℕ} (h : mboxes.Nodup) (h' : litbox.Nodup) :
    (addMboxes mboxes litbox).Nodup := by
  rw [addMboxes]
  split_ifs
  · exact h'
  · refine h.append (h'.filter _) (List.disjoint_left.mpr fun m hm hin => ?_)
    exact of_decide_eq_true (List.mem_filter.mp hin).2 hm

theorem Good.litbox_good (h : node.Good net me v) (g : Name) :
    (node.litbox net me g).Nodup ∧ ∀ m, m ∈ node.litbox net me g ↔
      ∃ t ∈ node.sessions, t.mbox = m ∧ v.ReachesBy g (net.member me t.name) := by
  rw [litbox]
  split_ifs with hhead
  · -- a group
    have hnot : ∀ t, g ≠ net.member me t := by
      rintro t rfl
      exact hhead rfl
    have hrel := SkipList.rel_find? (fun grp r => key_eq grp r) h.groups (order g)
    revert hrel
    cases hgrp : node.groups.find? (order g) <;> cases hr : v.find? (order g) <;> intro hrel
    · refine ⟨List.nodup_nil, fun m => iff_of_false List.not_mem_nil ?_⟩
      rintro ⟨t, -, -, heq | ⟨-, r, hfind, -⟩⟩
      · exact hnot _ heq
      · rw [hr] at hfind
        cases hfind
    · cases hrel
    · cases hrel
    · rename_i grp r
      obtain ⟨-, hlocal⟩ : Abstracts net grp r ∧
          Local net me node.sessions grp.mboxes r.members := by
        cases hrel
        assumption
      refine ⟨hlocal.nodup, fun m => (hlocal.mem m).trans ?_⟩
      refine exists_congr fun t => and_congr_right fun _ => and_congr_right fun _ => ?_
      rw [Views.ReachesBy, hr, or_iff_right (hnot t.name), and_iff_right hhead]
      simp
  · -- a private group
    have hreach : ∀ q, v.ReachesBy g q ↔ g = q := fun q => or_iff_left fun hgrp => hhead hgrp.1
    simp only [hreach]
    cases hnames : privateToNames g with
    | none =>
      refine ⟨List.nodup_nil, fun m => iff_of_false List.not_mem_nil ?_⟩
      rintro ⟨t, ht, -, rfl⟩
      rw [Network.privateToNames_member (h.legal t ht)] at hnames
      cases hnames
    | some names =>
      obtain ⟨privateName, procName⟩ := names
      obtain ⟨rfl, hs, hp⟩ := privateToNames_eq_some.mp hnames
      have hiff : ∀ t ∈ node.sessions, privateGroup privateName procName = net.member me t.name ↔
          procName = net.procName me ∧ t.name = privateName := fun t ht => by
        constructor
        · intro heq
          have hboth := congrArg privateToNames heq
          rw [hnames, Network.privateToNames_member (h.legal t ht), Option.some.injEq,
            Prod.mk.injEq] at hboth
          exact ⟨hboth.2, hboth.1.symm⟩
        · rintro ⟨rfl, rfl⟩
          rfl
      dsimp only
      split_ifs with hme
      · cases hses : getSession node.sessions privateName with
        | none =>
          refine ⟨List.nodup_nil, fun m => iff_of_false List.not_mem_nil ?_⟩
          rintro ⟨t, ht, -, heq⟩
          rw [← ((hiff t ht).mp heq).2, h.distinct.getSession_eq ht] at hses
          cases hses
        | some ses =>
          obtain ⟨hmem, rfl⟩ := mem_of_getSession hses
          refine ⟨List.nodup_singleton _, fun m => List.mem_singleton.trans ⟨?_, ?_⟩⟩
          · rintro rfl
            exact ⟨ses, hmem, rfl, (hiff ses hmem).mpr ⟨hme, rfl⟩⟩
          · rintro ⟨t, ht, rfl, heq⟩
            rw [h.distinct.eq_of_name ht hmem ((hiff t ht).mp heq).2]
      · refine ⟨List.nodup_nil, fun m => iff_of_false List.not_mem_nil ?_⟩
        rintro ⟨t, ht, -, heq⟩
        exact hme ((hiff t ht).mp heq).1

theorem Good.analizeGroups_good (h : node.Good net me v) (groups : List Name) :
    (node.analizeGroups net me groups).Nodup ∧ ∀ m, m ∈ node.analizeGroups net me groups ↔
      ∃ t ∈ node.sessions, t.mbox = m ∧ ∃ g ∈ groups, v.ReachesBy g (net.member me t.name) := by
  induction groups using List.reverseRecOn with
  | nil =>
    refine ⟨List.nodup_nil, fun m => iff_of_false List.not_mem_nil ?_⟩
    rintro ⟨t, -, -, g, hg, -⟩
    exact List.not_mem_nil hg
  | append_singleton groups g ih =>
    obtain ⟨hnodup, hmem⟩ := ih
    obtain ⟨hlit, hmemlit⟩ := h.litbox_good g
    rw [analizeGroups, List.foldl_append, List.foldl_cons, List.foldl_nil, ← analizeGroups]
    refine ⟨nodup_addMboxes hnodup hlit, fun m => ?_⟩
    rw [mem_addMboxes, hmem, hmemlit, ← exists_or]
    refine exists_congr fun t => ?_
    rw [← and_or_left, ← and_or_left]
    refine and_congr_right fun _ => and_congr_right fun _ => ?_
    constructor
    · rintro (⟨g', hg', hreach⟩ | hreach)
      · exact ⟨g', List.mem_append_left _ hg', hreach⟩
      · exact ⟨g, List.mem_append_right _ (List.mem_singleton_self g), hreach⟩
    · rintro ⟨g', hg', hreach⟩
      rcases List.mem_append.mp hg' with hg' | hg'
      · exact Or.inl ⟨g', hg', hreach⟩
      · exact Or.inr (List.mem_singleton.mp hg' ▸ hreach)

theorem Good.sourceSession_eq (h : node.Good net me v) {t : Session} (ht : t ∈ node.sessions)
    (m : Message) : node.sourceSession net me m = some t.name ↔ m.sender = net.member me t.name := by
  rw [sourceSession]
  constructor
  · intro hsource
    cases hnames : privateToNames m.sender with
    | none =>
      rw [hnames] at hsource
      cases hsource
    | some names =>
      obtain ⟨privateName, procName⟩ := names
      rw [hnames] at hsource
      obtain ⟨hme, hses⟩ : procName = net.procName me ∧
          (getSession node.sessions privateName).map Session.name = some t.name := by
        simpa only [Option.ite_none_right_eq_some] using hsource
      obtain ⟨ses, hses, heq⟩ := Option.map_eq_some_iff.mp hses
      rw [(privateToNames_eq_some.mp hnames).1, hme, ← heq, (mem_of_getSession hses).2]
      rfl
  · intro hsender
    rw [hsender, Network.privateToNames_member (h.legal t ht)]
    dsimp only
    rw [if_pos rfl, h.distinct.getSession_eq ht]
    rfl

theorem deliverRegular_good (h : node.Good net me v) (m : Message) :
    ∃ node', node.deliverRegular net me m = .ok node' ∧ node'.Good net me v ∧
      Hear (fun t => if v.Reaches m (net.member me t.name) ∧
          ¬ (Has m.type selfDiscard ∧ m.sender = net.member me t.name) then [.message m] else [])
        node.sessions node'.sessions := by
  obtain ⟨hnodup, hmem⟩ := h.analizeGroups_good m.groups
  have htell := foldlM_tellOthers
    (if Has m.type selfDiscard then node.sourceSession net me m else none) (.message m)
    h.distinct hnodup fun mbox hmbox => by
      obtain ⟨t, ht, heq, -⟩ := (hmem mbox).mp hmbox
      exact ⟨t, ht, heq⟩
  have hhear := hear_tellAll node.sessions (fun t => t.mbox ∈ node.analizeGroups net me m.groups ∧
    some t.name ≠ if Has m.type selfDiscard then node.sourceSession net me m else none) (.message m)
  refine ⟨_, congrArg (fun r : Except SessAlarm (List Session) =>
    r >>= fun ss => pure (Node.mk ss node.groups)) htell, h.hear hhear,
    hhear.congr fun t ht _ => if_congr (and_congr ?_ ?_) rfl rfl⟩
  · rw [hmem, v.reaches_iff]
    constructor
    · rintro ⟨u, hu, hmbox, hreach⟩
      rwa [h.distinct.eq_of_mbox hu ht hmbox] at hreach
    · exact fun hreach => ⟨t, ht, rfl, hreach⟩
  · by_cases hdiscard : Has m.type selfDiscard
    · rw [if_pos hdiscard, and_iff_right hdiscard, ← h.sourceSession_eq ht]
      exact not_congr eq_comm
    · rw [if_neg hdiscard]
      exact iff_of_true (Option.some_ne_none _) fun hand => hdiscard hand.1

/-! ## All messages -/

/-- What a daemon relies on when it delivers a message. -/
structure Ready (net : Network n) (me : Fin n) (ss : List Session) (m : Message) : Prop where
  sender : ∃ i s, IsPrivateName s ∧ m.sender = net.member i s
  join : Has m.type joinMess → ∀ s, IsPrivateName s → m.sender = net.member me s →
    ∃ t ∈ ss, t.name = s
  ended : m.Ends → ∀ t ∈ ss, m.sender = net.member me t.name → t.op = false

/-- The sessions that go on after a message. -/
def survivors (net : Network n) (me : Fin n) (ss : List Session) (m : Message) : List Session :=
  ss.filter fun t => ¬ (m.Ends ∧ m.sender = net.member me t.name)

theorem survivors_of_not_ends {ss : List Session} {m : Message} (h : ¬ m.Ends) :
    survivors net me ss m = ss :=
  List.filter_eq_self.mpr fun _ _ => decide_eq_true fun hand => h hand.1

/-- **A daemon's table shows the members of all groups**, and its sessions are told what they are to
be told, whatever it delivers; unless a group has too many members. -/
theorem deliverMessage_good (h : node.Good net me v) {m : Message}
    (hready : Ready net me node.sessions m) :
    GoesOn (fun node' => node'.Good net me (v.apply net.regMembId m) ∧
      Hear (fun t => v.tells net.regMembId m (net.member me t.name) t.memb)
        (survivors net me node.sessions m) node'.sessions)
      .tooManyElements (∃ r, (r ∈ v ∨ r ∈ v.apply net.regMembId m) ∧ r.Crowded)
      (node.deliverMessage net me m) := by
  obtain ⟨i, s, hs, hsender⟩ := hready.sender
  rw [deliverMessage, Views.apply]
  simp only [Views.tells]
  by_cases hjoin : Has m.type joinMess
  · rw [if_pos hjoin, if_pos hjoin, survivors_of_not_ends fun h => h.1 hjoin, hsender]
    refine (handleJoin_good h hs (fun hi => hready.join hjoin s hs (hi ▸ hsender)) _).imp
      (fun node' hnode' => ⟨hnode'.1, hnode'.2.congr fun t _ _ => (if_pos hjoin).symm⟩)
      fun hcrowds => hcrowds.imp fun r hr => ⟨Or.inr hr.1, hr.2⟩
  rw [if_neg hjoin, if_neg hjoin]
  by_cases hleave : Has m.type leaveMess
  · rw [if_pos hleave, if_pos hleave, survivors_of_not_ends fun h => h.2.1 hleave, hsender]
    refine (handleLeave_good h hs (m.groups.headD [])).imp
      (fun node' hnode' => ⟨hnode'.1, hnode'.2.congr fun t _ _ => ?_⟩)
      fun hcrowds => hcrowds.imp fun r hr => ⟨Or.inl hr.1, hr.2⟩
    rw [if_neg hjoin, if_pos hleave]
  rw [if_neg hleave, if_neg hleave]
  by_cases hkill : Has m.type killMess
  · have hends : m.Ends := ⟨hjoin, hleave, hkill⟩
    rw [if_pos hkill, if_pos hkill, hsender]
    have hfilter : survivors net me node.sessions m =
        node.sessions.filter fun t => net.member i s ≠ net.member me t.name := by
      refine List.filter_congr fun t _ => decide_eq_decide.mpr (not_congr ?_)
      rw [hsender]
      exact and_iff_right hends
    rw [hfilter]
    refine (sessHandleKill_good h hs fun t ht heq => hready.ended hends t ht (hsender.trans heq)).imp
      (fun node' hnode' => ⟨hnode'.1, hnode'.2.congr fun t _ _ => ?_⟩)
      fun hcrowds => hcrowds.imp fun r hr => ⟨Or.inl hr.1, hr.2⟩
    rw [if_neg hjoin, if_neg hleave, if_pos hkill]
  · rw [if_neg hkill, if_neg hkill, survivors_of_not_ends fun h => hkill h.2.2]
    obtain ⟨node', hrun, hgood, hhear⟩ := deliverRegular_good h m
    refine Or.inl ⟨node', hrun, hgood, hhear.congr fun t _ _ => ?_⟩
    rw [if_neg hjoin, if_neg hleave, if_neg hkill]

end Node

end ReplicatedScheduler.Spread
