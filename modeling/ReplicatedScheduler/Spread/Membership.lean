import ReplicatedScheduler.Spread.SessionInvariant
import Mathlib.Data.Fin.VecNotation

/-!
# What sessions can rely on

In every run in which clients keep to the format and no mailbox is given away too early (`Ok`):

- `no_exit`: a daemon ends with an error only if it reads a message of 143200 bytes or more, or a
  group has more than 4471 members (`Oversize`);
- `read_alike`: a message that is handed up is read alike by machines of any byte order; the daemon
  of the session that it names as its sender handed it down for that session;
- `table_consistent`: a group's mailboxes are those of the local sessions that are members, each
  once;
- `one_membership`: of the joins, leaves and ends of sessions that two daemons have delivered, one
  list is a prefix of the other; and when they are the same, so are the tables of groups;
- `ended_on_its_way`: a session that is no longer operational is in the table until its end comes
  back;
- `members_when_settled`: when every daemon has delivered all of them, the members of the groups are
  sessions that are connected;
- `told_exactly`: an operational session that asked for them was told all changes to its groups, and
  every one all messages for it, since it was accepted: nothing else, nothing twice, and in the
  order of its daemon.

Without the condition on mailboxes a session gets what is not for it (`reused_mailbox`).
-/

namespace ReplicatedScheduler.Spread

open Lib Lts

variable {n : ℕ}

/-! ## Tables that show the same groups -/

namespace Abstracts

variable {net : Network n} {grp grp' : Group n} {r : Roster}

/-- The members decide at which daemons they are. -/
theorem daemons_eq (h : Abstracts net grp r) (h' : Abstracts net grp' r) :
    grp.daemons = grp'.daemons := by
  suffices hsub : ∀ {grp grp' : Group n}, Abstracts net grp r → Abstracts net grp' r →
      ∀ d ∈ grp.daemons, d ∈ grp'.daemons from
    SkipList.ext fun d => ⟨hsub h h' d, hsub h' h d⟩
  intro grp grp' h h' d hd
  have hfind : grp.daemons.find? d.procId = some d := SkipList.find?_eq_some.mpr ⟨hd, rfl⟩
  have hiff : ∀ s, IsPrivateName s → (net.member d.procId s ∈ d.members ↔
      net.member d.procId s ∈ r.members) := by
    intro s hs
    rw [h.mem_member hs, hfind]
    simp
  obtain ⟨p, hp⟩ := List.exists_mem_of_ne_nil _ (h.nonempty d hd)
  obtain ⟨s, hs, rfl⟩ := h.placed d hd p hp
  obtain ⟨d', hfind', -⟩ := (h'.mem_member hs).mp ((hiff s hs).mp hp)
  obtain ⟨hd', hproc⟩ := SkipList.find?_eq_some.mp hfind'
  have hmembers : d.members = d'.members := by
    refine SkipList.ext fun q => ⟨fun hq => ?_, fun hq => ?_⟩
    · obtain ⟨t, ht, rfl⟩ := h.placed d hd q hq
      obtain ⟨d'', hfind'', hq'⟩ := (h'.mem_member ht).mp ((hiff t ht).mp hq)
      rw [hfind'] at hfind''
      cases hfind''
      exact hq'
    · obtain ⟨t, ht, rfl⟩ := h'.placed d' hd' q hq
      rw [hproc] at hq ⊢
      exact (hiff t ht).mpr ((h'.mem_member ht).mpr ⟨d', hfind', hq⟩)
  obtain ⟨procId, members⟩ := d
  obtain ⟨procId', members'⟩ := d'
  obtain rfl : procId' = procId := hproc
  obtain rfl : members = members' := hmembers
  exact hd'

end Abstracts

/-- What the daemons have in common of a group. -/
def Group.shared (grp : Group n) : Name × GroupId × ℕ × List (DaemonMembers n) :=
  (grp.name, grp.grpId, grp.numMembers, grp.daemons.elems)

theorem shared_eq {net : Network n} {gs gs' : List (Group n)} {rs : List Roster}
    (h : List.Forall₂ (Abstracts net) gs rs) (h' : List.Forall₂ (Abstracts net) gs' rs) :
    gs.map Group.shared = gs'.map Group.shared := by
  induction h generalizing gs' with
  | nil =>
    cases h'
    rfl
  | @cons grp r gs rs hgrp _ ih =>
    obtain ⟨grp', gs', hgrp', htail', rfl⟩ := List.forall₂_cons_right_iff.mp h'
    rw [List.map_cons, List.map_cons, ih htail', Group.shared, Group.shared, hgrp.name, hgrp'.name,
      hgrp.grpId, hgrp'.grpId, hgrp.numMembers, hgrp'.numMembers, hgrp.daemons_eq hgrp']

/-! ## Guarantees -/

namespace Cluster

/-- The joins, leaves and ends of sessions that a daemon has delivered. -/
def controls (x : Cluster n) (i : Fin n) : List Message :=
  (x.log i).filterMap fun e => control e.mess

theorem controls_eq (x : Cluster n) (i : Fin n) :
    x.controls i = (history (x.log i)).filter fun m => IsControl m.type := by
  rw [history, List.filter_filterMap]
  rfl

theorem map_feed (x : Cluster n) (i : Fin n) :
    ((x.ring.daemons i).feed control).map Prod.snd = x.controls i := by
  rw [Daemon.feed, List.map_filterMap, controls, log]
  refine List.filterMap_congr fun e _ => ?_
  rw [Handed.read, Option.map_map]
  exact Option.map_id'

/-- The joins, leaves and ends of sessions that a daemon has handed down. -/
def handedControls (x : Cluster n) (i : Fin n) : List Message :=
  (x.ring.submitted i).filterMap fun l => control l.elements

/-- Those that it has not delivered. -/
def onItsWay (x : Cluster n) (i : Fin n) : List Message :=
  (x.handedControls i).drop (controlsOf i (x.log i)).length

/-- Every daemon has delivered all of them. -/
def Settled (x : Cluster n) : Prop := ∀ i j, controlsOf j (x.log i) = x.handedControls j

instance (x : Cluster n) : Decidable x.Settled :=
  inferInstanceAs (Decidable (∀ i j, controlsOf j (x.log i) = x.handedControls j))

variable [NeZero n] {conf : Conf} {net : Network n}

/-- The joins, leaves and ends that a daemon has delivered decide its table. -/
theorem Good.table {x : Cluster n} (h : Good conf net x) (i : Fin n) :
    List.Forall₂ (fun grp r => Abstracts net grp r ∧
        Local net i (x.nodes i).sessions grp.mboxes r.members) (x.nodes i).groups.elems
      (Views.after net.regMembId SkipList.empty (x.controls i)).elems := by
  rw [controls_eq, Views.after_filter]
  exact (h.node i).table.groups

/-- Daemons that have delivered the same have the same groups. -/
theorem Good.shared_eq {x : Cluster n} (h : Good conf net x) {i j : Fin n}
    (heq : x.controls i = x.controls j) :
    (x.nodes i).groups.elems.map Group.shared = (x.nodes j).groups.elems.map Group.shared := by
  have htable := fun k => (h.table k).imp fun _ _ hgrp => hgrp.1
  exact Spread.shared_eq (htable i) (heq ▸ htable j)

/-- What is on its way decides which sessions have ended. -/
theorem Good.awaits {x : Cluster n} (h : Good conf net x) (i : Fin n) :
    Awaits net i (x.nodes i).sessions (x.onItsWay i) := by
  rw [onItsWay, handedControls, h.submitted.controls i]
  exact (h.node i).awaits

/-- Then all daemons have delivered the same, in the same order. -/
theorem Good.controls_eq_of_settled {x : Cluster n} (hconf : conf.Fits)
    (h : Good conf net x) (hsettled : x.Settled) (i j : Fin n) :
    x.controls i = x.controls j := by
  have hring := Ring.good_of_reachable hconf h.ring
  have hfeed : ∀ k, ((x.ring.daemons k).feed control) <+: x.ring.stream control :=
    fun k => hring.feed_prefix h.submitted.ordered k
  have hof : ∀ k l, (((x.ring.daemons k).feed control).filter fun e => e.1 = l).map Prod.snd =
      x.handedControls l := fun k l => by
    rw [Daemon.feed, read_of, List.filterMap_map]
    exact hsettled k l
  have hsub : ∀ k l, (x.ring.daemons k).feed control <+: (x.ring.daemons l).feed control →
      (x.ring.daemons k).feed control = (x.ring.daemons l).feed control := by
    rintro k l ⟨rest, hrest⟩
    cases rest with
    | nil => rw [← hrest, List.append_nil]
    | cons e rest =>
      have hlen := congrArg List.length ((hof l e.1).trans (hof k e.1).symm)
      rw [← hrest, List.filter_append, List.filter_cons_of_pos (by simp), List.length_map,
        List.length_map, List.length_append, List.length_cons] at hlen
      omega
  rw [← map_feed, ← map_feed]
  rcases List.prefix_or_prefix_of_prefix (hfeed i) (hfeed j) with hprefix | hprefix
  · rw [hsub i j hprefix]
  · rw [hsub j i hprefix]

/-- A daemon reads a message that fills its 100 buffers, or it delivers when a group has too many
members. -/
def Oversize (conf : Conf) (net : Network n) (x : Cluster n) : Action n → Prop
  | .read _ _ m => 143200 ≤ m.totalSize
  | .daemons a => ∃ ring ∈ Ring.step conf x.ring a,
      ∃ i, ∃ pre ∈ (ring.daemons i).store.handedUp.inits, x.log i <+: pre ∧ Crowds net pre
  | _ => False

instance (log : List (Handed (Fin n))) : Decidable (Crowds net log) :=
  inferInstanceAs (Decidable (∃ r ∈ (Views.after net.regMembId SkipList.empty (history log)).elems,
    4471 < r.members.card))

instance (x : Cluster n) : (a : Action n) → Decidable (x.Oversize conf net a)
  | .read _ _ m => inferInstanceAs (Decidable (143200 ≤ m.totalSize))
  | .daemons a => inferInstanceAs (Decidable (∃ ring ∈ Ring.step conf x.ring a,
      ∃ i, ∃ pre ∈ (ring.daemons i).store.handedUp.inits, x.log i <+: pre ∧ Crowds net pre))
  | .accept _ _ _ _ => inferInstanceAs (Decidable False)
  | .kill _ _ => inferInstanceAs (Decidable False)

/-- As `Ok`, and nothing is too large. -/
def Sized (conf : Conf) (net : Network n) (x : Cluster n) (a : Action n) : Prop :=
  x.Ok a ∧ ¬ x.Oversize conf net a

instance (x : Cluster n) (a : Action n) : Decidable (x.Sized conf net a) :=
  inferInstanceAs (Decidable (x.Ok a ∧ ¬ x.Oversize conf net a))

theorem reachable_of_sized {x : Cluster n} (h : (machine conf net).Reachable (Sized conf net) x) :
    (machine conf net).Reachable Ok x :=
  h.mono fun _ _ hsized => hsized.1

def hosts : Fin 2 → Name := ![name "east", name "west"]

theorem isProcName_hosts : ∀ i, IsProcName (hosts i) := by decide

theorem hosts_injective : Function.Injective hosts := by decide

/-- Two daemons of different byte orders. -/
def twoHosts : Network 2 where
  procName := hosts
  byteOrder := ![.big, .little]
  regMembId := ⟨1, 0⟩
  isProcName := isProcName_hosts
  injective := hosts_injective

def toGroup (type : BitVec 32) (i : Fin 2) (s : String) (data : Bytes) : Message :=
  ⟨type, twoHosts.member i (name s), [name "g"], 0, data⟩

/-- A session of each daemon joins, and the first of them sends a message: each daemon delivers all
three. -/
theorem two_sessions_run : ∃ x : Cluster 2,
    (machine Ring.defaultConf twoHosts).Reachable (Sized Ring.defaultConf twoHosts) x ∧
    ((x.log 0).length = 3 ∧ (x.log 1).length = 3) ∧
    ((x.log 1).any fun e => e.procId = 0) = true ∧
    ((x.nodes 1).groups.elems.any fun grp => grp.mboxes = [7]) = true ∧
    ((x.controls 0).length = 2 ∧ x.controls 0 = x.controls 1) ∧ x.Settled ∧
    ((x.nodes 1).sessions.any fun s => s.op = true ∧ s.out.length = 2) = true :=
  Machine.exists_reachable_of_run (machine Ring.defaultConf twoHosts)
    (Sized Ring.defaultConf twoHosts)
    (fun x : Cluster 2 => ((x.log 0).length = 3 ∧ (x.log 1).length = 3) ∧
      ((x.log 1).any fun e => e.procId = 0) = true ∧
      ((x.nodes 1).groups.elems.any fun grp => grp.mboxes = [7]) = true ∧
      ((x.controls 0).length = 2 ∧ x.controls 0 = x.controls 1) ∧ x.Settled ∧
      ((x.nodes 1).sessions.any fun s => s.op = true ∧ s.out.length = 2) = true)
    [.accept 0 (name "ann") 7 true, .accept 1 (name "bob") 7 true,
      .read 0 7 (toGroup joinMess 0 "ann" []), .read 1 7 (toGroup joinMess 1 "bob" []),
      .daemons (.token 0), .daemons (.bcast 1 0), .daemons (.token 1), .daemons (.bcast 0 1),
      .read 0 7 (toGroup agreedMess 0 "ann" [1, 2, 3]), .daemons (.token 2), .daemons (.bcast 1 2)]
    (by decide +kernel)

/-- **A message is read alike everywhere, and is from the session that it names.** A daemon hands a
message down only for a session of its own that is operational. -/
theorem read_alike (hconf : conf.Fits) (x : Cluster n) (h : (machine conf net).Reachable Ok x) :
    (∀ i, ∀ e ∈ x.log i, ∃ s m, (s, m) ∈ x.handedDown e.procId ∧ IsPrivateName s ∧
        m.sender = net.member e.procId s ∧ decode e.mess = some m ∧
        ∀ j, Message.read (net.byteOrder j) e.mess.flatten = some (m, [])) ∧
      ∀ a x', step conf net x a = some x' → ∀ i,
        x'.handedDown i = x.handedDown i ∨ ∃ ses ∈ (x.nodes i).sessions, ses.op = true ∧
          ∃ m, x'.handedDown i = x.handedDown i ++ [(ses.name, m)] ∧
            (a = .read i ses.mbox m ∨ m = killMessage net i ses) := by
  have hx := good_of_reachable hconf h
  refine ⟨fun i e he => ?_, fun a x' hstep i => handedDown_step hstep i⟩
  obtain ⟨m, hm, hmess, hsends⟩ :=
    hx.submitted.exists_message (Ring.good_of_reachable hconf hx.ring) i he
  obtain ⟨p, hp, rfl⟩ := List.mem_map.mp hm
  obtain ⟨hlegal, hsender⟩ := hx.own e.procId p hp
  rw [← hmess]
  exact ⟨p.1, p.2, hp, hlegal, hsender, decode_down net e.procId hsends.valid,
    fun j => read_down net e.procId j hsends.valid⟩

theorem read_alike_two_sessions : ∃ (x : Cluster 2) (e : Handed (Fin 2)) (s : Name) (m : Message),
    (machine Ring.defaultConf twoHosts).Reachable Ok x ∧ (e ∈ x.log 1 ∧ e.procId = 0) ∧
      (s, m) ∈ x.handedDown e.procId ∧ m.sender = twoHosts.member e.procId s ∧
      ∀ j, Message.read (twoHosts.byteOrder j) e.mess.flatten = some (m, []) := by
  obtain ⟨x, hsized, -, hrun, -⟩ := two_sessions_run
  have hx := reachable_of_sized hsized
  obtain ⟨e, he, hproc⟩ := List.any_eq_true.mp hrun
  obtain ⟨s, m, hdown, -, hsender, -, hread⟩ := (read_alike (by decide) x hx).1 1 e he
  exact ⟨x, e, s, m, hx, ⟨he, of_decide_eq_true hproc⟩, hdown, hsender, hread⟩

/-- **A group's mailboxes are those of the local members**, each once; each group has members, and
each member a place in one of the lists. -/
theorem table_consistent (hconf : conf.Fits) (x : Cluster n)
    (h : (machine conf net).Reachable Ok x) (i : Fin n) {grp : Group n}
    (hgrp : grp ∈ (x.nodes i).groups) :
    grp.mboxes.Nodup ∧
      (∀ m, m ∈ grp.mboxes ↔ ∃ s ∈ (x.nodes i).sessions,
        s.mbox = m ∧ net.member i s.name ∈ grp.members) ∧
      (∀ s, IsPrivateName s → net.member i s ∈ grp.members →
        ∃ t ∈ (x.nodes i).sessions, t.name = s) ∧
      grp.members.Nodup ∧ grp.members ≠ [] ∧ grp.numMembers = grp.members.length := by
  have hx := good_of_reachable hconf h
  obtain ⟨r, hr, habs, hlocal⟩ := SkipList.exists_rel (hx.table i) hgrp
  have hoccupied : r.members ≠ ∅ :=
    Views.Occupied.after (fun _ hr => absurd hr (SkipList.not_mem_empty _)) _ _ r hr
  have hmem : ∀ p, p ∈ grp.members ↔ p ∈ r.members := fun p => by
    rw [← habs.toFinset_members, List.mem_toFinset]
  refine ⟨hlocal.nodup, fun m => ?_, fun s hs hin => hlocal.session s hs ((hmem _).mp hin),
    habs.nodup_members, fun hnil => ?_, ?_⟩
  · rw [hlocal.mem]
    exact exists_congr fun s => and_congr_right fun _ => and_congr_right fun _ => (hmem _).symm
  · rw [← habs.toFinset_members, hnil] at hoccupied
    exact hoccupied rfl
  · rw [habs.numMembers, ← habs.toFinset_members, List.toFinset_card_of_nodup habs.nodup_members]

theorem table_consistent_two_sessions : ∃ (x : Cluster 2) (grp : Group 2),
    (machine Ring.defaultConf twoHosts).Reachable Ok x ∧
      (grp ∈ (x.nodes 1).groups ∧ grp.mboxes = [7]) ∧ grp.numMembers = grp.members.length := by
  obtain ⟨x, hsized, -, -, hrun, -⟩ := two_sessions_run
  have hx := reachable_of_sized hsized
  obtain ⟨grp, hgrp, hmboxes⟩ := List.any_eq_true.mp hrun
  obtain ⟨-, -, -, -, -, hcount⟩ := table_consistent (by decide) x hx 1 hgrp
  exact ⟨x, grp, hx, ⟨hgrp, of_decide_eq_true hmboxes⟩, hcount⟩

/-- **One membership**: joins, leaves and ends of sessions are delivered in one order, those of one
daemon's sessions in the order in which they were handed down; and they alone decide the tables. -/
theorem one_membership (hconf : conf.Fits) (x : Cluster n) (h : (machine conf net).Reachable Ok x)
    (i j : Fin n) :
    (x.controls i <+: x.controls j ∨ x.controls j <+: x.controls i) ∧
      controlsOf j (x.log i) <+: (x.ring.submitted j).filterMap (fun l => control l.elements) ∧
      (x.controls i = x.controls j →
        (x.nodes i).groups.elems.map Group.shared = (x.nodes j).groups.elems.map Group.shared) := by
  have hx := good_of_reachable hconf h
  have hring := Ring.good_of_reachable hconf hx.ring
  have hbegins : ∀ k, x.controls k <+: (x.ring.stream control).map Prod.snd := fun k => by
    rw [← map_feed]
    exact (hring.feed_prefix hx.submitted.ordered k).map Prod.snd
  refine ⟨List.prefix_or_prefix_of_prefix (hbegins i) (hbegins j), ?_, hx.shared_eq⟩
  rw [hx.submitted.controls j]
  exact hx.submitted.controlsOf_prefix hring i j

theorem one_membership_two_sessions : ∃ x : Cluster 2,
    (machine Ring.defaultConf twoHosts).Reachable Ok x ∧
      ((x.controls 0).length = 2 ∧ x.controls 0 = x.controls 1) ∧
      (x.nodes 0).groups.elems.map Group.shared = (x.nodes 1).groups.elems.map Group.shared := by
  obtain ⟨x, hsized, -, -, -, hrun, -⟩ := two_sessions_run
  have hx := reachable_of_sized hsized
  exact ⟨x, hx, hrun, (one_membership (by decide) x hx 0 1).2.2 hrun.2⟩

/-- **A session stays in the table until its end comes back**, and no longer: of what its daemon has
handed down and not delivered, its end is the last. -/
theorem ended_on_its_way (hconf : conf.Fits) (x : Cluster n) (h : (machine conf net).Reachable Ok x)
    (i : Fin n) :
    (∀ s ∈ (x.nodes i).sessions, s.op = false ↔
      ∃ before m after, x.onItsWay i = before ++ m :: after ∧ m.Ends ∧
        m.sender = net.member i s.name ∧ ∀ m' ∈ after, m'.sender ≠ net.member i s.name) ∧
      ∀ m ∈ x.onItsWay i, ∃ s ∈ (x.nodes i).sessions, m.sender = net.member i s.name := by
  have hx := good_of_reachable hconf h
  have hawaits := hx.awaits i
  refine ⟨fun s hs => ⟨fun hop => ?_, fun hend => ?_⟩, hawaits.session⟩
  · obtain ⟨m, hm, hends, hsender⟩ := hawaits.ended s hs hop
    obtain ⟨before, after, hsplit⟩ := List.append_of_mem hm
    have hlast := hawaits.last
    rw [hsplit] at hlast
    obtain ⟨-, hafter, -⟩ := List.pairwise_append.mp hlast
    refine ⟨before, m, after, hsplit, hends, hsender, fun m' hm' heq => ?_⟩
    exact (List.pairwise_cons.mp hafter).1 m' hm' hends (hsender.trans heq.symm)
  · obtain ⟨before, m, after, hsplit, hends, hsender, -⟩ := hend
    refine hawaits.op m ?_ hends s hs hsender
    rw [hsplit]
    exact List.mem_append_right _ List.mem_cons_self

/-- A session of the first daemon joins, and its client goes away. -/
theorem ended_run : ∃ x : Cluster 2, (machine Ring.defaultConf twoHosts).Reachable Ok x ∧
    ((x.nodes 0).sessions.any fun s => s.op = false) = true :=
  Machine.exists_reachable_of_run (machine Ring.defaultConf twoHosts) Ok
    (fun x : Cluster 2 => ((x.nodes 0).sessions.any fun s => s.op = false) = true)
    [.accept 0 (name "ann") 7 true, .read 0 7 (toGroup joinMess 0 "ann" []), .kill 0 7]
    (by decide +kernel)

theorem ended_on_its_way_kill : ∃ (x : Cluster 2) (s : Session),
    (machine Ring.defaultConf twoHosts).Reachable Ok x ∧
      (s ∈ (x.nodes 0).sessions ∧ s.op = false) ∧
      ∃ m ∈ x.onItsWay 0, m.Ends ∧ m.sender = twoHosts.member 0 s.name := by
  obtain ⟨x, hx, hrun⟩ := ended_run
  obtain ⟨s, hs, hop⟩ := List.any_eq_true.mp hrun
  obtain ⟨before, m, after, hsplit, hends, hsender, -⟩ :=
    ((ended_on_its_way (by decide) x hx 0).1 s hs).mp (of_decide_eq_true hop)
  refine ⟨x, s, hx, ⟨hs, of_decide_eq_true hop⟩, m, ?_, hends, hsender⟩
  rw [hsplit]
  exact List.mem_append_right _ List.mem_cons_self

/-- **When all is delivered, the members are the sessions that are connected**, at every daemon. -/
theorem members_when_settled (hconf : conf.Fits) (x : Cluster n)
    (h : (machine conf net).Reachable Ok x) (hsettled : x.Settled) (j : Fin n) :
    (∀ i, (x.nodes i).groups.elems.map Group.shared = (x.nodes j).groups.elems.map Group.shared) ∧
      (∀ i, ∀ s ∈ (x.nodes i).sessions, s.op = true) ∧
      ∀ grp ∈ (x.nodes j).groups, ∀ p ∈ grp.members,
        ∃ i, ∃ s ∈ (x.nodes i).sessions, s.op = true ∧ p = net.member i s.name := by
  have hx := good_of_reachable hconf h
  have hop : ∀ i, ∀ s ∈ (x.nodes i).sessions, s.op = true := fun i s hs => by
    by_contra hop
    obtain ⟨m, hm, -⟩ := (hx.awaits i).ended s hs (Bool.not_eq_true _ ▸ hop)
    rw [onItsWay, hsettled i i, List.drop_length] at hm
    exact absurd hm List.not_mem_nil
  have hcontrols := hx.controls_eq_of_settled hconf hsettled
  refine ⟨fun i => hx.shared_eq (hcontrols i j), hop, fun grp hgrp p hp => ?_⟩
  obtain ⟨d, hd, hpd⟩ := List.mem_flatMap.mp hp
  obtain ⟨r, hr, habs, -⟩ := SkipList.exists_rel (hx.table j) hgrp
  obtain ⟨s, hs, rfl⟩ := habs.placed d hd p hpd
  -- the group at the daemon of `s`
  rw [hcontrols j d.procId] at hr
  obtain ⟨grp', -, -, hlocal⟩ := SkipList.exists_rel (hx.table d.procId).flip hr
  obtain ⟨t, ht, rfl⟩ := hlocal.session s hs ((habs.mem _).mpr ⟨d, hd, hpd⟩)
  exact ⟨d.procId, t, ht, hop d.procId t ht, rfl⟩

theorem members_when_settled_two_sessions : ∃ (x : Cluster 2) (grp : Group 2),
    (machine Ring.defaultConf twoHosts).Reachable Ok x ∧ x.Settled ∧
      (grp ∈ (x.nodes 1).groups ∧ grp.mboxes = [7]) ∧
      ∀ p ∈ grp.members, ∃ i, ∃ s ∈ (x.nodes i).sessions,
        s.op = true ∧ p = twoHosts.member i s.name := by
  obtain ⟨x, hsized, -, -, hrun, -, hsettled, -⟩ := two_sessions_run
  have hx := reachable_of_sized hsized
  obtain ⟨grp, hgrp, hmboxes⟩ := List.any_eq_true.mp hrun
  obtain ⟨-, -, hmembers⟩ := members_when_settled (by decide) x hx hsettled 1
  exact ⟨x, grp, hx, hsettled, ⟨hgrp, of_decide_eq_true hmboxes⟩, hmembers grp hgrp⟩

/-- **A session is told exactly what it is to be told**, from the moment it is accepted. -/
theorem told_exactly (hconf : conf.Fits) (x : Cluster n) (h : (machine conf net).Reachable Ok x)
    (i : Fin n) {s : Session} (hs : s ∈ (x.nodes i).sessions) (hop : s.op = true) :
    s.out.map Notice.told =
      (Views.after net.regMembId SkipList.empty (history ((x.log i).take s.since))).tellsAll
        net.regMembId (net.member i s.name) s.memb (history ((x.log i).drop s.since)) := by
  have hx := good_of_reachable hconf h
  exact ((hx.node i).heard s hs hop).2

theorem told_exactly_two_sessions : ∃ (x : Cluster 2) (s : Session),
    (machine Ring.defaultConf twoHosts).Reachable Ok x ∧
      (s ∈ (x.nodes 1).sessions ∧ s.op = true ∧ s.out.length = 2) ∧
      s.out.map Notice.told =
        (Views.after twoHosts.regMembId SkipList.empty (history ((x.log 1).take s.since))).tellsAll
          twoHosts.regMembId (twoHosts.member 1 s.name) s.memb
            (history ((x.log 1).drop s.since)) := by
  obtain ⟨x, hsized, -, -, -, -, -, hrun⟩ := two_sessions_run
  have hx := reachable_of_sized hsized
  obtain ⟨s, hs, hrun⟩ := List.any_eq_true.mp hrun
  obtain ⟨hop, hlen⟩ := of_decide_eq_true hrun
  exact ⟨x, s, hx, ⟨hs, hop, hlen⟩, told_exactly (by decide) x hx 1 hs hop⟩

/-- As `Ok`, but a mailbox is given away as soon as it is closed. -/
def OkReusing (x : Cluster n) : Action n → Prop
  | .accept i _ mbox _ => ∀ t ∈ (x.nodes i).sessions, t.mbox = mbox → t.op = false
  | a => x.Ok a

instance (x : Cluster n) : (a : Action n) → Decidable (x.OkReusing a)
  | .accept i _ mbox _ =>
    inferInstanceAs (Decidable (∀ t ∈ (x.nodes i).sessions, t.mbox = mbox → t.op = false))
  | .daemons a => inferInstanceAs (Decidable (x.Ok (.daemons a)))
  | .read i mbox m => inferInstanceAs (Decidable (x.Ok (.read i mbox m)))
  | .kill i mbox => inferInstanceAs (Decidable (x.Ok (.kill i mbox)))

/-- Then a session gets what is for the one that had its mailbox: a member's socket fails, a new
client gets its mailbox, and a message for the group comes before the end of the member. -/
theorem reused_mailbox : ∃ x : Cluster 2,
    (machine Ring.defaultConf twoHosts).Reachable OkReusing x ∧
    ((x.nodes 0).sessions.any fun s => s.op = true ∧ s.out.map Notice.told ≠
      (Views.after twoHosts.regMembId SkipList.empty (history ((x.log 0).take s.since))).tellsAll
        twoHosts.regMembId (twoHosts.member 0 s.name) s.memb
          (history ((x.log 0).drop s.since))) = true :=
  Machine.exists_reachable_of_run (machine Ring.defaultConf twoHosts) OkReusing _
    [.accept 0 (name "ann") 7 true, .accept 1 (name "bob") 7 true,
      .read 0 7 (toGroup joinMess 0 "ann" []), .daemons (.token 0), .daemons (.bcast 1 0),
      .read 1 7 (toGroup agreedMess 1 "bob" [1]), .daemons (.token 1), .kill 0 7,
      .accept 0 (name "cal") 7 true, .daemons (.bcast 0 1)] (by decide +kernel)

end Cluster

end ReplicatedScheduler.Spread
