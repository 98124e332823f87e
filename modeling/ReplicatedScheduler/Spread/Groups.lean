import ReplicatedScheduler.Lib.SkipList
import ReplicatedScheduler.Spread.Header
import Mathlib.Data.List.FinRange
import Mathlib.Data.List.Lex

/-!
# Groups and sessions of one daemon

A daemon has the sessions of its clients and a table of all groups: for each group the daemons
that have members, for each of these its members, and the mailboxes of the local ones. It changes
the table as it delivers joins, leaves and ends of sessions, and tells the local members of each
group that changed.

Regular messages go to the mailboxes of the groups that they are for, to each mailbox once. A
private group `#session#daemon` is one session's.

The model is of a daemon in the state `GOP`: no daemon fails. `SessAlarm`s are the exits of the
source, and the places where it would read or write outside its tables. A message has room for 100
buffers; a message that needs more ends the daemon (`tooManyElements`).
-/

namespace ReplicatedScheduler.Spread

open Lib

/-! ## Names -/

def maxPrivateName : ℕ := 10
def maxProcName : ℕ := 20

/-- The character before the name of a session, and before the name of its daemon. -/
def hashChar : BitVec 8 := 0x23

/-- The characters of a name: from `$` to `~`. -/
def LegalChar (b : BitVec 8) : Prop := 0x23 < b.toNat ∧ b.toNat ≤ 0x7e

instance (b : BitVec 8) : Decidable (LegalChar b) := inferInstanceAs (Decidable (_ ∧ _))

/-- The name of a session. -/
structure IsPrivateName (s : Name) : Prop where
  pos : 1 ≤ s.length
  fits : s.length ≤ maxPrivateName
  legal : ∀ b ∈ s, LegalChar b

/-- The name of a daemon. -/
structure IsProcName (s : Name) : Prop where
  pos : 1 ≤ s.length
  fits : s.length < maxProcName
  legal : ∀ b ∈ s, LegalChar b

theorem all_legalChar {s : Name} :
    (s.all fun b => decide (LegalChar b)) = true ↔ ∀ b ∈ s, LegalChar b := by
  rw [List.all_eq_true]
  exact forall₂_congr fun b _ => decide_eq_true_iff

instance (s : Name) : Decidable (IsPrivateName s) :=
  decidable_of_iff (1 ≤ s.length ∧ s.length ≤ maxPrivateName ∧
      (s.all fun b => decide (LegalChar b)) = true)
    ⟨fun h => ⟨h.1, h.2.1, all_legalChar.mp h.2.2⟩, fun h => ⟨h.1, h.2, all_legalChar.mpr h.3⟩⟩

instance (s : Name) : Decidable (IsProcName s) :=
  decidable_of_iff (1 ≤ s.length ∧ s.length < maxProcName ∧
      (s.all fun b => decide (LegalChar b)) = true)
    ⟨fun h => ⟨h.1, h.2.1, all_legalChar.mp h.2.2⟩, fun h => ⟨h.1, h.2, all_legalChar.mpr h.3⟩⟩

/-- The private group of a session. -/
def privateGroup (privateName procName : Name) : Name :=
  hashChar :: (privateName ++ hashChar :: procName)

/-- `G_private_to_names`: the session and the daemon of a private group. -/
def privateToNames (g : Name) : Option (Name × Name) :=
  let privateName := (g.drop 1).takeWhile fun b => b ≠ hashChar
  let rest := (g.drop 1).dropWhile fun b => b ≠ hashChar
  let procName := rest.drop 1
  if rest ≠ [] ∧ g.head? = some hashChar ∧ IsPrivateName privateName ∧ IsProcName procName then
    some (privateName, procName)
  else none

theorem LegalChar.ne_hashChar {b : BitVec 8} (h : LegalChar b) : b ≠ hashChar := by
  rintro rfl
  exact absurd h.1 (by decide)

theorem privateToNames_eq_some {g s p : Name} :
    privateToNames g = some (s, p) ↔ g = privateGroup s p ∧ IsPrivateName s ∧ IsProcName p := by
  constructor
  · intro h
    simp only [privateToNames, Option.ite_none_right_eq_some, Option.some.injEq,
      Prod.mk.injEq] at h
    obtain ⟨⟨hrest, hhead, hs, hp⟩, rfl, rfl⟩ := h
    refine ⟨?_, hs, hp⟩
    obtain ⟨c, tail, rfl⟩ := List.exists_cons_of_ne_nil (List.ne_nil_of_mem
      (List.mem_of_head? hhead))
    obtain ⟨d, after, hafter⟩ := List.exists_cons_of_ne_nil hrest
    obtain rfl : c = hashChar := Option.some.inj hhead
    have hnot := List.head_dropWhile_not (fun b : BitVec 8 => decide (b ≠ hashChar)) hrest
    simp only [hafter, List.head_cons] at hnot
    obtain rfl : d = hashChar := by simpa using hnot
    have happ := List.takeWhile_append_dropWhile (l := tail)
      (p := fun b : BitVec 8 => decide (b ≠ hashChar))
    rw [List.drop_one, List.tail_cons] at hafter
    rw [privateGroup, List.drop_one, List.tail_cons, hafter, List.drop_one, List.tail_cons,
      ← hafter, happ]
  · rintro ⟨rfl, hs, hp⟩
    have hall : ∀ b ∈ s, decide (b ≠ hashChar) = true := fun b hb =>
      decide_eq_true (hs.legal b hb).ne_hashChar
    have htake : (s ++ hashChar :: p).takeWhile (fun b => decide (b ≠ hashChar)) = s := by
      rw [List.takeWhile_append_of_pos hall]
      simp
    have hdrop : (s ++ hashChar :: p).dropWhile (fun b => decide (b ≠ hashChar)) =
        hashChar :: p := by
      rw [List.dropWhile_append_of_pos hall]
      simp
    simp only [privateToNames, privateGroup, List.drop_one, List.tail_cons]
    rw [htake, hdrop, List.tail_cons, if_pos ⟨List.cons_ne_nil _ _, rfl, hs, hp⟩]

/-- How `strncmp` orders names. -/
def order (s : Name) : List ℕ := s.map BitVec.toNat

theorem order_injective : Function.Injective order :=
  List.map_injective_iff.mpr fun _ _ h => BitVec.eq_of_toNat_eq h

/-! ## The configuration -/

structure MembershipId where
  procId : BitVec 32
  time : BitVec 32
  deriving DecidableEq, Repr

structure GroupId where
  membId : MembershipId
  index : BitVec 32
  deriving DecidableEq, Repr

/-- The daemons, in their order in the configuration, and their membership. -/
structure Network (n : ℕ) where
  procName : Fin n → Name
  byteOrder : Fin n → ByteOrder
  regMembId : MembershipId
  isProcName : ∀ i, IsProcName (procName i)
  injective : Function.Injective procName

/-- `Conf_proc_by_name`. -/
def Network.procByName {n : ℕ} (net : Network n) (s : Name) : Option (Fin n) :=
  (List.finRange n).find? fun i => net.procName i = s

theorem Network.procByName_eq_some {n : ℕ} {net : Network n} {s : Name} {i : Fin n} :
    net.procByName s = some i ↔ net.procName i = s := by
  constructor
  · intro h
    have hname := List.find?_some h
    exact of_decide_eq_true hname
  · rintro rfl
    obtain ⟨j, hj⟩ : ∃ j, net.procByName (net.procName i) = some j :=
      Option.isSome_iff_exists.mp (List.find?_isSome.mpr
        ⟨i, List.mem_finRange i, decide_eq_true rfl⟩)
    have hname := List.find?_some hj
    rw [hj, net.injective (of_decide_eq_true hname)]

/-! ## Tables -/

/-- `daemon_members`: the members of a group at one daemon. -/
structure DaemonMembers (n : ℕ) where
  procId : Fin n
  members : SkipList order
  deriving DecidableEq

structure Group (n : ℕ) where
  name : Name
  grpId : GroupId
  numMembers : ℕ
  daemons : SkipList (DaemonMembers.procId (n := n))
  mboxes : List ℕ
  deriving DecidableEq

def Group.key {n : ℕ} (grp : Group n) : List ℕ := order grp.name

/-- All members, by daemon and then by name. -/
def Group.members {n : ℕ} (grp : Group n) : List Name :=
  grp.daemons.elems.flatMap fun d => d.members.elems

/-! ## Sessions -/

/-- The causes of a lightweight membership message. -/
inductive MembCause
  | join
  | leave
  | disconnect
  deriving DecidableEq, Repr

/-- What a membership message tells. -/
structure View where
  group : Name
  grpId : GroupId
  members : List Name
  cause : MembCause
  /-- The member that joined, left or disconnected. -/
  subject : Name
  deriving DecidableEq, Repr

/-- A message to a session. -/
inductive Notice
  | message (m : Message)
  | membership (v : View)
  | selfLeave (group : Name)
  deriving DecidableEq, Repr

structure Session where
  name : Name
  mbox : ℕ
  /-- `Is_memb_session`: it asked for membership messages. -/
  memb : Bool
  /-- `Is_op_session`: it is not killed. -/
  op : Bool
  /-- How much its daemon had handed up before it was accepted. -/
  since : ℕ
  /-- All that was written to it. -/
  out : List Notice
  deriving DecidableEq

/-- Why a daemon exits. -/
inductive SessAlarm
  | noLocalSession
  | noMailbox
  | noSession
  | groupNotEmpty
  | killingUnkilled
  | illegalPrivateName
  /-- A message ends early. -/
  | malformed
  /-- A message needs more than `MAX_SCATTER_ELEMENTS` buffers (`Message_add_scat_element`,
  `Message_Buffer_to_Message_Fragments`). -/
  | tooManyElements
  /-- `Message_element_len_fixup` writes a length behind the last buffer. -/
  | elementOutOfRange
  deriving DecidableEq, Repr

/-- A daemon's sessions, the newest first, and its table of groups. -/
structure Node (n : ℕ) where
  sessions : List Session
  groups : SkipList (Group.key (n := n))
  deriving DecidableEq

/-- `Sess_get_session`. -/
def getSession (ss : List Session) (s : Name) : Option Session := ss.find? fun ses => ses.name = s

/-- `Sess_get_session_index`: the newest session with the mailbox. -/
def getSessionIndex (ss : List Session) (mbox : ℕ) : Option Session :=
  ss.find? fun ses => ses.mbox = mbox

/-- `Sess_write`, to a session that is not killed. -/
def sessWrite (ss : List Session) (s : Name) (notice : Notice) : List Session :=
  ss.map fun ses =>
    if ses.name = s ∧ ses.op = true then { ses with out := ses.out ++ [notice] } else ses

/-- `num_bytes` of a lightweight membership message: the members, the id of the group, and one set
with one member. -/
def membLen (numMembers : ℕ) : ℕ := maxGroupName * numMembers + 12 + (12 + maxGroupName)

/-- `G_send_lightweight_memb`. -/
def sendLightweightMemb {n : ℕ} (ss : List Session) (grp : Group n) (cause : MembCause)
    (subject : Name) : Except SessAlarm (List Session) :=
  if maxScatterElements < numElements (membLen grp.members.length + messageHeaderSize) then
    .error .tooManyElements
  else
    grp.mboxes.foldlM (fun ss mbox =>
      match getSessionIndex ss mbox with
      | none => .error .noSession
      | some ses => .ok (if ses.memb then
          sessWrite ss ses.name (.membership ⟨grp.name, grp.grpId, grp.members, cause, subject⟩)
        else ss)) ss

/-- `G_send_self_leave`. -/
def sendSelfLeave (ss : List Session) (group : Name) (ses : Session) : List Session :=
  if ses.memb then sessWrite ss ses.name (.selfLeave group) else ss

/-- `G_remove_mailbox`: the last mailbox takes the place of the one that is removed. -/
def removeMailbox (mboxes : List ℕ) (m : ℕ) : Except SessAlarm (List ℕ) :=
  match mboxes.idxOf? m, mboxes.getLast? with
  | some k, some last => .ok (mboxes.set k last).dropLast
  | _, _ => .error .noMailbox

namespace Node

variable {n : ℕ}

/-- The new table, and what the local members are told. -/
def setGroup (node : Node n) (grp : Group n) (cause : MembCause) (subject : Name) :
    Except SessAlarm (Node n) := do
  let ss ← if grp.mboxes = [] then .ok node.sessions
    else sendLightweightMemb node.sessions grp cause subject
  return ⟨ss, node.groups.put grp⟩

/-- `G_handle_join`. -/
def handleJoin (net : Network n) (me : Fin n) (node : Node n) (privateGroupName group : Name) :
    Except SessAlarm (Node n) :=
  match privateToNames privateGroupName with
  | none => .ok node
  | some (privateName, procName) =>
    match net.procByName procName with
    | none => .ok node
    | some p => do
      let grp := (node.groups.find? (order group)).getD
        ⟨group, ⟨net.regMembId, 0⟩, 0, SkipList.empty, []⟩
      let dmn := (grp.daemons.find? p).getD ⟨p, SkipList.empty⟩
      if (dmn.members.find? (order privateGroupName)).isSome then return node
      let dmn := { dmn with members := dmn.members.put privateGroupName }
      let mboxes ← if p = me then
          match getSession node.sessions privateName with
          | none => .error .noLocalSession
          | some ses => .ok (grp.mboxes ++ [ses.mbox])
        else .ok grp.mboxes
      let grp : Group n := { grp with
        numMembers := grp.numMembers + 1
        grpId := { grp.grpId with index := grp.grpId.index + 1 }
        daemons := grp.daemons.put dmn
        mboxes := mboxes }
      node.setGroup grp .join privateGroupName

/-- A member is extracted from its group, with the daemon that has no more members and the group
that is empty then. -/
def extract (node : Node n) (grp : Group n) (dmn : DaemonMembers n) (privateGroupName : Name)
    (cause : MembCause) : Except SessAlarm (Node n) :=
  let members := dmn.members.erase (order privateGroupName)
  let daemons := if members.elems = [] then grp.daemons.erase dmn.procId
    else grp.daemons.put { dmn with members := members }
  let numMembers := grp.numMembers - 1
  if numMembers = 0 then
    if daemons.elems = [] ∧ grp.mboxes = [] then
      .ok { node with groups := node.groups.erase grp.key }
    else .error .groupNotEmpty
  else
    node.setGroup { grp with
      numMembers := numMembers
      grpId := { grp.grpId with index := grp.grpId.index + 1 }
      daemons := daemons } cause privateGroupName

/-- `G_handle_leave`. -/
def handleLeave (net : Network n) (me : Fin n) (node : Node n) (privateGroupName group : Name) :
    Except SessAlarm (Node n) :=
  match privateToNames privateGroupName with
  | none => .ok node
  | some (privateName, procName) =>
    match net.procByName procName with
    | none => .ok node
    | some p =>
      match node.groups.find? (order group) with
      | none => .ok node
      | some grp =>
        match grp.daemons.find? p with
        | none => .ok node
        | some dmn =>
          if (dmn.members.find? (order privateGroupName)).isNone then .ok node
          else if p = me then
            match getSession node.sessions privateName with
            | none => .error .noLocalSession
            | some ses => do
              let node := { node with sessions := sendSelfLeave node.sessions grp.name ses }
              let mboxes ← removeMailbox grp.mboxes ses.mbox
              node.extract { grp with mboxes := mboxes } dmn privateGroupName .leave
          else node.extract grp dmn privateGroupName .leave

/-- What `G_handle_kill` does to one group. -/
def killInGroup (me p : Fin n) (privateName privateGroupName : Name) (node : Node n)
    (grp : Group n) : Except SessAlarm (Node n) :=
  match grp.daemons.find? p with
  | none => .ok node
  | some dmn =>
    if (dmn.members.find? (order privateGroupName)).isNone then .ok node
    else if p = me then
      match getSession node.sessions privateName with
      | none => .error .noLocalSession
      | some ses => do
        let mboxes ← removeMailbox grp.mboxes ses.mbox
        node.extract { grp with mboxes := mboxes } dmn privateGroupName .disconnect
    else node.extract grp dmn privateGroupName .disconnect

/-- `G_handle_kill`. -/
def handleKill (net : Network n) (me : Fin n) (node : Node n) (privateGroupName : Name) :
    Except SessAlarm (Node n) :=
  match privateToNames privateGroupName with
  | none => .ok node
  | some (privateName, procName) =>
    match net.procByName procName with
    | none => .ok node
    | some p => node.groups.elems.foldlM (killInGroup me p privateName privateGroupName) node

/-- `Sess_handle_kill`. -/
def sessHandleKill (net : Network n) (me : Fin n) (node : Node n) (privateGroupName : Name) :
    Except SessAlarm (Node n) :=
  match privateToNames privateGroupName with
  | none => .error .illegalPrivateName
  | some (privateName, procName) => do
    let node ← node.handleKill net me privateGroupName
    if procName = net.procName me then
      match getSession node.sessions privateName with
      | none => return node
      | some ses =>
        if ses.op then throw .killingUnkilled
        return { node with sessions := node.sessions.filter fun t => t.name ≠ privateName }
    else return node

/-- The mailboxes of one target group. -/
def litbox (net : Network n) (me : Fin n) (node : Node n) (group : Name) : List ℕ :=
  if group.head? ≠ some hashChar then
    ((node.groups.find? (order group)).map Group.mboxes).getD []
  else
    match privateToNames group with
    | none => []
    | some (privateName, procName) =>
      if procName = net.procName me then
        ((getSession node.sessions privateName).map fun ses => [ses.mbox]).getD []
      else []

/-- The mailboxes so far, with those of one more group that are not among them. -/
def addMboxes (mboxes litbox : List ℕ) : List ℕ :=
  if mboxes = [] then litbox else mboxes ++ litbox.filter fun m => m ∉ mboxes

/-- `G_analize_groups`: the mailboxes of all target groups, each once. -/
def analizeGroups (net : Network n) (me : Fin n) (node : Node n) (groups : List Name) : List ℕ :=
  groups.foldl (fun mboxes g => addMboxes mboxes (node.litbox net me g)) []

/-- The session that sent a message, if it is local. -/
def sourceSession (net : Network n) (me : Fin n) (node : Node n) (m : Message) : Option Name :=
  match privateToNames m.sender with
  | none => none
  | some (privateName, procName) =>
    if procName = net.procName me then (getSession node.sessions privateName).map Session.name
    else none

/-- What `Sess_deliver_message` does with a regular message. -/
def deliverRegular (net : Network n) (me : Fin n) (node : Node n) (m : Message) :
    Except SessAlarm (Node n) := do
  let source := if Has m.type selfDiscard then node.sourceSession net me m else none
  let ss ← (node.analizeGroups net me m.groups).foldlM (fun ss mbox =>
    match getSessionIndex ss mbox with
    | none => .error .noSession
    | some ses =>
      .ok (if some ses.name = source then ss else sessWrite ss ses.name (.message m)))
    node.sessions
  return { node with sessions := ss }

/-- `Sess_deliver_message`. A join and a leave are of the first group of the message. -/
def deliverMessage (net : Network n) (me : Fin n) (node : Node n) (m : Message) :
    Except SessAlarm (Node n) :=
  if Has m.type joinMess then node.handleJoin net me m.sender (m.groups.headD [])
  else if Has m.type leaveMess then node.handleLeave net me m.sender (m.groups.headD [])
  else if Has m.type killMess then node.sessHandleKill net me m.sender
  else node.deliverRegular net me m

end Node

end ReplicatedScheduler.Spread
