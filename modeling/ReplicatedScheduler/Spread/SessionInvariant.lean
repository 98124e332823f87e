import ReplicatedScheduler.Spread.Sessions

/-!
# The invariant of the sessions

**The invariant** (`NodeGood`). The table of a daemon shows the groups after all that it has
delivered. A message on its way that changes groups is from a session that is still in the table,
and after the end of a session there is no other of it (`Awaits`). So a daemon finds the session of
each local join and leave, and the session that it removes is no longer operational.

Joins, leaves and ends of sessions come back in the order in which they were handed down, since none
of them is sent as reliable (`Good.stream_of`).
-/

namespace ReplicatedScheduler.Spread

open Lib Lts

variable {n : ℕ}

/-! ## Messages that are handed up -/

/-- The message in some buffers. -/
def decode (mess : List Body) : Option Message := (Message.read .big mess.flatten).map Prod.fst

/-- The message, if it changes groups. -/
def control (mess : List Body) : Option Message := (decode mess).filter fun m => IsControl m.type

/-- The messages that are handed up. -/
def history (log : List (Handed (Fin n))) : List Message := log.filterMap fun e => decode e.mess

/-- Those that change groups, of one daemon's sessions. -/
def controlsOf (i : Fin n) (log : List (Handed (Fin n))) : List Message :=
  (log.filter fun e => e.procId = i).filterMap fun e => control e.mess

/-- A message that daemon `i` has handed down. -/
structure Network.Sends (net : Network n) (i : Fin n) (m : Message) : Prop where
  valid : m.Valid
  sender : ∃ s, IsPrivateName s ∧ m.sender = net.member i s
  control : IsControl m.type → packetType m.type ≠ some .reliable ∧ packetType m.type ≠ none

theorem decode_down (net : Network n) (i : Fin n) {m : Message} (h : m.Valid) :
    decode (net.down i m).elements = some m := by
  have hread := Message.read_write .big (net.byteOrder i) h []
  rw [List.append_nil] at hread
  rw [decode, Network.down, DownLink.flatten_ofBytes, hread, Option.map_some]

theorem read_down (net : Network n) (i j : Fin n) {m : Message} (h : m.Valid) :
    Message.read (net.byteOrder j) (net.down i m).elements.flatten = some (m, []) := by
  have hread := Message.read_write (net.byteOrder j) (net.byteOrder i) h []
  rw [List.append_nil] at hread
  rw [Network.down, DownLink.flatten_ofBytes, hread]

theorem control_down (net : Network n) (i : Fin n) {m : Message} (h : m.Valid) :
    control (net.down i m).elements = if IsControl m.type then some m else none := by
  rw [control, decode_down net i h, Option.filter_some]
  exact if_congr decide_eq_true_iff rfl rfl

theorem history_append (log log' : List (Handed (Fin n))) :
    history (log ++ log') = history log ++ history log' := List.filterMap_append

theorem controlsOf_append (i : Fin n) (log log' : List (Handed (Fin n))) :
    controlsOf i (log ++ log') = controlsOf i log ++ controlsOf i log' := by
  rw [controlsOf, List.filter_append, List.filterMap_append]
  rfl

/-! ## One daemon -/

/-- What is on its way of the sessions of daemon `i`. -/
structure Awaits (net : Network n) (i : Fin n) (ss : List Session) (pending : List Message) :
    Prop where
  session : ∀ m ∈ pending, ∃ t ∈ ss, m.sender = net.member i t.name
  op : ∀ m ∈ pending, m.Ends → ∀ t ∈ ss, m.sender = net.member i t.name → t.op = false
  last : pending.Pairwise fun m m' => m.Ends → m.sender ≠ m'.sender
  ended : ∀ t ∈ ss, t.op = false → ∃ m ∈ pending, m.Ends ∧ m.sender = net.member i t.name

theorem mem_clearOp {ss : List Session} {s : Name} {t' : Session} (h : t' ∈ clearOp ss s) :
    ∃ t ∈ ss, t' = t ∨ (t.name = s ∧ t' = { t with op := false }) := by
  obtain ⟨t, ht, rfl⟩ := List.mem_map.mp h
  refine ⟨t, ht, ?_⟩
  split_ifs with hname
  · exact Or.inr ⟨hname, rfl⟩
  · exact Or.inl rfl

theorem map_clearOp (ss : List Session) (s : Name) {α : Type} (g : Session → α)
    (hg : ∀ t op, g { t with op := op } = g t) : (clearOp ss s).map g = ss.map g := by
  rw [clearOp, List.map_map]
  refine List.map_congr_left fun t _ => ?_
  rw [Function.comp_apply]
  split_ifs
  · exact hg t false
  · rfl

namespace Awaits

variable {net : Network n} {i : Fin n} {ss : List Session} {pending : List Message} {m : Message}
  {ses : Session}

theorem last_append (h : Awaits net i ss pending)
    (hnot : ∀ m' ∈ pending, m'.Ends → m'.sender ≠ net.member i ses.name)
    (hsender : m.sender = net.member i ses.name) :
    (pending ++ [m]).Pairwise fun m m' => m.Ends → m.sender ≠ m'.sender := by
  refine List.pairwise_append.mpr
    ⟨h.last, List.pairwise_singleton _ _, fun m' hm' m'' hm'' hends => ?_⟩
  rw [List.mem_singleton.mp hm'', hsender]
  exact hnot m' hm' hends

/-- A session sends a message that does not end it. -/
theorem append (h : Awaits net i ss pending) (hses : ses ∈ ss)
    (hnot : ∀ m' ∈ pending, m'.Ends → m'.sender ≠ net.member i ses.name)
    (hsender : m.sender = net.member i ses.name) (hends : ¬ m.Ends) :
    Awaits net i ss (pending ++ [m]) where
  session m' hm' := by
    rcases List.mem_append.mp hm' with hm' | hm'
    · exact h.session m' hm'
    · rw [List.mem_singleton.mp hm']
      exact ⟨ses, hses, hsender⟩
  op m' hm' hends' := by
    rcases List.mem_append.mp hm' with hm' | hm'
    · exact h.op m' hm' hends'
    · exact absurd (List.mem_singleton.mp hm' ▸ hends') hends
  last := h.last_append hnot hsender
  ended t ht hop := by
    obtain ⟨m', hm', hmess⟩ := h.ended t ht hop
    exact ⟨m', List.mem_append_left _ hm', hmess⟩

/-- A session ends, and its message is handed down. -/
theorem finish (h : Awaits net i ss pending) (hlegal : ∀ t ∈ ss, IsPrivateName t.name)
    (hses : ses ∈ ss) (hnot : ∀ m' ∈ pending, m'.Ends → m'.sender ≠ net.member i ses.name)
    (hsender : m.sender = net.member i ses.name) (hends : m.Ends) :
    Awaits net i (clearOp ss ses.name) (pending ++ [m]) where
  session m' hm' := by
    have hname : ∀ t ∈ ss, ∃ t' ∈ clearOp ss ses.name, t'.name = t.name := fun t ht => by
      have hin : t.name ∈ (clearOp ss ses.name).map Session.name := by
        rw [map_clearOp ss ses.name Session.name fun _ _ => rfl]
        exact List.mem_map_of_mem ht
      exact List.mem_map.mp hin
    obtain ⟨t, ht, heq⟩ : ∃ t ∈ ss, m'.sender = net.member i t.name := by
      rcases List.mem_append.mp hm' with hm' | hm'
      · exact h.session m' hm'
      · rw [List.mem_singleton.mp hm']
        exact ⟨ses, hses, hsender⟩
    obtain ⟨t', ht', hname⟩ := hname t ht
    exact ⟨t', ht', by rw [heq, hname]⟩
  op m' hm' hends' t' ht' heq := by
    obtain ⟨t, ht, rfl | ⟨-, rfl⟩⟩ := mem_clearOp ht'
    · rcases List.mem_append.mp hm' with hm' | hm'
      · exact h.op m' hm' hends' t' ht heq
      · -- the session that ends
        rw [List.mem_singleton.mp hm', hsender] at heq
        have hname := (Network.member_injective (hlegal ses hses) (hlegal t' ht) heq).2
        obtain ⟨u, -, heq'⟩ := List.mem_map.mp ht'
        rw [← heq'] at hname ⊢
        split_ifs at hname ⊢ with hu
        · rfl
        · exact absurd hname.symm hu
    · rfl
  last := h.last_append hnot hsender
  ended t' ht' hop := by
    obtain ⟨t, ht, rfl | ⟨hname, rfl⟩⟩ := mem_clearOp ht'
    · obtain ⟨m', hm', hmess⟩ := h.ended t' ht hop
      exact ⟨m', List.mem_append_left _ hm', hmess⟩
    · refine ⟨m, List.mem_append_right _ (List.mem_singleton_self m), hends, ?_⟩
      rw [hsender, ← hname]

end Awaits

/-- The messages of daemon `i` that change groups, and are on their way. -/
def pendingOf (i : Fin n) (sent : List Message) (log : List (Handed (Fin n))) : List Message :=
  (sent.filter fun m => IsControl m.type).drop (controlsOf i log).length

/-- An operational session was told all that it was to be told since it was accepted. -/
def TheyHeard (net : Network n) (i : Fin n) (log : List (Handed (Fin n))) (ss : List Session) :
    Prop :=
  ∀ s ∈ ss, s.op = true → s.since ≤ log.length ∧ s.out.map Notice.told =
    (Views.after net.regMembId SkipList.empty (history (log.take s.since))).tellsAll net.regMembId
      (net.member i s.name) s.memb (history (log.drop s.since))

/-- A daemon that has delivered `log` has a group with too many members. -/
def Crowds (net : Network n) (log : List (Handed (Fin n))) : Prop :=
  ∃ r ∈ Views.after net.regMembId SkipList.empty (history log), r.Crowded

/-- What holds of daemon `i` when it has delivered `log`, and its sessions have sent `sent`. -/
structure NodeGood (net : Network n) (i : Fin n) (sent : List Message) (log : List (Handed (Fin n)))
    (node : Node n) : Prop where
  table : node.Good net i (Views.after net.regMembId SkipList.empty (history log))
  awaits : Awaits net i node.sessions (pendingOf i sent log)
  heard : TheyHeard net i log node.sessions

namespace NodeGood

variable {net : Network n} {i : Fin n} {sent : List Message} {log : List (Handed (Fin n))}
  {node : Node n}

/-- A message that is handed up next. -/
structure Next (net : Network n) (i : Fin n) (sent : List Message) (log : List (Handed (Fin n)))
    (e : Handed (Fin n)) (m : Message) : Prop where
  mess : (net.down e.procId m).elements = e.mess
  sends : net.Sends e.procId m
  order : controlsOf i (log ++ [e]) <+: sent.filter fun m => IsControl m.type

/-- A local message that changes groups is the first of those on their way. -/
theorem pendingOf_next {e : Handed (Fin n)} {m : Message} (hnext : Next net i sent log e m) :
    if IsControl m.type ∧ e.procId = i then
      pendingOf i sent log = m :: pendingOf i sent (log ++ [e])
    else pendingOf i sent log = pendingOf i sent (log ++ [e]) := by
  have hcontrol : control e.mess = if IsControl m.type then some m else none := by
    rw [← hnext.mess, control_down net e.procId hnext.sends.valid]
  have hone : controlsOf i [e] = if IsControl m.type ∧ e.procId = i then [m] else [] := by
    by_cases hi : e.procId = i
    · rw [controlsOf, List.filter_cons_of_pos (by simpa using hi), List.filter_nil,
        List.filterMap_cons, hcontrol]
      by_cases hm : IsControl m.type
      · rw [if_pos hm, if_pos ⟨hm, hi⟩]
        rfl
      · rw [if_neg hm, if_neg fun h => hm h.1]
        rfl
    · rw [controlsOf, List.filter_cons_of_neg (by simpa using hi), if_neg fun h => hi h.2]
      rfl
  obtain ⟨rest, hrest⟩ := hnext.order
  rw [pendingOf, pendingOf, ← hrest, List.drop_left]
  rw [controlsOf_append, hone]
  split_ifs with h
  · rw [List.append_assoc, List.drop_left]
    rfl
  · rw [List.append_nil, List.drop_left]

/-- The daemon can deliver it. -/
theorem ready (h : NodeGood net i sent log node) {e : Handed (Fin n)} {m : Message}
    (hnext : Next net i sent log e m) : Node.Ready net i node.sessions m := by
  obtain ⟨s, hs, hsender⟩ := hnext.sends.sender
  -- a message of a session of this daemon is on its way here
  have hlocal : IsControl m.type → ∀ t, IsPrivateName t → m.sender = net.member i t →
      m ∈ pendingOf i sent log := by
    intro hm t ht heq
    have hi : e.procId = i := (Network.member_injective hs ht (hsender.symm.trans heq)).1
    have hpending := pendingOf_next hnext
    rw [if_pos ⟨hm, hi⟩] at hpending
    rw [hpending]
    exact List.mem_cons_self
  refine ⟨⟨e.procId, s, hs, hsender⟩, fun hjoin t ht heq => ?_, fun hends t ht heq => ?_⟩
  · obtain ⟨u, hu, hname⟩ := h.awaits.session m (hlocal (Or.inl hjoin) t ht heq)
    exact ⟨u, hu, (Network.member_injective ht (h.table.legal u hu) (heq.symm.trans hname)).2.symm⟩
  · exact h.awaits.op m (hlocal (Or.inr (Or.inr hends.2.2)) t.name (h.table.legal t ht) heq) hends
      t ht heq

/-- What is on its way after a delivery was on its way before. -/
theorem mem_pendingOf_next {e : Handed (Fin n)} {m m' : Message} (hnext : Next net i sent log e m)
    (hm' : m' ∈ pendingOf i sent (log ++ [e])) : m' ∈ pendingOf i sent log := by
  have hpending := pendingOf_next hnext
  split_ifs at hpending
  · rw [hpending]
    exact List.mem_cons_of_mem _ hm'
  · rwa [hpending]

/-- The session of a message on its way goes on. -/
theorem ne_sender (h : NodeGood net i sent log node) {e : Handed (Fin n)} {m m' : Message}
    (hnext : Next net i sent log e m) (hm' : m' ∈ pendingOf i sent (log ++ [e])) (hends : m.Ends) :
    m.sender ≠ m'.sender := by
  intro heq
  obtain ⟨t, ht, hsender'⟩ := h.awaits.session m' (mem_pendingOf_next hnext hm')
  obtain ⟨s, hs, hsender⟩ := hnext.sends.sender
  have hi : e.procId = i := (Network.member_injective hs (h.table.legal t ht)
    (hsender.symm.trans (heq.trans hsender'))).1
  have hpending := pendingOf_next hnext
  rw [if_pos ⟨Or.inr (Or.inr hends.2.2), hi⟩] at hpending
  have hlast := h.awaits.last
  rw [hpending] at hlast
  exact (List.pairwise_cons.mp hlast).1 m' hm' hends heq

theorem awaits_delivered (h : NodeGood net i sent log node) {e : Handed (Fin n)} {m : Message}
    (hnext : Next net i sent log e m) {f : Session → List Told} {ss : List Session}
    (hhear : Hear f (Node.survivors net i node.sessions m) ss) :
    Awaits net i ss (pendingOf i sent (log ++ [e])) where
  session m' hm' := by
    obtain ⟨t, ht, hsender⟩ := h.awaits.session m' (mem_pendingOf_next hnext hm')
    have hmem : t ∈ Node.survivors net i node.sessions m := List.mem_filter.mpr
      ⟨ht, decide_eq_true fun hand =>
        h.ne_sender hnext hm' hand.1 (hand.2.trans hsender.symm)⟩
    obtain ⟨t', ht', hhears⟩ := hhear.exists_right hmem
    refine ⟨t', ht', ?_⟩
    rw [hsender, hhears.same]
  op m' hm' hends t' ht' hsender := by
    obtain ⟨t, ht, hhears⟩ := hhear.exists_left ht'
    rw [hhears.same] at hsender ⊢
    exact h.awaits.op m' (mem_pendingOf_next hnext hm') hends t (List.mem_filter.mp ht).1 hsender
  last := by
    have hpending := pendingOf_next hnext
    have hlast := h.awaits.last
    split_ifs at hpending
    · rw [hpending] at hlast
      exact (List.pairwise_cons.mp hlast).2
    · rwa [hpending] at hlast
  ended t' ht' hop := by
    obtain ⟨t, ht, hhears⟩ := hhear.exists_left ht'
    obtain ⟨ht, hgoes⟩ := List.mem_filter.mp ht
    rw [hhears.same] at hop ⊢
    obtain ⟨m', hm', hends, hsender⟩ := h.awaits.ended t ht hop
    refine ⟨m', ?_, hends, hsender⟩
    have hpending := pendingOf_next hnext
    split_ifs at hpending
    · rw [hpending] at hm'
      refine (List.mem_cons.mp hm').resolve_left fun heq => ?_
      exact of_decide_eq_true hgoes ⟨heq ▸ hends, heq ▸ hsender⟩
    · rwa [hpending] at hm'

theorem heard_delivered (h : NodeGood net i sent log node) {e : Handed (Fin n)} {m : Message}
    (hhistory : history [e] = [m]) {ss : List Session}
    (hhear : Hear (fun t => (Views.after net.regMembId SkipList.empty (history log)).tells
        net.regMembId m (net.member i t.name) t.memb)
      (Node.survivors net i node.sessions m) ss) : TheyHeard net i (log ++ [e]) ss := by
  intro t' ht' hop
  obtain ⟨t, ht, hhears⟩ := hhear.exists_left ht'
  have hop' : t.op = true := by
    rw [hhears.same] at hop
    exact hop
  obtain ⟨hsince, hheard⟩ := h.heard t (List.mem_filter.mp ht).1 hop'
  have hsplit : (Views.after net.regMembId SkipList.empty (history (log.take t.since))).after
      net.regMembId (history (log.drop t.since)) =
      Views.after net.regMembId SkipList.empty (history log) := by
    rw [← Views.after_append, ← history_append, List.take_append_drop]
  have hout := hhears.out
  rw [if_pos hop', hheard] at hout
  rw [hout, hhears.same]
  dsimp only
  rw [List.take_append_of_le_length hsince, List.drop_append_of_le_length hsince, history_append,
    hhistory, Views.tellsAll_append, hsplit, List.length_append]
  exact ⟨Nat.le_add_right_of_le hsince, congrArg _ (List.append_nil _).symm⟩

/-- **A daemon delivers a message**, unless a group has too many members. -/
theorem deliver (h : NodeGood net i sent log node) {e : Handed (Fin n)} {m : Message}
    (hnext : Next net i sent log e m) :
    GoesOn (NodeGood net i sent (log ++ [e])) .tooManyElements
      (∃ pre, log <+: pre ∧ pre <+: log ++ [e] ∧ Crowds net pre) (node.handle net i e) := by
  have hread : Message.read (net.byteOrder i) e.mess.flatten = some (m, []) := by
    rw [← hnext.mess, read_down net e.procId i hnext.sends.valid]
  have hhistory : history [e] = [m] := by
    rw [history, List.filterMap_cons, ← hnext.mess, decode_down net e.procId hnext.sends.valid]
    rfl
  have hafter : (Views.after net.regMembId SkipList.empty (history log)).apply net.regMembId m =
      Views.after net.regMembId SkipList.empty (history (log ++ [e])) := by
    rw [history_append, Views.after_append, hhistory]
    rfl
  rw [Node.handle, hread]
  refine (Node.deliverMessage_good h.table (h.ready hnext)).imp
    (fun node' ⟨hgood, hhear⟩ => ⟨hafter ▸ hgood, h.awaits_delivered hnext hhear,
      h.heard_delivered hhistory hhear⟩) ?_
  rintro ⟨r, hr | hr, hcrowded⟩
  · exact ⟨log, List.prefix_rfl, List.prefix_append _ _, r, hr, hcrowded⟩
  · exact ⟨log ++ [e], List.prefix_append _ _, List.prefix_rfl, r, hafter ▸ hr, hcrowded⟩

/-- A daemon delivers all that is new. -/
theorem deliverAll (h : NodeGood net i sent log node) {new : List (Handed (Fin n))}
    (hnew : ∀ e ∈ new, ∃ m, (net.down e.procId m).elements = e.mess ∧ net.Sends e.procId m)
    (horder : controlsOf i (log ++ new) <+: sent.filter fun m => IsControl m.type) :
    GoesOn (NodeGood net i sent (log ++ new)) .tooManyElements
      (∃ pre, log <+: pre ∧ pre <+: log ++ new ∧ Crowds net pre)
      (new.foldlM (Node.handle net i) node) := by
  refine GoesOn.foldlM (I := fun done => NodeGood net i sent (log ++ done))
    ((List.append_nil log).symm ▸ h) fun done e post node' hsplit hnode' => ?_
  have hbegins : (log ++ done) ++ [e] <+: log ++ new := by
    rw [hsplit]
    exact ⟨post, by simp⟩
  obtain ⟨m, hmess, hsends⟩ := hnew e (by rw [hsplit]; simp)
  obtain ⟨rest, hrest⟩ := hbegins
  have hfirst : controlsOf i ((log ++ done) ++ [e]) <+: sent.filter fun m => IsControl m.type := by
    rw [← hrest, controlsOf_append] at horder
    exact (List.prefix_append _ _).trans horder
  rw [← List.append_assoc]
  refine (hnode'.deliver ⟨hmess, hsends, hfirst⟩).imp (fun _ h => h) ?_
  rintro ⟨pre, hlog, hpre, hcrowds⟩
  exact ⟨pre, (List.prefix_append _ _).trans hlog, hpre.trans ⟨rest, hrest⟩, hcrowds⟩

/-! ## Sessions send -/

theorem pendingOf_append (hsome : controlsOf i log <+: sent.filter fun m => IsControl m.type)
    (m : Message) : pendingOf i (sent ++ [m]) log =
      pendingOf i sent log ++ if IsControl m.type then [m] else [] := by
  have hfilter : (sent ++ [m]).filter (fun m => IsControl m.type) =
      (sent.filter fun m => IsControl m.type) ++ if IsControl m.type then [m] else [] := by
    rw [List.filter_append]
    split_ifs with hm
    · rw [List.filter_cons_of_pos (by simpa using hm), List.filter_nil]
    · rw [List.filter_cons_of_neg (by simpa using hm), List.filter_nil]
  rw [pendingOf, hfilter, List.drop_append_of_le_length hsome.length_le]
  rfl

/-- No end of an operational session is on its way. -/
theorem no_end (h : NodeGood net i sent log node) {ses : Session} (hses : ses ∈ node.sessions)
    (hop : ses.op = true) : ∀ m ∈ pendingOf i sent log, m.Ends →
      m.sender ≠ net.member i ses.name := by
  intro m hm hends heq
  rw [h.awaits.op m hm hends ses hses heq] at hop
  cases hop

/-- An operational session sends a message that does not end it. -/
theorem submit (h : NodeGood net i sent log node)
    (hsome : controlsOf i log <+: sent.filter fun m => IsControl m.type) {ses : Session}
    (hses : ses ∈ node.sessions) (hop : ses.op = true) {m : Message}
    (hsender : m.sender = net.member i ses.name) (hends : ¬ m.Ends) :
    NodeGood net i (sent ++ [m]) log node := by
  refine ⟨h.table, ?_, h.heard⟩
  rw [pendingOf_append hsome]
  split_ifs
  · exact h.awaits.append hses (h.no_end hses hop) hsender hends
  · rw [List.append_nil]
    exact h.awaits

/-- An operational session ends. -/
theorem finish (h : NodeGood net i sent log node)
    (hsome : controlsOf i log <+: sent.filter fun m => IsControl m.type) {ses : Session}
    (hses : ses ∈ node.sessions) (hop : ses.op = true) {m : Message}
    (hsender : m.sender = net.member i ses.name) (hends : m.Ends) :
    NodeGood net i (sent ++ [m]) log { node with sessions := clearOp node.sessions ses.name } := by
  have hcontrol : IsControl m.type := Or.inr (Or.inr hends.2.2)
  refine ⟨h.table.of_map (map_clearOp _ _ (fun t => (t.name, t.mbox)) fun _ _ => rfl), ?_,
    fun t' ht' hop' => ?_⟩
  · rw [pendingOf_append hsome, if_pos hcontrol]
    exact h.awaits.finish h.table.legal hses (h.no_end hses hop) hsender hends
  · obtain ⟨t, ht, rfl | ⟨-, rfl⟩⟩ := mem_clearOp ht'
    · exact h.heard t' ht hop'
    · cases hop'

/-- A session is accepted. -/
theorem accept (h : NodeGood net i sent log node) {ses : Session} (hlegal : IsPrivateName ses.name)
    (hname : ∀ t ∈ node.sessions, t.name ≠ ses.name)
    (hmbox : ∀ t ∈ node.sessions, t.mbox ≠ ses.mbox) (hop : ses.op = true)
    (hsince : ses.since = log.length) (hout : ses.out = []) :
    NodeGood net i sent log { node with sessions := ses :: node.sessions } := by
  refine ⟨h.table.accept hlegal hname hmbox,
    ⟨fun m hm => ?_, fun m hm hends t ht heq => ?_, h.awaits.last, fun t ht hended => ?_⟩,
    fun t ht hop' => ?_⟩
  · obtain ⟨t, ht, hsender⟩ := h.awaits.session m hm
    exact ⟨t, List.mem_cons_of_mem _ ht, hsender⟩
  · rcases List.mem_cons.mp ht with rfl | ht
    · obtain ⟨u, hu, hsender⟩ := h.awaits.session m hm
      have heq' := Network.member_injective hlegal (h.table.legal u hu) (heq.symm.trans hsender)
      exact absurd heq'.2.symm (hname u hu)
    · exact h.awaits.op m hm hends t ht heq
  · rcases List.mem_cons.mp ht with rfl | ht
    · rw [hop] at hended
      cases hended
    · exact h.awaits.ended t ht hended
  · rcases List.mem_cons.mp ht with rfl | ht
    · rw [hsince, hout, List.drop_length]
      exact ⟨le_rfl, rfl⟩
    · exact h.heard t ht hop'

end NodeGood

/-! ## All daemons -/

theorem plain_endian {m : Message} (h : m.Plain) : m.type &&& endianType = 0 := by
  have hmask : ~~~plainMask &&& endianType = endianType := by decide
  rw [← hmask, ← BitVec.and_assoc, h.type]
  exact BitVec.zero_and

theorem sends_killMessage (net : Network n) (i : Fin n) {ses : Session}
    (h : IsPrivateName ses.name) : net.Sends i (killMessage net i ses) where
  valid := ⟨show (killMess ||| safeMess) &&& endianType = 0 by decide, net.isName_member i h,
    fun _ hg => absurd hg List.not_mem_nil, Nat.zero_le _, Nat.zero_le _⟩
  sender := ⟨ses.name, h, rfl⟩
  control := fun _ => by
    have htype : packetType (killMess ||| safeMess) = some .safe := by decide
    rw [show (killMessage net i ses).type = killMess ||| safeMess from rfl, htype]
    exact ⟨by simp, by simp⟩

theorem ends_killMessage (net : Network n) (i : Fin n) (ses : Session) :
    (killMessage net i ses).Ends :=
  show ¬ Has (killMess ||| safeMess) joinMess ∧ ¬ Has (killMess ||| safeMess) leaveMess ∧
    Has (killMess ||| safeMess) killMess by decide

/-- A message that is validated is one of the session. -/
theorem sends_of_validated {net : Network n} {i : Fin n} {ses : Session} {m : Message}
    (h : m.Validated net i ses) (hplain : m.Plain) :
    net.Sends i m ∧ m.sender = net.member i ses.name := by
  obtain ⟨hsender, hs, -⟩ := privateToNames_eq_some.mp h.sender
  refine ⟨⟨⟨plain_endian hplain, ?_, hplain.groups, h.numGroups, h.fits⟩, ⟨ses.name, hs, hsender⟩,
    fun hcontrol => ?_⟩, hsender⟩
  · rw [hsender]
    exact net.isName_member i hs
  · rw [packetType_control h.kind hcontrol]
    exact ⟨by simp, by simp⟩

namespace Cluster

variable {conf : Conf} {net : Network n} {x x' : Cluster n} {ring : Ring n}

/-- The daemons of a ring have been given messages of sessions only. -/
def Submitted (net : Network n) (ring : Ring n) (sent : Fin n → List Message) : Prop :=
  ∀ i, ring.submitted i = (sent i).map (net.down i) ∧ ∀ m ∈ sent i, net.Sends i m

/-- Joins, leaves and ends of sessions are not sent as reliable. -/
theorem Submitted.ordered {sent : Fin n → List Message} (h : Submitted net ring sent) :
    ring.Ordered control := by
  intro i l hl htype
  obtain ⟨hsubmitted, hsends⟩ := h i
  rw [hsubmitted] at hl
  obtain ⟨m, hm, rfl⟩ := List.mem_map.mp hl
  rw [control_down net i (hsends m hm).valid]
  split_ifs with hcontrol
  · obtain ⟨hreliable, hnone⟩ := (hsends m hm).control hcontrol
    obtain ⟨t, ht⟩ := Option.ne_none_iff_exists'.mp hnone
    have htype' : (packetType m.type).getD .agreed = .reliable := htype
    rw [ht, Option.getD_some] at htype'
    rw [ht, htype'] at hreliable
    exact absurd rfl hreliable
  · rfl

theorem mem_of_opSession {i : Fin n} {mbox : ℕ} {ses : Session}
    (h : x.opSession i mbox = some ses) :
    ses ∈ (x.nodes i).sessions ∧ ses.op = true ∧ ses.mbox = mbox := by
  obtain ⟨hses, hop⟩ := Option.filter_eq_some_iff.mp h
  exact ⟨List.mem_of_find?_eq_some hses, hop, by simpa using List.find?_some hses⟩

/-- The joins, leaves and ends of sessions among them. -/
theorem Submitted.controls {sent : Fin n → List Message} (h : Submitted net ring sent) (i : Fin n) :
    (ring.submitted i).filterMap (fun l => control l.elements) =
      (sent i).filter fun m => IsControl m.type := by
  obtain ⟨hsubmitted, hsends⟩ := h i
  rw [hsubmitted, List.filterMap_map, ← List.filterMap_eq_filter]
  refine List.filterMap_congr fun m hm => ?_
  rw [Function.comp_apply, control_down net i (hsends m hm).valid, Option.guard]
  exact if_congr decide_eq_true_iff.symm rfl rfl

variable [NeZero n]

/-- They come back in the order in which they were handed down. -/
theorem Submitted.controlsOf_prefix {sent : Fin n → List Message} (h : Submitted net ring sent)
    (hring : ring.Good) (i j : Fin n) :
    controlsOf j (ring.daemons i).store.handedUp <+:
      (sent j).filter fun m => IsControl m.type := by
  have hprefix := (((hring.feed_prefix h.ordered i).filter fun e => e.1 = j).map Prod.snd).trans
    (hring.stream_of h.ordered j)
  rw [Daemon.feed, read_of, List.filterMap_map, h.controls j] at hprefix
  exact hprefix

/-- What is handed up is a message of a session. -/
theorem Submitted.exists_message {sent : Fin n → List Message} (h : Submitted net ring sent)
    (hring : ring.Good) (i : Fin n) {e : Handed (Fin n)}
    (he : e ∈ (ring.daemons i).store.handedUp) :
    ∃ m ∈ sent e.procId, (net.down e.procId m).elements = e.mess ∧ net.Sends e.procId m := by
  obtain ⟨l, hl, hmess⟩ := hring.handedDown i he
  obtain ⟨hsubmitted, hsends⟩ := h e.procId
  rw [hsubmitted] at hl
  obtain ⟨m, hm, rfl⟩ := List.mem_map.mp hl
  exact ⟨m, hm, hmess, hsends m hm⟩

/-- What the sessions of daemon `i` have handed down. -/
def sent (x : Cluster n) (i : Fin n) : List Message := (x.handedDown i).map Prod.snd

/-- A daemon ends only with an error about the buffers of a message. Each message that was handed
down is one of its session. -/
structure Sound (conf : Conf) (net : Network n) (x : Cluster n) : Prop where
  alarm : ∀ e ∈ x.alarm, e = .tooManyElements ∨ e = .elementOutOfRange
  ring : (Ring.machine conf).Reachable Ring.Timely x.ring
  submitted : Submitted net x.ring x.sent
  own : ∀ i, ∀ p ∈ x.handedDown i, IsPrivateName p.1 ∧ p.2.sender = net.member i p.1

/-- The invariant of all sessions. -/
structure Good (conf : Conf) (net : Network n) (x : Cluster n) : Prop extends Sound conf net x where
  node : ∀ i, NodeGood net i (x.sent i) (x.log i) (x.nodes i)

theorem good_start : (start n).Good conf net where
  alarm := fun _ he => absurd he (Option.not_mem_none _)
  ring := .init
  submitted := fun _ => ⟨rfl, fun _ hm => absurd hm List.not_mem_nil⟩
  own := fun _ _ hp => absurd hp List.not_mem_nil
  node := fun _ => {
    table := ⟨⟨List.nodup_nil, List.nodup_nil⟩, fun _ ht => absurd ht List.not_mem_nil,
      List.Forall₂.nil⟩
    awaits := ⟨fun _ hm => absurd hm List.not_mem_nil, fun _ hm => absurd hm List.not_mem_nil,
      List.Pairwise.nil, fun _ ht => absurd ht List.not_mem_nil⟩
    heard := fun _ ht => absurd ht List.not_mem_nil }

/-- Each daemon delivers what is new to it, unless a group has too many members. -/
theorem Good.result (hconf : conf.Fits) (h : x.Good conf net)
    (hring : (Ring.machine conf).Reachable Ring.Timely ring)
    (hsub : ring.submitted = x.ring.submitted)
    (hgrows : ∀ i, x.log i <+: (ring.daemons i).store.handedUp) (i : Fin n) :
    GoesOn (NodeGood net i (x.sent i) (ring.daemons i).store.handedUp) .tooManyElements
      (∃ pre, x.log i <+: pre ∧ pre <+: (ring.daemons i).store.handedUp ∧ Crowds net pre)
      (x.result net ring i) := by
  have hgood := Ring.good_of_reachable hconf hring
  have hsubmitted : Submitted net ring x.sent := fun i => by
    rw [hsub]
    exact h.submitted i
  obtain ⟨new, hnew⟩ := hgrows i
  have hdrop : (ring.daemons i).store.handedUp.drop (x.log i).length = new := by
    rw [← hnew, List.drop_left]
  have horder := hsubmitted.controlsOf_prefix hgood i i
  rw [← hnew] at horder
  have hall := (h.node i).deliverAll (fun e he => by
    obtain ⟨m, -, hm⟩ := hsubmitted.exists_message hgood i (hnew ▸ List.mem_append_right _ he)
    exact ⟨m, hm⟩) horder
  rw [hnew] at hall
  rw [Cluster.result, hdrop]
  exact hall

/-- A step of the ring that hands nothing down. -/
theorem Good.afterRing (hconf : conf.Fits) (h : x.Good conf net) (halarm : x.alarm = none)
    (hring : (Ring.machine conf).Reachable Ring.Timely ring)
    (hsub : ring.submitted = x.ring.submitted)
    (hgrows : ∀ i, x.log i <+: (ring.daemons i).store.handedUp) :
    (x.afterRing net ring).Good conf net ∧ ((x.afterRing net ring).alarm ≠ none →
      ∃ i pre, x.log i <+: pre ∧ pre <+: (ring.daemons i).store.handedUp ∧ Crowds net pre) := by
  have hresult := h.result hconf hring hsub hgrows
  rw [Cluster.afterRing]
  split_ifs with hfailure
  · obtain ⟨e, he⟩ := Option.isSome_iff_exists.mp hfailure
    obtain ⟨i, -, hi⟩ := List.exists_of_findSome?_eq_some he
    rcases hresult i with ⟨node', hrun, -⟩ | ⟨hrun, hcrowds⟩
    · rw [hrun] at hi
      cases hi
    · rw [hrun] at hi
      cases hi
      refine ⟨⟨⟨fun e' he' => ?_, h.ring, h.submitted, h.own⟩, h.node⟩, fun _ => ⟨i, hcrowds⟩⟩
      exact Or.inl (Option.some.inj (he'.symm.trans he))
  · refine ⟨⟨⟨h.alarm, hring, fun i => ?_, h.own⟩, fun i => ?_⟩, fun hne => absurd halarm hne⟩
    · show ring.submitted i = _ ∧ _
      rw [hsub]
      exact h.submitted i
    · rcases hresult i with ⟨node', hrun, hnode⟩ | ⟨hrun, -⟩
      · show NodeGood net i (x.sent i) _ ((x.result net ring i).toOption.getD (x.nodes i))
        rw [hrun]
        exact hnode
      · refine absurd (List.findSome?_isSome_iff.mpr ⟨i, List.mem_finRange i, ?_⟩) hfailure
        rw [hrun]
        rfl

/-- The sessions of a daemon change. -/
theorem Good.setSessions (h : x.Good conf net) {i : Fin n} {ss : List Session}
    (hnode : NodeGood net i (x.sent i) (x.log i) { x.nodes i with sessions := ss }) :
    (x.setSessions i ss).Good conf net := by
  refine ⟨⟨h.alarm, h.ring, h.submitted, h.own⟩, fun j => ?_⟩
  show NodeGood net j (x.sent j) (x.log j) (Function.update x.nodes i _ j)
  by_cases hj : j = i
  · subst hj
    rw [Function.update_self]
    exact hnode
  · rw [Function.update_of_ne hj]
    exact h.node j

/-- A session hands a message down. -/
theorem Sound.submit (hconf : conf.Fits) (h : Sound conf net x) {i : Fin n} {ses : Session}
    {m : Message} (hsends : net.Sends i m) (hlegal : IsPrivateName ses.name)
    (hsender : m.sender = net.member i ses.name)
    (hother : ∀ j, j ≠ i → NodeGood net j (x.sent j) (x.log j) (x.nodes j))
    (hnode : NodeGood net i (x.sent i ++ [m]) (x.log i) (x.nodes i))
    (hstep : x.submit conf net i ses m = some x') : x'.Good conf net := by
  obtain ⟨ring, hring, rfl⟩ := Option.map_eq_some_iff.mp hstep
  have halarm := (Ring.good_of_reachable hconf h.ring).alarm
  obtain rfl : x.ring.newMessage i (net.down i m) = ring := by
    rw [Ring.step, halarm] at hring
    exact Option.some.inj hring
  have hlog : ∀ j, ((x.ring.newMessage i (net.down i m)).daemons j).store.handedUp = x.log j :=
    fun j => congrArg Store.handedUp (Ring.store_newMessage x.ring i _ j)
  refine ⟨⟨h.alarm, h.ring.step (a := .newMessage i _) trivial hring, fun j => ?_,
    fun j p hp => ?_⟩, fun j => ?_⟩
  · rw [(Ring.newMessage_records x.ring i (net.down i m)).2, sent]
    dsimp only
    by_cases hj : j = i
    · subst hj
      rw [Function.update_self, Function.update_self, List.map_append, List.map_append,
        (h.submitted j).1]
      refine ⟨rfl, fun m' hm' => ?_⟩
      rcases List.mem_append.mp hm' with hm' | hm'
      · exact (h.submitted j).2 m' hm'
      · rw [List.mem_singleton.mp hm']
        exact hsends
    · rw [Function.update_of_ne hj, Function.update_of_ne hj]
      exact h.submitted j
  · dsimp only at hp
    by_cases hj : j = i
    · subst hj
      rw [Function.update_self] at hp
      rcases List.mem_append.mp hp with hp | hp
      · exact h.own j p hp
      · rw [List.mem_singleton.mp hp]
        exact ⟨hlegal, hsender⟩
    · rw [Function.update_of_ne hj] at hp
      exact h.own j p hp
  · show NodeGood net j _ ((x.ring.newMessage i (net.down i m)).daemons j).store.handedUp
      (x.nodes j)
    rw [hlog, sent]
    dsimp only
    by_cases hj : j = i
    · subst hj
      rw [Function.update_self, List.map_append]
      exact hnode
    · rw [Function.update_of_ne hj]
      exact hother j hj

/-- An operational session hands a message down that ends it. -/
theorem Good.submitEnd (hconf : conf.Fits) (h : x.Good conf net) {i : Fin n} {ses : Session}
    (hses : ses ∈ (x.nodes i).sessions) (hop : ses.op = true) {m : Message}
    (hsends : net.Sends i m) (hsender : m.sender = net.member i ses.name) (hends : m.Ends)
    (hstep : (x.clearOp i ses).submit conf net i ses m = some x') : x'.Good conf net := by
  have hring := Ring.good_of_reachable hconf h.ring
  have hnode := (h.node i).finish (h.submitted.controlsOf_prefix hring i i) hses hop hsender hends
  refine Sound.submit (x := x.clearOp i ses) hconf ⟨h.alarm, h.ring, h.submitted, h.own⟩ hsends
    ((h.node i).table.legal ses hses) hsender (fun j hj => ?_) ?_ hstep
  · show NodeGood net j _ _ (Function.update x.nodes i _ j)
    rw [Function.update_of_ne hj]
    exact h.node j
  · show NodeGood net i _ (x.log i) (Function.update x.nodes i _ i)
    rw [Function.update_self]
    exact hnode

theorem Good.sessKill (hconf : conf.Fits) (h : x.Good conf net) {i : Fin n} {ses : Session}
    (hses : ses ∈ (x.nodes i).sessions) (hop : ses.op = true)
    (hstep : x.sessKill conf net i ses = some x') : x'.Good conf net :=
  h.submitEnd hconf hses hop (sends_killMessage net i ((h.node i).table.legal ses hses)) rfl
    (ends_killMessage net i ses) hstep

theorem readAlarm_cases {m : Message} {e : SessAlarm} (h : m.readAlarm = some e) :
    e = .tooManyElements ∨ e = .elementOutOfRange := by
  unfold Message.readAlarm at h
  split_ifs at h
  · exact Or.inl (Option.some.inj h).symm
  · exact Or.inr (Option.some.inj h).symm

theorem Good.sessRead (hconf : conf.Fits) (h : x.Good conf net) {i : Fin n} {ses : Session}
    (hses : ses ∈ (x.nodes i).sessions) (hop : ses.op = true) {m : Message} (hplain : m.Plain)
    (hstep : x.sessRead conf net i ses m = some x') : x'.Good conf net := by
  unfold Cluster.sessRead at hstep
  split_ifs at hstep with hvalidated hlong hnone hkill
  · obtain rfl := Option.some.inj hstep
    exact ⟨⟨fun _ he => readAlarm_cases he, h.ring, h.submitted, h.own⟩, h.node⟩
  · exact h.sessKill hconf hses hop hstep
  · obtain ⟨hsends, hsender⟩ := sends_of_validated hvalidated hplain
    exact h.submitEnd hconf hses hop hsends hsender (ends_of_oneKind hvalidated.kind hkill) hstep
  · obtain ⟨hsends, hsender⟩ := sends_of_validated hvalidated hplain
    have hring := Ring.good_of_reachable hconf h.ring
    exact h.toSound.submit hconf hsends ((h.node i).table.legal ses hses) hsender
      (fun j _ => h.node j)
      ((h.node i).submit (h.submitted.controlsOf_prefix hring i i) hses hop hsender
        fun hends => hkill hends.2.2) hstep
  · exact h.sessKill hconf hses hop hstep

/-- What a step does. -/
inductive Stepped (conf : Conf) (net : Network n) (x : Cluster n) : Action n → Cluster n → Prop
  | daemons {a : Ring.Action n} {ring : Ring n} (run : Ring.step conf x.ring a = some ring)
      (submitted : ring.submitted = x.ring.submitted)
      (grows : ∀ i, x.log i <+: (ring.daemons i).store.handedUp) :
      Stepped conf net x (.daemons a) (x.afterRing net ring)
  | accept {i : Fin n} {s : Name} (mbox : ℕ) (memb : Bool) (legal : IsPrivateName s)
      (new : ∀ t ∈ (x.nodes i).sessions, t.name ≠ s) :
      Stepped conf net x (.accept i s mbox memb)
        (x.setSessions i (⟨s, mbox, memb, true, (x.log i).length, []⟩ :: (x.nodes i).sessions))
  | read {i : Fin n} {ses : Session} {m : Message} {x' : Cluster n}
      (mem : ses ∈ (x.nodes i).sessions) (op : ses.op = true)
      (read : x.sessRead conf net i ses m = some x') : Stepped conf net x (.read i ses.mbox m) x'
  | kill {i : Fin n} {ses : Session} {x' : Cluster n} (mem : ses ∈ (x.nodes i).sessions)
      (op : ses.op = true) (kill : x.sessKill conf net i ses = some x') :
      Stepped conf net x (.kill i ses.mbox) x'

/-- Steps are taken only before an error. -/
theorem stepped_of_step {a : Action n} (hstep : step conf net x a = some x') :
    x.alarm = none ∧ Stepped conf net x a x' := by
  unfold step at hstep
  split_ifs at hstep with halarm
  refine ⟨Option.not_isSome_iff_eq_none.mp halarm, ?_⟩
  have hring : ∀ b, (∀ i m, b ≠ .newMessage i m) → (Ring.step conf x.ring b).map (x.afterRing net) =
      some x' → Stepped conf net x (.daemons b) x' := by
    intro b hne hmap
    obtain ⟨ring, hrun, rfl⟩ := Option.map_eq_some_iff.mp hmap
    obtain ⟨i, m, heq, -⟩ | ⟨-, hsub, -⟩ := Ring.step_records hrun
    · exact absurd heq (hne i m)
    · exact .daemons hrun hsub fun i => Ring.handedUp_prefix hrun i
  cases a with
  | daemons b =>
    cases b with
    | newMessage i m => cases hstep
    | bcast i k => exact hring _ (by simp) hstep
    | token k => exact hring _ (by simp) hstep
    | hurryEvent => exact hring _ (by simp) hstep
    | hurry k => exact hring _ (by simp) hstep
  | accept i s mbox memb =>
    dsimp only at hstep
    split_ifs at hstep with hnew
    obtain rfl := Option.some.inj hstep
    exact .accept mbox memb hnew.1 hnew.2
  | read i mbox m =>
    obtain ⟨ses, hses, hread⟩ := Option.bind_eq_some_iff.mp hstep
    obtain ⟨hmem, hop, rfl⟩ := mem_of_opSession hses
    exact .read hmem hop hread
  | kill i mbox =>
    obtain ⟨ses, hses, hkill⟩ := Option.bind_eq_some_iff.mp hstep
    obtain ⟨hmem, hop, rfl⟩ := mem_of_opSession hses
    exact .kill hmem hop hkill

theorem good_step (hconf : conf.Fits) {a : Action n} (h : x.Good conf net) (hok : x.Ok a)
    (hstep : step conf net x a = some x') : x'.Good conf net := by
  obtain ⟨halarm, hstep⟩ := stepped_of_step hstep
  cases hstep with
  | daemons hrun hsub hgrows =>
    exact (h.afterRing hconf halarm (h.ring.step hok hrun) hsub hgrows).1
  | accept mbox memb hlegal hnew =>
    exact h.setSessions ((h.node _).accept hlegal hnew hok rfl rfl rfl)
  | read hmem hop hread => exact h.sessRead hconf hmem hop hok hread
  | kill hmem hop hkill => exact h.sessKill hconf hmem hop hkill

theorem good_of_reachable (hconf : conf.Fits) (h : (machine conf net).Reachable Ok x) :
    x.Good conf net :=
  h.invariant good_start fun _ _ _ h hok hs => good_step hconf h hok hs

/-! ## What is handed down, and errors -/

theorem submit_handedDown {i : Fin n} {ses : Session} {m : Message}
    (hstep : x.submit conf net i ses m = some x') :
    x'.handedDown = Function.update x.handedDown i (x.handedDown i ++ [(ses.name, m)]) := by
  obtain ⟨ring, -, rfl⟩ := Option.map_eq_some_iff.mp hstep
  rfl

theorem sessKill_handedDown {i : Fin n} {ses : Session}
    (hstep : x.sessKill conf net i ses = some x') : x'.handedDown =
      Function.update x.handedDown i (x.handedDown i ++ [(ses.name, killMessage net i ses)]) :=
  submit_handedDown (x := x.clearOp i ses) hstep

theorem sessRead_handedDown {i : Fin n} {ses : Session} {m : Message}
    (hstep : x.sessRead conf net i ses m = some x') : x'.handedDown = x.handedDown ∨
      ∃ m', x'.handedDown = Function.update x.handedDown i (x.handedDown i ++ [(ses.name, m')]) ∧
        (m' = m ∨ m' = killMessage net i ses) := by
  unfold sessRead at hstep
  split_ifs at hstep
  · obtain rfl := Option.some.inj hstep
    exact Or.inl rfl
  · exact Or.inr ⟨_, sessKill_handedDown hstep, Or.inr rfl⟩
  · exact Or.inr ⟨m, submit_handedDown (x := x.clearOp i ses) hstep, Or.inl rfl⟩
  · exact Or.inr ⟨m, submit_handedDown hstep, Or.inl rfl⟩
  · exact Or.inr ⟨_, sessKill_handedDown hstep, Or.inr rfl⟩

/-- What a step hands down at a daemon is of an operational session there: its client wrote it, or
the daemon gives the session up. -/
theorem handedDown_step {a : Action n} (hstep : step conf net x a = some x') (i : Fin n) :
    x'.handedDown i = x.handedDown i ∨ ∃ ses ∈ (x.nodes i).sessions, ses.op = true ∧
      ∃ m, x'.handedDown i = x.handedDown i ++ [(ses.name, m)] ∧
        (a = .read i ses.mbox m ∨ m = killMessage net i ses) := by
  have hat : ∀ {j ses m}, ses ∈ (x.nodes j).sessions → ses.op = true →
      x'.handedDown = Function.update x.handedDown j (x.handedDown j ++ [(ses.name, m)]) →
      (a = .read j ses.mbox m ∨ m = killMessage net j ses) →
      x'.handedDown i = x.handedDown i ∨ ∃ ses ∈ (x.nodes i).sessions, ses.op = true ∧
        ∃ m, x'.handedDown i = x.handedDown i ++ [(ses.name, m)] ∧
          (a = .read i ses.mbox m ∨ m = killMessage net i ses) := by
    intro j ses m hses hop hdown hcause
    rw [hdown]
    by_cases hi : i = j
    · subst hi
      rw [Function.update_self]
      exact Or.inr ⟨ses, hses, hop, m, rfl, hcause⟩
    · exact Or.inl (Function.update_of_ne hi _ _)
  cases (stepped_of_step hstep).2 with
  | daemons =>
    unfold afterRing
    split_ifs <;> exact Or.inl rfl
  | accept => exact Or.inl rfl
  | read hmem hop hread =>
    obtain hsame | ⟨m', hdown, rfl | hkill⟩ := sessRead_handedDown hread
    · exact Or.inl (congrFun hsame i)
    · exact hat hmem hop hdown (Or.inl rfl)
    · exact hat hmem hop hdown (Or.inr hkill)
  | kill hmem hop hkill => exact hat hmem hop (sessKill_handedDown hkill) (Or.inr rfl)

end Cluster

end ReplicatedScheduler.Spread
