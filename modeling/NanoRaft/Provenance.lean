import NanoRaft.ClusterCopies

/-!
# Where entries come from

Every entry says of a node under which id, address and port it joined. Whatever is lost, sent
twice, refused by a database or handled after a role was given up, no node holds or is sent an
entry about a process that did not join: `proc_entries` and `proc_sends` say where the entries
of one handler call come from, and `entries_are_joins` what that means in a whole run.
-/

namespace NanoRaft

/-- What is known of the processes: with which address, port and id there is one. -/
abbrev Launches := Bytes → UInt32 → UInt32 → Prop

/-- A configuration entry that says of a node what `J` holds of. -/
structure Entry.Names (J : Launches) (e : Entry) : Prop where
  type : e.type = .CFGADD
  known : J e.host e.port e.nodeid
  write_it : e.write_it = 0

/-- Every entry in the message does. -/
def Message.Names (J : Launches) : Message → Prop
  | .appendentries_q q => ∀ e ∈ q.entries, e.Names J
  | .handshake_q _ => False
  | .handshake_r _ | .appendentries_r _ => True

namespace RaftServer

variable {puts : Puts} {s s' : RaftServer} {fd k : ℕ} {m : Message} {ms : Sends}

/-! ## One handler call -/

theorem mem_stored {put : ℕ → PutResult} {term : UInt32} {es : List Entry} {e : Entry}
    (h : e ∈ stored put term es) : ∃ x ∈ es, e = x.restamp term := by
  induction es generalizing put with
  | nil => cases h
  | cons x es ih =>
    rw [stored, List.mem_append] at h
    rcases h with h | h
    · split at h
      · exact ⟨x, List.mem_cons_self, List.mem_singleton.mp h⟩
      · cases h
    · obtain ⟨y, hy, he⟩ := ih h
      exact ⟨y, List.mem_cons_of_mem x hy, he⟩

/-- The scan leaves some of the entries it is given. -/
theorem conflictScan_suffix {prelogindex : UInt32} {es rest : List Entry} {i : ℕ}
    (h : s.conflictScan prelogindex i es = .ok (s', rest)) : rest <:+ es := by
  induction es generalizing s i with
  | nil =>
    obtain ⟨_, rfl⟩ := Prod.mk.inj (Except.ok.inj h)
    exact List.suffix_refl []
  | cons e es ih =>
    obtain ⟨t, _, h⟩ := Except.bind_eq_ok.mp h
    split at h
    · exact (ih h).trans (List.suffix_cons e es)
    · obtain ⟨_, rfl⟩ := Prod.mk.inj (Except.ok.inj h)
      exact List.suffix_refl _

/-- What the append loop pushes is pushed of the entries of the message. -/
theorem storeEntries_mem {q : AppendEntriesQ} {e : Entry} (h : s.storeEntries puts q = .ok s')
    (he : e ∈ s'.entries) : e ∈ s.entries ∨ ∃ x ∈ q.entries, ∃ term, e = x.restamp term := by
  obtain ⟨⟨s1, rest⟩, hscan, hs'⟩ := Except.bind_eq_ok.mp h
  obtain ⟨db, logs, hs1⟩ := conflictScan_frame hscan
  obtain ⟨db', hloop⟩ := appendLoop_frame puts.entry s1 rest
  rw [Except.pure_eq_ok] at hs'
  rw [← hs', hloop, hs1, List.mem_append] at he
  rcases he with he | he
  · exact Or.inl he
  · obtain ⟨x, hx, hxe⟩ := mem_stored he
    exact Or.inr ⟨x, (conflictScan_suffix hscan).subset hx, _, hxe⟩

/-- Where the entries of a server come from. -/
inductive EntryFrom (s : RaftServer) (fd : ℕ) (m : Message) (e : Entry) : Prop where
  | kept (he : e ∈ s.entries)
  | joined (q : HandshakeQ) (c : Conn) (hm : m = .handshake_q q) (hc : s.conns.find? fd = some c)
    (he : e = s.cfgEntry c.addr q.raftport.toInt32 q.nodeid.toInt32)
  | sent (q : AppendEntriesQ) (x : Entry) (term : UInt32) (hm : m = .appendentries_q q)
    (hx : x ∈ q.entries) (he : e = x.restamp term)

theorem appendEntriesQ_mem {q : AppendEntriesQ} {r : AppendEntriesR} {e : Entry}
    (h : s.appendEntriesQ puts q = .ok (s', r)) (he : e ∈ s'.entries) :
    e ∈ s.entries ∨ ∃ x ∈ q.entries, ∃ term, e = x.restamp term := by
  rcases appendEntriesQ_cases h with ⟨_, hs⟩ | ⟨_, _, hs⟩ | ⟨_, _, hs⟩ | ⟨_, _, s1, hs1, hs⟩
  · rw [show s' = s.followCommit q from congrArg Prod.fst hs, followCommit_frame] at he
    exact Or.inl he
  · rw [show s' = (s.adoptTerm q).followCommit q from congrArg Prod.fst hs,
      followCommit_frame] at he
    exact Or.inl he
  · rw [show s' = (s.adoptTerm q).freshTime.followCommit q from congrArg Prod.fst hs,
      followCommit_frame] at he
    exact Or.inl he
  · rw [show s' = s1.followCommit q from congrArg Prod.fst hs, followCommit_frame] at he
    exact storeEntries_mem (s := s.adoptTerm q) hs1 he

theorem appendEntriesR_entries {r : AppendEntriesR} (h : s.appendEntriesR puts fd r = .ok s') :
    s'.entries = s.entries ∧ s'.conns = s.conns := by
  rcases appendEntriesR_cases h with ⟨_, hs⟩ | ⟨_, b, hs⟩
  · rw [hs]
    exact ⟨rfl, rfl⟩
  · obtain ⟨n, hs⟩ := changeCommitIndex_frame hs
    rw [hs, countReply_frame]
    exact ⟨rfl, rfl⟩

theorem proc_entries {e : Entry} (h : s.proc puts fd m = .ok (s', ms)) (he : e ∈ s'.entries) :
    s.EntryFrom fd m e := by
  cases m with
  | handshake_q q =>
    rcases handshakeQ_cases h with ⟨_, hs, _⟩ | ⟨_, hs, _⟩ | ⟨_, ⟨old, _, hret⟩, _⟩ |
      ⟨_, _, ⟨c, hc, hwel⟩, _⟩
    · rw [hs] at he
      exact .kept he
    · rw [hs] at he
      exact .kept he
    · rw [hret.frame] at he
      exact .kept he
    · rw [hwel.entries, List.mem_append] at he
      rcases he with he | he
      · exact .kept he
      · split at he
        · exact .joined q c rfl hc (List.mem_singleton.mp he)
        · cases he
  | handshake_r r =>
    obtain ⟨rfl, _⟩ := Prod.mk.inj (Except.ok.inj h)
    exact .kept he
  | appendentries_q q =>
    obtain ⟨r, hq, _⟩ := proc_appendEntriesQ h
    rcases appendEntriesQ_mem hq he with he | ⟨x, hx, term, hxe⟩
    · exact .kept he
    · exact .sent q x term rfl hx hxe
  | appendentries_r r =>
    rw [(appendEntriesR_entries (proc_appendEntriesR h).1).1] at he
    exact .kept he

/-- A handler sends entries of the log it leaves, and never a handshake. -/
def SendsOwn (s : RaftServer) : Message → Prop
  | .appendentries_q q => ∀ e ∈ q.entries, e ∈ s.entries
  | .handshake_q _ => False
  | .handshake_r _ | .appendentries_r _ => True

theorem buildAppendEntries_mem {p : RaftProxy} {q : AppendEntriesQ}
    (h : s.buildAppendEntries p = .ok q) : ∀ e ∈ q.entries, e ∈ s.entries := by
  intro e he
  obtain ⟨_, _, _, hes⟩ := buildAppendEntries_cases h
  rcases hes with hnil | ⟨_, x, hx, ⟨_, x0, hx0, hes⟩ | ⟨_, hes⟩⟩
  · rw [hnil] at he
    cases he
  · rw [hes, List.mem_cons, List.mem_singleton] at he
    rcases he with rfl | rfl
    · exact List.mem_of_getElem? hx0
    · exact List.mem_of_getElem? hx
  · rw [hes, List.mem_singleton] at he
    rw [he]
    exact List.mem_of_getElem? hx

theorem broadCast_sendsOwn (h : s.broadCastAppendEntries = .ok ms) (hm : (k, m) ∈ ms) :
    s.SendsOwn m := by
  obtain ⟨_, _, p, q, _, _, _, hq, rfl⟩ := broadCastAppendEntries_mem h hm
  exact buildAppendEntries_mem hq

theorem proc_sends {m' : Message} (h : s.proc puts fd m = .ok (s', ms)) (hm : (k, m') ∈ ms) :
    s'.SendsOwn m' := by
  have hreply : ∀ b, (k, m') ∈ [(fd, Message.handshake_r ⟨b⟩)] → s'.SendsOwn m' := by
    intro b hb
    obtain ⟨_, rfl⟩ := Prod.mk.inj (List.mem_singleton.mp hb)
    trivial
  cases m with
  | handshake_q q =>
    rcases handshakeQ_cases h with ⟨_, _, rfl⟩ | ⟨_, _, rfl⟩ | ⟨_, _, rfl⟩ | ⟨_, _, _, bs, hbs, rfl⟩
    · cases hm
    · exact hreply _ hm
    · exact hreply _ hm
    · rcases List.mem_append.mp hm with hm | hm
      · exact broadCast_sendsOwn hbs hm
      · exact hreply _ hm
  | handshake_r r =>
    obtain ⟨_, rfl⟩ := Prod.mk.inj (Except.ok.inj h)
    cases hm
  | appendentries_q q =>
    obtain ⟨r, _, rfl⟩ := proc_appendEntriesQ h
    obtain ⟨_, rfl⟩ := Prod.mk.inj (List.mem_singleton.mp hm)
    trivial
  | appendentries_r r =>
    rw [(proc_appendEntriesR h).2] at hm
    cases hm

/-- A handler gives no connection another address. -/
theorem proc_addr {cn' : Conn} (h : s.proc puts fd m = .ok (s', ms))
    (hcn : s'.conns.find? k = some cn') : ∃ cn, s.conns.find? k = some cn ∧ cn'.addr = cn.addr := by
  cases m with
  | handshake_q q =>
    rcases handshakeQ_cases h with ⟨_, hs, _⟩ | ⟨_, hs, _⟩ | ⟨_, ⟨old, _, hret⟩, _⟩ |
      ⟨_, _, ⟨c, hc, hwel⟩, _⟩
    · rw [hs] at hcn
      exact ⟨cn', hcn, rfl⟩
    · rw [hs] at hcn
      exact ⟨cn', hcn, rfl⟩
    · rw [hret.conns] at hcn
      split_ifs at hcn with hk ho
      · obtain ⟨cn, hfd, rfl⟩ := Option.map_eq_some_iff.mp hcn
        exact ⟨cn, by rw [hk, hfd], rfl⟩
      · exact ⟨cn', hcn, rfl⟩
    · rw [hwel.conns] at hcn
      split_ifs at hcn with hk
      · obtain rfl := Option.some.inj hcn
        exact ⟨c, by rw [hk, hc], rfl⟩
      · exact ⟨cn', hcn, rfl⟩
  | handshake_r r =>
    obtain ⟨rfl, _⟩ := Prod.mk.inj (Except.ok.inj h)
    exact ⟨cn', hcn, rfl⟩
  | appendentries_q q =>
    obtain ⟨r, hq, _⟩ := proc_appendEntriesQ h
    obtain ⟨_, _, _, _, _, _, _, hs⟩ := appendEntriesQ_frame hq
    rw [hs] at hcn
    exact ⟨cn', hcn, rfl⟩
  | appendentries_r r =>
    rw [(appendEntriesR_entries (proc_appendEntriesR h).1).2] at hcn
    exact ⟨cn', hcn, rfl⟩

/-- A message that may come to a server on a connection: it tells of known processes. -/
def Tells (J : Launches) (s : RaftServer) (fd : ℕ) (m : Message) : Prop :=
  m.Names J ∨ ∃ q, m = .handshake_q q ∧
    ∀ cn, s.conns.find? fd = some cn → J cn.addr q.raftport q.nodeid

/-- A server that is told of known processes knows of no others, and tells of no others. -/
theorem proc_names {J : Launches} (h : s.proc puts fd m = .ok (s', ms))
    (hs : ∀ e ∈ s.entries, e.Names J) (hm : s.Tells J fd m) :
    (∀ e ∈ s'.entries, e.Names J) ∧ ∀ k m', (k, m') ∈ ms → m'.Names J := by
  have hentries : ∀ e ∈ s'.entries, e.Names J := by
    intro e he
    cases proc_entries h he with
    | kept he => exact hs e he
    | joined q c hq hc he =>
      rcases hm with hm | ⟨q', hq', htold⟩
      · rw [hq] at hm
        exact absurd hm id
      · rw [hq] at hq'
        obtain rfl := Message.handshake_q.inj hq'
        rw [he]
        refine ⟨rfl, ?_, rfl⟩
        show J c.addr q.raftport.toInt32.toUInt32 q.nodeid.toInt32.toUInt32
        rw [UInt32.toUInt32_toInt32, UInt32.toUInt32_toInt32]
        exact htold c hc
    | sent q x term hq hx he =>
      rcases hm with hm | ⟨q', hq', _⟩
      · rw [hq] at hm
        rw [he]
        exact ⟨rfl, (hm x hx).known, rfl⟩
      · rw [hq] at hq'
        cases hq'
  refine ⟨hentries, fun k m' hm' => ?_⟩
  have hown := proc_sends h hm'
  cases m' with
  | appendentries_q q => exact fun e he => hentries e (hown e he)
  | handshake_q q => exact hown
  | handshake_r r => trivial
  | appendentries_r r => trivial

end RaftServer

namespace Cluster

variable {J : Launches} {c c' : Cluster} {i : ℕ} {puts : Puts}

/-! ## Runs -/

/-- Every entry names a process that `J` knows, on the way too, and so does a handshake that is
on the way. -/
structure Sourced (J : Launches) (c : Cluster) : Prop where
  leader : ∀ e ∈ c.leader.entries, e.Names J
  peers : ∀ (i : ℕ) (P : Peer), c.peers[i]? = some P → ∀ e ∈ P.server.entries, e.Names J
  toPeer : ∀ (i : ℕ) (P : Peer), c.peers[i]? = some P → ∀ m ∈ P.toPeer, m.Names J
  toLeader : ∀ (i : ℕ) (P : Peer), c.peers[i]? = some P → ∀ m ∈ P.toLeader, c.leader.Tells J i m

/-- The runs in which the processes that join are known ones. -/
def Joins (J : Launches) (_ : Cluster) : Event → Prop
  | .join _ addr raftPort nodeID => J addr raftPort nodeID
  | _ => True

theorem length_peers_of_getElem? {i : ℕ} {P : Peer} (h : c.peers[i]? = some P) :
    i < c.peers.length := (List.getElem?_eq_some_iff.mp h).1

/-- What a message told stays told: no connection gets another address. -/
theorem tells_mono {s s' : RaftServer} {m : Message} (h : s.Tells J i m)
    (haddr : ∀ cn', s'.conns.find? i = some cn' →
      ∃ cn, s.conns.find? i = some cn ∧ cn'.addr = cn.addr) : s'.Tells J i m := by
  rcases h with hm | ⟨q, hq, htold⟩
  · exact Or.inl hm
  · refine Or.inr ⟨q, hq, fun cn' hcn' => ?_⟩
    obtain ⟨cn, hcn, heq⟩ := haddr cn' hcn'
    rw [heq]
    exact htold cn hcn

theorem sourced_join (hs : Sourced J c) {disk : Disk} {addr : Bytes} {raftPort nodeID : UInt32}
    (hJ : J addr raftPort nodeID) (h : c.next (.join disk addr raftPort nodeID) = some c') :
    Sourced J c' := by
  obtain ⟨hlead, _⟩ := next_join h
  have hconns : ∀ k, c'.leader.conns.find? k =
      if k = c.peers.length then some ⟨addr, 0, none, true⟩ else c.leader.conns.find? k := by
    intro k
    rw [hlead]
    exact OrdMap.find?_insert _ _ _ _
  have htells : ∀ j P, c.peers[j]? = some P → ∀ m ∈ P.toLeader, c'.leader.Tells J j m := by
    intro j P hP m hm
    apply tells_mono (hs.toLeader j P hP m hm)
    intro cn' hcn'
    rw [hconns, if_neg (Nat.ne_of_lt (length_peers_of_getElem? hP))] at hcn'
    exact ⟨cn', hcn', rfl⟩
  constructor
  · rw [hlead]
    exact hs.leader
  · intro j P hP
    rcases peer_of_join h hP with hP | ⟨_, rfl⟩
    · exact hs.peers j P hP
    · exact fun e he => absurd he List.not_mem_nil
  · intro j P hP
    rcases peer_of_join h hP with hP | ⟨_, rfl⟩
    · exact hs.toPeer j P hP
    · exact fun m hm => absurd hm List.not_mem_nil
  · intro j P hP
    rcases peer_of_join h hP with hP | ⟨hj, rfl⟩
    · exact htells j P hP
    · intro m hm
      refine Or.inr ⟨_, List.mem_singleton.mp hm, fun cn hcn => ?_⟩
      rw [hconns, if_pos hj] at hcn
      obtain rfl := Option.some.inj hcn
      exact hJ

/-- The peers keep what they have, and are sent messages that name known processes. -/
theorem Sourced.sentTo {P : Peer} {j : ℕ} (hs : Sourced J c) (hP : c.peers[j]? = some P)
    {ms : Sends} (hms : ∀ k m, (k, m) ∈ ms → m.Names J) :
    ∀ m ∈ P.toPeer ++ Cluster.sentTo ms j, m.Names J := by
  intro m hm
  rcases List.mem_append.mp hm with hm | hm
  · exact hs.toPeer j P hP m hm
  · exact hms j m (mem_sentTo.mp hm)

theorem sourced_toLeader (hs : Sourced J c) (h : c.next (.toLeader i puts) = some c') :
    Sourced J c' := by
  obtain ⟨P, m, rest, ms, hP, hm, _, hproc, hpeers⟩ := next_toLeader h
  have hhead := hs.toLeader i P hP m (by rw [hm]; exact List.mem_cons_self)
  obtain ⟨hentries, hsends⟩ := RaftServer.proc_names hproc hs.leader hhead
  constructor
  · exact hentries
  · intro j P' hP'
    obtain ⟨P₀, hP₀, hserver, _⟩ := peer_of_toLeader hP hm (hpeers j) hP'
    rw [hserver]
    exact hs.peers j P₀ hP₀
  · intro j P' hP'
    obtain ⟨P₀, hP₀, _, hto, _⟩ := peer_of_toLeader hP hm (hpeers j) hP'
    rw [hto]
    exact hs.sentTo hP₀ hsends
  · intro j P' hP' m' hm'
    obtain ⟨P₀, hP₀, _, _, htold⟩ := peer_of_toLeader hP hm (hpeers j) hP'
    exact tells_mono (hs.toLeader j P₀ hP₀ m' (htold m' hm'))
      fun cn' hcn' => RaftServer.proc_addr hproc hcn'

theorem sourced_toPeer (hs : Sourced J c) (h : c.next (.toPeer i puts) = some c') :
    Sourced J c' := by
  obtain ⟨P, m, rest, s, ms, hP, hm, hproc, hlead, hpeers⟩ := next_toPeer h
  have hhead := hs.toPeer i P hP m (by rw [hm]; exact List.mem_cons_self)
  obtain ⟨hentries, hsends⟩ := RaftServer.proc_names hproc (hs.peers i P hP) (Or.inl hhead)
  constructor
  · rw [hlead]
    exact hs.leader
  · intro j P' hP'
    rcases peer_of_replaced (hpeers j) hP' with ⟨_, rfl⟩ | ⟨_, hold⟩
    · exact hentries
    · exact hs.peers j P' hold
  · intro j P' hP'
    rcases peer_of_replaced (hpeers j) hP' with ⟨_, rfl⟩ | ⟨_, hold⟩
    · intro m' hm'
      exact hs.toPeer i P hP m' (by rw [hm]; exact List.mem_cons_of_mem m hm')
    · exact hs.toPeer j P' hold
  · intro j P' hP' m' hm'
    rw [hlead]
    rcases peer_of_replaced (hpeers j) hP' with ⟨rfl, rfl⟩ | ⟨_, hold⟩
    · -- what the peer sends names known processes itself
      rcases List.mem_append.mp hm' with hm' | hm'
      · exact hs.toLeader j P hP m' hm'
      · exact Or.inl (hsends 0 m' (mem_sentTo.mp hm'))
    · exact hs.toLeader j P' hold m' hm'

theorem sourced_tick (hs : Sourced J c) (h : c.next .tick = some c') : Sourced J c' := by
  obtain ⟨ms, hms, hlead, hpeers⟩ := next_tick h
  have hsends : ∀ k m, (k, m) ∈ ms → m.Names J := by
    intro k m hm
    obtain ⟨_, _, p, q, _, _, _, hq, rfl⟩ := RaftServer.broadCastAppendEntries_mem hms hm
    exact fun e he => hs.leader e (RaftServer.buildAppendEntries_mem hq e he)
  constructor
  · rw [hlead]
    exact hs.leader
  · intro j P' hP'
    obtain ⟨P₀, hP₀, rfl⟩ := peer_of_tick (hpeers j) hP'
    exact hs.peers j P₀ hP₀
  · intro j P' hP'
    obtain ⟨P₀, hP₀, rfl⟩ := peer_of_tick (hpeers j) hP'
    exact hs.sentTo hP₀ hsends
  · intro j P' hP'
    obtain ⟨P₀, hP₀, rfl⟩ := peer_of_tick (hpeers j) hP'
    rw [hlead]
    exact hs.toLeader j P₀ hP₀

theorem sourced_timeout (hs : Sourced J c) (h : c.next (.timeout i) = some c') :
    Sourced J c' := by
  obtain ⟨P, hP, hlead, hpeers⟩ := next_timeout h
  constructor
  · rw [hlead]
    exact hs.leader
  · intro j P' hP'
    rcases peer_of_replaced (hpeers j) hP' with ⟨_, rfl⟩ | ⟨_, hold⟩
    · exact hs.peers i P hP
    · exact hs.peers j P' hold
  · intro j P' hP'
    rcases peer_of_replaced (hpeers j) hP' with ⟨_, rfl⟩ | ⟨_, hold⟩
    · exact hs.toPeer i P hP
    · exact hs.toPeer j P' hold
  · intro j P' hP'
    rw [hlead]
    rcases peer_of_replaced (hpeers j) hP' with ⟨rfl, rfl⟩ | ⟨_, hold⟩
    · exact hs.toLeader j P hP
    · exact hs.toLeader j P' hold

/-- Every event keeps it. -/
theorem Sourced.next {e : Event} (hs : Sourced J c) (hJ : Joins J c e)
    (h : c.next e = some c') : Sourced J c' := by
  cases e with
  | join disk addr raftPort nodeID => exact sourced_join hs hJ h
  | toLeader i puts => exact sourced_toLeader hs h
  | toPeer i puts => exact sourced_toPeer hs h
  | tick => exact sourced_tick hs h
  | timeout i => exact sourced_timeout hs h

/-- The entry that `start` appends is about the start node. -/
theorem names_launched (h : Launched c) : ∀ e ∈ c.leader.entries,
    e.type = .CFGADD ∧ e.write_it = 0 ∧ e.host = RaftServer.startHost := by
  obtain ⟨put, disk, port, id, hstart, _⟩ := h
  have hlead := RaftServer.launchStart_eq_ok hstart
  obtain ⟨db, happ, _⟩ := RaftServer.appendCfgLog_frame put
    ({ RaftServer.new disk with role := .Leader } : RaftServer) RaftServer.startHost port id
  intro e he
  rw [hlead, happ, List.mem_append] at he
  rcases he with he | he
  · cases he
  · split at he
    · rw [List.mem_singleton.mp he]
      exact ⟨rfl, rfl, rfl⟩
    · cases he

theorem sourced_launched (h : Launched c)
    (hJ : ∀ e ∈ c.leader.entries, J e.host e.port e.nodeid) : Sourced J c := by
  have hnone : ∀ (i : ℕ) (P : Peer), c.peers[i]? ≠ some P := by
    obtain ⟨_, _, _, _, _, hpeers⟩ := h
    intro i P hP
    rw [hpeers] at hP
    cases hP
  constructor
  · intro e he
    obtain ⟨htype, hwrite, _⟩ := names_launched h e he
    exact ⟨htype, hJ e he, hwrite⟩
  · exact fun i P hP => absurd hP (hnone i P)
  · exact fun i P hP => absurd hP (hnone i P)
  · exact fun i P hP => absurd hP (hnone i P)

/-- In a run, what is known of the processes is what was said when they were started. -/
def Said (c₀ : Cluster) (as : List Event) : Launches := fun host port nodeid =>
  (∃ e ∈ c₀.leader.entries, e.host = host ∧ e.port = port ∧ e.nodeid = nodeid) ∨
    ∃ disk, .join disk host port nodeid ∈ as

theorem allowed_joins (c₀ : Cluster) (as : List Event) :
    system.Allowed (Joins (Said c₀ as)) c₀ as := by
  rw [System.allowed_iff_forall]
  intro bs a u hbs _
  cases a with
  | join disk addr raftPort nodeID =>
    refine Or.inr ⟨disk, hbs.subset ?_⟩
    exact List.mem_append_right bs (List.mem_singleton.mpr rfl)
  | _ => trivial

theorem sourced_of_run {c₀ : Cluster} {as : List Event} (h₀ : Launched c₀)
    (hrun : system.run c₀ as = some c) : Sourced (Said c₀ as) c := by
  apply System.invariant_of_run (S := system) (C := Joins (Said c₀ as)) _ as _
    (allowed_joins c₀ as) hrun
  · exact fun s a s' hs hJ hn => hs.next hJ hn
  · exact sourced_launched h₀ fun e he => Or.inl ⟨e, he, rfl, rfl, rfl⟩

/-- **No process is made up.** In every run, whatever the timers, the databases and the order of
deliveries do, each entry in the log of any node, and each entry in a message on the way, is a
configuration entry with the address, port and id of the start node or of a process that has
joined in the run. -/
theorem entries_are_joins {c₀ : Cluster} {as : List Event} (h₀ : Launched c₀)
    (hrun : system.run c₀ as = some c) :
    (∀ s ∈ c.nodes, ∀ e ∈ s.entries, e.type = .CFGADD ∧ Said c₀ as e.host e.port e.nodeid) ∧
      ∀ P ∈ c.peers, ∀ q, .appendentries_q q ∈ P.toPeer →
        ∀ e ∈ q.entries, e.type = .CFGADD ∧ Said c₀ as e.host e.port e.nodeid := by
  have hs := sourced_of_run h₀ hrun
  have hplain : ∀ e : Entry, e.Names (Said c₀ as) →
      e.type = .CFGADD ∧ Said c₀ as e.host e.port e.nodeid := fun e he => ⟨he.type, he.known⟩
  constructor
  · intro s hsnode e he
    rcases List.mem_cons.mp hsnode with rfl | hpeer
    · exact hplain e (hs.leader e he)
    · obtain ⟨P, hP, rfl⟩ := List.mem_map.mp hpeer
      obtain ⟨i, hi⟩ := List.mem_iff_getElem?.mp hP
      exact hplain e (hs.peers i P hi e he)
  · intro P hP q hq e he
    obtain ⟨i, hi⟩ := List.mem_iff_getElem?.mp hP
    exact hplain e (hs.toPeer i P hi _ hq e he)

/-- A follower that has stored the same entries twice still knows of the two processes only. -/
theorem entries_are_joins_twice : ∃ c, system.run started
    [joins 2, leaderReads 0, peerReads 0, peerReads 0, .tick, peerReads 0] = some c ∧
      (∃ P ∈ c.peers, 3 ≤ P.server.entries.length) ∧
      ∀ s ∈ c.nodes, ∀ e ∈ s.entries, e.type = .CFGADD ∧ Said started
        [joins 2, leaderReads 0, peerReads 0, peerReads 0, .tick, peerReads 0]
        e.host e.port e.nodeid := by
  obtain ⟨c, hrun, htest⟩ := (Option.any_eq_true
    (fun c : Cluster => decide (∃ P ∈ c.peers, 3 ≤ P.server.entries.length)) (system.run started
      [joins 2, leaderReads 0, peerReads 0, peerReads 0, .tick, peerReads 0])).mp
    (by decide +kernel)
  exact ⟨c, hrun, of_decide_eq_true htest,
    (entries_are_joins ⟨⟨true, []⟩, ⟨none, .empty⟩, 7777, 1, rfl, rfl⟩ hrun).1⟩

end Cluster
end NanoRaft
