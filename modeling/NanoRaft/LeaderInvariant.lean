import NanoRaft.ModApiTheorems

/-!
# What the start node keeps

Invariants of the process that was launched by `start`, and what it puts on its
connections:

* `ProxysWf`: a proxy and its connection name each other, so a reply is counted for the
  node it came from (`ackedOn`);
* `LogWf`: the entries are its own, all of term 0, and the commit index is inside the log;
* `SentBy`: a message is built from the log, by `buildAppendEntries_sentBy`.

`LeaderStep` lists what the start node does with a message of a joined node, and the lemmas
under that name say what it keeps.
-/

namespace NanoRaft

/-- The index of the first entry a message carries: entry 0 if it starts the log. -/
def AppendEntriesQ.firstIndex (q : AppendEntriesQ) : ℕ :=
  if q.prelogindex = 0 then 0 else q.prelogindex.toNat + 1

theorem AppendEntriesQ.firstIndex_of_zero (q : AppendEntriesQ) (h : q.prelogindex.toNat = 0) :
    q.firstIndex = 0 := by
  have hzero : q.prelogindex = 0 := UInt32.toNat_inj.mp h
  rw [firstIndex, if_pos hzero]

theorem AppendEntriesQ.firstIndex_of_pos (q : AppendEntriesQ) (h : 0 < q.prelogindex.toNat) :
    q.firstIndex = q.prelogindex.toNat + 1 := by
  have hne : q.prelogindex ≠ 0 := by
    intro hzero
    rw [hzero] at h
    exact absurd h (lt_irrefl 0)
  rw [firstIndex, if_neg hne]

/-- The replies that are counted: the message was accepted and carried entries. -/
def AppendEntriesR.counts (r : AppendEntriesR) : Bool := r.success && !r.isheartbeat

namespace RaftServer

variable {s s' : RaftServer} {fd old : ℕ} {q : HandshakeQ} {cn : Conn} {put : PutResult}

/-! ## Proxies and connections -/

/-- The node whose proxy connection `fd` is tied to. -/
def tiedTo (s : RaftServer) (fd : ℕ) : Option UInt32 := (s.conns.find? fd).bind Conn.proxy

theorem tiedTo_eq_some {id : UInt32} :
    s.tiedTo fd = some id ↔ ∃ cn, s.conns.find? fd = some cn ∧ cn.proxy = some id :=
  Option.bind_eq_some_iff

/-- Every proxy has a connection that is tied to it, and every tied connection is the one
its proxy has. `NextIndex()` is one ahead of `MatchIndex()`. -/
structure ProxysWf (s : RaftServer) : Prop where
  counters : ∀ id p, s.proxys.find? id = some p → p.nextIndex = p.matchIndex + 1
  proxyTied : ∀ id p, s.proxys.find? id = some p →
    ∃ fd, p.connFd = some fd ∧ s.tiedTo fd = some id
  connTied : ∀ fd id, s.tiedTo fd = some id →
    ∃ p, s.proxys.find? id = some p ∧ p.connFd = some fd

/-- A proxy without a connection is no proxy at all. -/
theorem ProxysWf.find?_of_proxyConnFd (h : s.ProxysWf) {id : UInt32}
    (hnone : s.proxyConnFd id = none) : s.proxys.find? id = none := by
  cases hp : s.proxys.find? id with
  | none => rfl
  | some p =>
    obtain ⟨fd, hfd, _⟩ := h.proxyTied id p hp
    have hsome : s.proxyConnFd id = some fd := proxyConnFd_eq_some.mpr ⟨p, hp, hfd⟩
    rw [hnone] at hsome
    cases hsome

/-- A node has one tied connection. -/
theorem ProxysWf.tiedTo_inj (h : s.ProxysWf) {k k' : ℕ} {id : UInt32}
    (hk : s.tiedTo k = some id) (hk' : s.tiedTo k' = some id) : k = k' := by
  obtain ⟨p, hp, hfd⟩ := h.connTied k id hk
  obtain ⟨p', hp', hfd'⟩ := h.connTied k' id hk'
  rw [hp] at hp'
  obtain rfl := Option.some.inj hp'
  rw [hfd] at hfd'
  exact Option.some.inj hfd'

/-- Two tied connections are those of two nodes. -/
theorem ProxysWf.id_ne (h : s.ProxysWf) {k k' : ℕ} {id id' : UInt32}
    (hk : s.tiedTo k = some id) (hk' : s.tiedTo k' = some id') (hne : k ≠ k') : id ≠ id' := by
  intro heq
  rw [heq] at hk
  exact hne (h.tiedTo_inj hk hk')

/-- The connection of a proxy other than `id` is not the one tied to `id`. -/
theorem ProxysWf.connFd_ne (hs : s.ProxysWf) {id id' : UInt32} {p : RaftProxy} {k k' : ℕ}
    (hp : s.proxys.find? id' = some p) (hk' : p.connFd = some k') (hne : id' ≠ id)
    (hk : s.tiedTo k = some id ∨ s.tiedTo k = none) : k' ≠ k := by
  intro heq
  obtain ⟨k1, hk1, htied⟩ := hs.proxyTied id' p hp
  rw [hk'] at hk1
  obtain rfl := Option.some.inj hk1
  rw [heq] at htied
  rcases hk with hk | hk
  · rw [hk] at htied
    exact hne (Option.some.inj htied).symm
  · rw [hk] at htied
    cases htied

/-- The old connection of a known node, tied to it and different from an untied one. -/
theorem ProxysWf.oldConn (h : s.ProxysWf) (hun : s.tiedTo fd = none)
    (hold : s.proxyConnFd q.nodeid = some old) :
    (∃ p, s.proxys.find? q.nodeid = some p ∧ p.connFd = some old) ∧
    s.tiedTo old = some q.nodeid ∧ old ≠ fd := by
  obtain ⟨p, hp, hfd⟩ := proxyConnFd_eq_some.mp hold
  obtain ⟨fd', hfd', htied⟩ := h.proxyTied _ p hp
  have heq : old = fd' := by
    rw [hfd] at hfd'
    exact Option.some.inj hfd'
  rw [← heq] at htied
  refine ⟨⟨p, hp, hfd⟩, htied, fun hof => ?_⟩
  rw [hof, hun] at htied
  cases htied

/-! ### After the handshake of a known node -/

theorem Retied.tiedTo (h : s.Retied fd old q s') (hc : s.conns.find? fd = some cn) (k : ℕ) :
    s'.tiedTo k = if k = fd then some q.nodeid else if k = old then none else s.tiedTo k := by
  unfold RaftServer.tiedTo
  rw [h.conns, hc]
  split
  · rfl
  · split <;> rfl

theorem Retied.proxys (h : s.Retied fd old q s') (k : UInt32) :
    s'.proxys.find? k = if k = q.nodeid
      then (s.proxys.find? q.nodeid).map fun p => { p with connFd := some fd }
      else s.proxys.find? k := by
  rw [h.frame]
  exact OrdMap.find?_modify _ _ _ _

theorem Retied.proxysWf (h : s.Retied fd old q s') (hs : s.ProxysWf)
    (hc : s.conns.find? fd = some cn) (hun : s.tiedTo fd = none)
    (hold : s.proxyConnFd q.nodeid = some old) : s'.ProxysWf := by
  obtain ⟨⟨p0, hp0, hfd0⟩, htied0, hne⟩ := hs.oldConn hun hold
  have hnode : s'.proxys.find? q.nodeid = some { p0 with connFd := some fd } := by
    rw [h.proxys, if_pos rfl, hp0]
    rfl
  constructor
  · intro id p hp
    rw [h.proxys] at hp
    split at hp
    · rw [hp0] at hp
      obtain rfl := Option.some.inj hp
      exact hs.counters _ p0 hp0
    · exact hs.counters id p hp
  · intro id p hp
    by_cases hid : id = q.nodeid
    · rw [hid, hnode] at hp
      obtain rfl := Option.some.inj hp
      exact ⟨fd, rfl, by rw [h.tiedTo hc, if_pos rfl, hid]⟩
    · rw [h.proxys, if_neg hid] at hp
      obtain ⟨fd1, hfd1, htied1⟩ := hs.proxyTied id p hp
      -- the connection of another proxy is neither the new one nor the old one
      have h1 : fd1 ≠ fd := hs.connFd_ne hp hfd1 hid (Or.inr hun)
      have h2 : fd1 ≠ old := hs.connFd_ne hp hfd1 hid (Or.inl htied0)
      exact ⟨fd1, hfd1, by rw [h.tiedTo hc, if_neg h1, if_neg h2, htied1]⟩
  · intro k id hk
    rw [h.tiedTo hc] at hk
    split at hk
    · next hkfd =>
      obtain rfl := Option.some.inj hk
      exact ⟨_, hnode, by rw [hkfd]⟩
    · split at hk
      · cases hk
      · next hkold =>
        obtain ⟨p, hp, hpfd⟩ := hs.connTied k id hk
        have hid : id ≠ q.nodeid := hs.id_ne hk htied0 hkold
        exact ⟨p, by rw [h.proxys, if_neg hid, hp], hpfd⟩

/-! ### After the handshake of a new node -/

theorem Welcomed.tiedTo (h : s.Welcomed put fd cn q s') (k : ℕ) :
    s'.tiedTo k = if k = fd then some q.nodeid else s.tiedTo k := by
  unfold RaftServer.tiedTo
  rw [h.conns]
  split <;> rfl

theorem Welcomed.proxysWf (h : s.Welcomed put fd cn q s') (hs : s.ProxysWf)
    (hun : s.tiedTo fd = none) (hnew : s.proxyConnFd q.nodeid = none) : s'.ProxysWf := by
  have hnone := hs.find?_of_proxyConnFd hnew
  have hnode : s'.proxys.find? q.nodeid
      = some { RaftProxy.new with state := .IsVoting, connFd := some fd } := by
    rw [h.proxys, if_pos rfl, hnone]
    rfl
  constructor
  · intro id p hp
    by_cases hid : id = q.nodeid
    · rw [hid, hnode] at hp
      obtain rfl := Option.some.inj hp
      rfl
    · rw [h.proxys, if_neg hid] at hp
      exact hs.counters id p hp
  · intro id p hp
    by_cases hid : id = q.nodeid
    · rw [hid, hnode] at hp
      obtain rfl := Option.some.inj hp
      exact ⟨fd, rfl, by rw [h.tiedTo, if_pos rfl, hid]⟩
    · rw [h.proxys, if_neg hid] at hp
      obtain ⟨fd1, hfd1, htied1⟩ := hs.proxyTied id p hp
      have h1 : fd1 ≠ fd := hs.connFd_ne hp hfd1 hid (Or.inr hun)
      exact ⟨fd1, hfd1, by rw [h.tiedTo, if_neg h1, htied1]⟩
  · intro k id hk
    rw [h.tiedTo] at hk
    split at hk
    · next hkfd =>
      obtain rfl := Option.some.inj hk
      exact ⟨_, hnode, by rw [hkfd]⟩
    · obtain ⟨p, hp, hpfd⟩ := hs.connTied k id hk
      have hid : id ≠ q.nodeid := OrdMap.ne_of_find? hp hnone
      exact ⟨p, by rw [h.proxys, if_neg hid, hp], hpfd⟩

/-! ## Counters -/

/-- `MatchIndex()` of the proxy for which a reply on connection `fd` is counted: the
connection is registered and read, and it is tied. -/
def ackedOn (s : RaftServer) (fd : ℕ) : Option UInt64 :=
  (s.conns.find? fd).bind fun cn =>
    if cn.reading then cn.proxy.bind fun id => (s.proxys.find? id).map RaftProxy.matchIndex
    else none

theorem ackedOn_eq_some {m : UInt64} :
    s.ackedOn fd = some m ↔ ∃ cn id p, s.conns.find? fd = some cn ∧ cn.reading = true ∧
      cn.proxy = some id ∧ s.proxys.find? id = some p ∧ p.matchIndex = m := by
  unfold ackedOn
  rw [Option.bind_eq_some_iff]
  constructor
  · intro h
    obtain ⟨cn, hcn, h⟩ := h
    split at h
    · next hread =>
      obtain ⟨id, hid, h⟩ := Option.bind_eq_some_iff.mp h
      obtain ⟨p, hp, hm⟩ := Option.map_eq_some_iff.mp h
      exact ⟨cn, id, p, hcn, hread, hid, hp, hm⟩
    · cases h
  · intro h
    obtain ⟨cn, id, p, hcn, hread, hid, hp, hm⟩ := h
    refine ⟨cn, hcn, ?_⟩
    rw [if_pos hread, hid]
    show (s.proxys.find? id).map _ = _
    rw [hp, ← hm]
    rfl

/-- No reply is counted on the new connection of a known node: it is not read. -/
theorem Retied.ackedOn (h : s.Retied fd old q s') (hs : s.ProxysWf)
    (hc : s.conns.find? fd = some cn) (hun : s.tiedTo fd = none)
    (hold : s.proxyConnFd q.nodeid = some old) {k : ℕ} {m : UInt64}
    (hk : s'.ackedOn k = some m) : k ≠ fd ∧ s.ackedOn k = some m := by
  obtain ⟨⟨p0, hp0, hfd0⟩, htied0, hne⟩ := hs.oldConn hun hold
  obtain ⟨cn', id, p, hcn, hread, hid, hp, hm⟩ := ackedOn_eq_some.mp hk
  rw [h.conns] at hcn
  split at hcn
  · -- on the new connection reading has been switched off
    rw [hc] at hcn
    obtain rfl := Option.some.inj hcn
    simp [hne] at hread
  · next hkfd =>
    split at hcn
    · cases hcn
    · next hkold =>
      have htied : s.tiedTo k = some id := tiedTo_eq_some.mpr ⟨cn', hcn, hid⟩
      have hnode : id ≠ q.nodeid := hs.id_ne htied htied0 hkold
      rw [h.proxys, if_neg hnode] at hp
      exact ⟨hkfd, ackedOn_eq_some.mpr ⟨cn', id, p, hcn, hread, hid, hp, hm⟩⟩

/-- Nothing has been acknowledged yet on the connection of a new node. -/
theorem Welcomed.ackedOn (h : s.Welcomed put fd cn q s') (hs : s.ProxysWf)
    (hnew : s.proxyConnFd q.nodeid = none) {k : ℕ} {m : UInt64}
    (hk : s'.ackedOn k = some m) : (k = fd ∧ m = 0) ∨ (k ≠ fd ∧ s.ackedOn k = some m) := by
  have hnone := hs.find?_of_proxyConnFd hnew
  obtain ⟨cn', id, p, hcn, hread, hid, hp, hm⟩ := ackedOn_eq_some.mp hk
  rw [h.conns] at hcn
  split at hcn
  · next hkfd =>
    obtain rfl := Option.some.inj hcn
    obtain rfl := Option.some.inj hid
    rw [h.proxys, if_pos rfl, hnone] at hp
    obtain rfl := Option.some.inj hp
    exact Or.inl ⟨hkfd, hm.symm⟩
  · next hkfd =>
    obtain ⟨p1, hp1, hfd1⟩ := hs.connTied k id (tiedTo_eq_some.mpr ⟨cn', hcn, hid⟩)
    have hnode : id ≠ q.nodeid := OrdMap.ne_of_find? hp1 hnone
    rw [h.proxys, if_neg hnode] at hp
    exact Or.inr ⟨hkfd, ackedOn_eq_some.mpr ⟨cn', id, p, hcn, hread, hid, hp, hm⟩⟩

/-- A handshake sets no counter but that of a new proxy. -/
theorem Retied.matchIndex (h : s.Retied fd old q s') {id : UInt32} {p' : RaftProxy}
    (hp : s'.proxys.find? id = some p') :
    ∃ p, s.proxys.find? id = some p ∧ p.matchIndex = p'.matchIndex := by
  rw [h.proxys] at hp
  split at hp
  · next hid =>
    obtain ⟨p, hfind, rfl⟩ := Option.map_eq_some_iff.mp hp
    exact ⟨p, by rw [hid, hfind], rfl⟩
  · exact ⟨p', hp, rfl⟩

theorem Welcomed.matchIndex (h : s.Welcomed put fd cn q s') (hs : s.ProxysWf)
    (hnew : s.proxyConnFd q.nodeid = none) {id : UInt32} {p' : RaftProxy}
    (hp : s'.proxys.find? id = some p') : p'.matchIndex = 0 ∨ s.proxys.find? id = some p' := by
  have hnone := hs.find?_of_proxyConnFd hnew
  rw [h.proxys] at hp
  split at hp
  · rw [hnone] at hp
    obtain rfl := Option.some.inj hp
    exact Or.inl rfl
  · exact Or.inr hp

/-! ### After a reply -/

/-- A reply is counted exactly for a message with entries that was accepted. -/
theorem counts_iff {puts : Puts} {q : AppendEntriesQ} {r : AppendEntriesR}
    (h : s.appendEntriesQ puts q = .ok (s', r)) :
    r.counts = true ↔ s.Accepts q ∧ q.entries ≠ [] := by
  have hheart := (appendEntriesQ_reply h).2.2
  rw [← appendEntriesQ_success h, AppendEntriesR.counts]
  cases hs : r.success with
  | false => simp
  | true =>
    have hnil : r.isheartbeat = true ↔ q.entries = [] := by
      rw [hheart, hs, eq_self, true_and]
    rw [Bool.true_and, Bool.not_eq_true', ← Bool.not_eq_true, hnil, eq_self, true_and]

/-- A reply that counts moves the counters of the proxy its connection is tied to. -/
theorem countReply_proxys (s : RaftServer) (fd : ℕ) (r : AppendEntriesR) (id : UInt32) :
    (s.countReply fd r).proxys.find? id =
      if r.counts = true ∧ s.tiedTo fd = some id
      then (s.proxys.find? id).map fun p => { p with
        matchIndex := p.matchIndex + 1, nextIndex := p.nextIndex + 1 }
      else s.proxys.find? id := by
  have hcounts : (r.success = true ∧ ¬ r.isheartbeat = true) ↔ r.counts = true := by
    simp [AppendEntriesR.counts]
  unfold countReply
  by_cases hr : r.counts = true
  · rw [if_pos (hcounts.mpr hr)]
    unfold incrProxy
    split
    · next hnone =>
      have hun : s.tiedTo fd = none := hnone
      simp [hun]
    · next id' hid =>
      have htied : s.tiedTo fd = some id' := hid
      show (s.proxys.modify id' _).find? id = _
      rw [OrdMap.find?_modify, htied]
      by_cases heq : id = id'
      · rw [heq]
        simp [hr]
      · have hne : ¬ some id' = some id := fun h => heq (Option.some.inj h).symm
        rw [if_neg heq, if_neg fun h => hne h.2]
  · rw [if_neg fun h => hr (hcounts.mp h), if_neg fun h => hr h.1]

/-- A reply moves the counters of a proxy and leaves its connection. -/
theorem countReply_proxyConnFd (s : RaftServer) (fd : ℕ) (r : AppendEntriesR) (id : UInt32) :
    (s.countReply fd r).proxyConnFd id = s.proxyConnFd id := by
  rw [proxyConnFd, countReply_proxys, proxyConnFd]
  split_ifs
  · rw [Option.bind_map]
    rfl
  · rfl

theorem countReply_conns (s : RaftServer) (fd : ℕ) (r : AppendEntriesR) :
    (s.countReply fd r).conns = s.conns := by
  rw [countReply_frame]

theorem countReply_tiedTo (s : RaftServer) (fd : ℕ) (r : AppendEntriesR) (k : ℕ) :
    (s.countReply fd r).tiedTo k = s.tiedTo k := by
  unfold tiedTo
  rw [countReply_conns]

theorem ProxysWf.countReply (hs : s.ProxysWf) (fd : ℕ) (r : AppendEntriesR) :
    (s.countReply fd r).ProxysWf := by
  -- the reply touches the two counters of one proxy, both in the same way
  have hfind : ∀ id p', (s.countReply fd r).proxys.find? id = some p' →
      ∃ p, s.proxys.find? id = some p ∧ p'.connFd = p.connFd ∧
        p'.nextIndex = p'.matchIndex + 1 := by
    intro id p' hp'
    rw [countReply_proxys] at hp'
    split at hp'
    · obtain ⟨p, hp, rfl⟩ := Option.map_eq_some_iff.mp hp'
      refine ⟨p, hp, rfl, ?_⟩
      show p.nextIndex + 1 = p.matchIndex + 1 + 1
      rw [hs.counters id p hp]
    · exact ⟨p', hp', rfl, hs.counters id p' hp'⟩
  constructor
  · intro id p' hp'
    obtain ⟨_, _, _, hnext⟩ := hfind id p' hp'
    exact hnext
  · intro id p' hp'
    obtain ⟨p, hp, hfd, _⟩ := hfind id p' hp'
    obtain ⟨k, hk, htied⟩ := hs.proxyTied id p hp
    exact ⟨k, by rw [hfd, hk], by rw [countReply_tiedTo, htied]⟩
  · intro k id hk
    rw [countReply_tiedTo] at hk
    obtain ⟨p, hp, hfd⟩ := hs.connTied k id hk
    rw [countReply_proxys]
    split
    · rw [hp]
      exact ⟨_, rfl, hfd⟩
    · exact ⟨p, hp, hfd⟩

theorem ackedOn_countReply (hs : s.ProxysWf) {r : AppendEntriesR} {k : ℕ} {m' : UInt64}
    (hk : (s.countReply fd r).ackedOn k = some m') :
    ∃ m, s.ackedOn k = some m ∧ m' = if k = fd ∧ r.counts = true then m + 1 else m := by
  obtain ⟨cn, id, p', hcn, hread, hid, hp', hm'⟩ := ackedOn_eq_some.mp hk
  rw [countReply_conns] at hcn
  have htied : s.tiedTo k = some id := tiedTo_eq_some.mpr ⟨cn, hcn, hid⟩
  -- the reply is counted for the node of connection `fd`, which has no other connection
  rw [countReply_proxys] at hp'
  split at hp'
  · next hcond =>
    obtain ⟨p, hp, rfl⟩ := Option.map_eq_some_iff.mp hp'
    have hkfd : k = fd := hs.tiedTo_inj htied hcond.2
    refine ⟨p.matchIndex, ackedOn_eq_some.mpr ⟨cn, id, p, hcn, hread, hid, hp, rfl⟩, ?_⟩
    rw [if_pos ⟨hkfd, hcond.1⟩, ← hm']
  · next hcond =>
    refine ⟨p'.matchIndex, ackedOn_eq_some.mpr ⟨cn, id, p', hcn, hread, hid, hp', rfl⟩, ?_⟩
    rw [if_neg, hm']
    intro h
    rw [h.1] at htied
    exact hcond ⟨h.2, htied⟩

/-- A counter that moved belongs to the connection the reply came on. -/
theorem countReply_matchIndex {r : AppendEntriesR} {id : UInt32} {p' : RaftProxy}
    (hc : s.conns.find? fd = some cn) (hread : cn.reading = true)
    (hp' : (s.countReply fd r).proxys.find? id = some p') :
    s.proxys.find? id = some p' ∨ (s.countReply fd r).ackedOn fd = some p'.matchIndex := by
  have hp'' := hp'
  rw [countReply_proxys] at hp'
  split at hp'
  · next hcond =>
    obtain ⟨cn', hcn', hid⟩ := tiedTo_eq_some.mp hcond.2
    rw [hc] at hcn'
    obtain rfl := Option.some.inj hcn'
    refine Or.inr (ackedOn_eq_some.mpr ⟨cn, id, p', ?_, hread, hid, hp'', rfl⟩)
    rw [countReply_conns, hc]
  · exact Or.inl hp'

/-! ## The log of the start node -/

/-- The entries of the start node are `CFGADD`s of term 0, it leads in term 0 only, and its
commit index is inside the log. -/
structure LogWf (s : RaftServer) : Prop where
  own : ∀ e ∈ s.entries, e.restamp 0 = e
  term : s.role = .Leader → s.currentTerm = 0
  short : s.entries.length < 2 ^ 32
  commit : s.commitIndex.toNat ≤ s.entries.length - 1

theorem LogWf.term_eq_zero (hs : s.LogWf) {k : ℕ} {e : Entry} (he : s.entries[k]? = some e) :
    e.term = 0 :=
  (Entry.restamp_eq_self.mp (hs.own e (List.mem_of_getElem? he))).2.1

theorem Retied.logWf (h : s.Retied fd old q s') (hs : s.LogWf) : s'.LogWf := by
  rw [h.frame]
  exact ⟨hs.own, hs.term, hs.short, hs.commit⟩

theorem Welcomed.logWf (h : s.Welcomed put fd cn q s') (hs : s.LogWf) (hlead : s.role = .Leader)
    (hroom : s.entries.length + 1 < 2 ^ 32) : s'.LogWf := by
  have hlen : s.entries.length ≤ s'.entries.length ∧
      s'.entries.length ≤ s.entries.length + 1 := by
    rw [h.entries, List.length_append]
    split
    · simp
    · simp
  have hrole : s'.role = s.role := by rw [h.frame]
  have hterm : s'.currentTerm = s.currentTerm := by rw [h.frame]
  have hcommit : s'.commitIndex = s.commitIndex := by rw [h.frame]
  constructor
  · intro e he
    rw [h.entries, List.mem_append] at he
    rcases he with he | he
    · exact hs.own e he
    · -- the entry a leader builds is a `CFGADD` of its term, which is 0
      split at he
      · obtain rfl := List.mem_singleton.mp he
        rw [Entry.restamp_eq_self]
        exact ⟨rfl, hs.term hlead, rfl⟩
      · cases he
  · intro hr
    rw [hrole] at hr
    rw [hterm]
    exact hs.term hr
  · omega
  · have hle := hs.commit
    rw [hcommit]
    omega

theorem LogWf.countReply (hs : s.LogWf) (fd : ℕ) (r : AppendEntriesR) :
    (s.countReply fd r).LogWf := by
  rw [countReply_frame]
  exact ⟨hs.own, hs.term, hs.short, hs.commit⟩

theorem LogWf.changeCommitIndex {b : Bool} (hs : s.LogWf)
    (h : s.changeCommitIndex = .ok (s', b)) : s'.LogWf := by
  rcases changeCommitIndex_cases h with ⟨rfl, _⟩ | ⟨_, ⟨e, he, _⟩, rfl, _⟩
  · exact hs
  · -- the commit index moves to an index at which there is an entry
    have hlt := (List.getElem?_eq_some_iff.mp he).1
    refine ⟨hs.own, hs.term, hs.short, ?_⟩
    show (s.commitIndex + 1).toNat ≤ s.entries.length - 1
    omega

/-! ## Messages of the start node -/

/-- A message built from the log of `s`: not of a later term, and with entries up to the
second index after the one it names. The last index of all is named when a counter has
wrapped; there is never an entry at it. -/
structure SentBy (s : RaftServer) (q : AppendEntriesQ) : Prop where
  term : q.term ≤ s.currentTerm
  entries : q.entries = [] ∨ q.prelogindex = 0xFFFFFFFF ∨
    (q.prelogindex.toNat + 2 ≤ s.entries.length ∧
      q.entries = (s.entries.take (q.prelogindex.toNat + 2)).drop q.firstIndex)

theorem SentBy.mono {q : AppendEntriesQ} (h : SentBy s q) (hext : s.entries <+: s'.entries)
    (hterm : s.currentTerm ≤ s'.currentTerm) : SentBy s' q := by
  refine ⟨le_trans h.term hterm, ?_⟩
  rcases h.entries with hnil | hwrap | ⟨hlen, hes⟩
  · exact Or.inl hnil
  · exact Or.inr (Or.inl hwrap)
  · obtain ⟨t, ht⟩ := hext
    refine Or.inr (Or.inr ⟨?_, ?_⟩)
    · rw [← ht, List.length_append]
      omega
    · rw [hes, ← ht, List.take_append_of_le_length hlen]

theorem drop_take_succ {α : Type*} {xs : List α} {n : ℕ} {a : α} (h : xs[n]? = some a) :
    (xs.take (n + 1)).drop n = [a] := by
  have hlen : n < xs.length := (List.getElem?_eq_some_iff.mp h).1
  have htake : (xs.take n).length = n := by
    rw [List.length_take]
    omega
  rw [List.take_add_one, h, List.drop_append_of_le_length (by omega), List.drop_eq_nil_of_le (by omega)]
  rfl

theorem take_two {α : Type*} {xs : List α} {a b : α} (h0 : xs[0]? = some a)
    (h1 : xs[1]? = some b) : xs.take 2 = [a, b] := by
  match xs, h0, h1 with
  | x :: y :: xs, h0, h1 =>
    obtain rfl := Option.some.inj h0
    obtain rfl := Option.some.inj h1
    rfl

/-- What the start node builds for a proxy is built from its log, and names the proxy's
`MatchIndex()`. -/
theorem buildAppendEntries_sentBy {p : RaftProxy} {q : AppendEntriesQ} (hs : s.LogWf)
    (hcount : p.nextIndex = p.matchIndex + 1) (h : s.buildAppendEntries p = .ok q) :
    SentBy s q ∧ q.prelogindex = p.matchIndex.toUInt32 := by
  obtain ⟨hterm, hpre, _, hes⟩ := buildAppendEntries_cases h
  have hmatch : p.nextIndex - 1 = p.matchIndex := by
    rw [hcount]
    exact UInt64.add_sub_cancel _ _
  rw [hmatch] at hpre
  refine ⟨⟨hterm.le, ?_⟩, hpre⟩
  rcases hes with hnil | ⟨hle, e, he, hes⟩
  · exact Or.inl hnil
  · right
    have hshort := hs.short
    rw [lastEntryIndex_eq] at hle
    have hnext32 : p.nextIndex.toUInt32.toNat = p.nextIndex.toNat := UInt.toNat_toUInt32 (by omega)
    rw [hnext32] at he
    have hlt := (List.getElem?_eq_some_iff.mp he).1
    by_cases hzero : p.nextIndex = 0
    · -- `MatchIndex()` is the last 64-bit number, so the message names the last index of all
      left
      rw [hpre, ← hmatch, hzero]
      rfl
    · right
      have hpos : p.nextIndex.toNat ≠ 0 := fun h0 => hzero (UInt64.toNat_inj.mp h0)
      have hone : (1 : UInt64).toNat = 1 := rfl
      have hsub : p.matchIndex.toNat = p.nextIndex.toNat - 1 := by
        rw [← hmatch, UInt64.toNat_sub_of_le]
        · rfl
        · rw [UInt64.le_iff_toNat_le]
          omega
      have hpre' : q.prelogindex.toNat = p.nextIndex.toNat - 1 := by
        rw [hpre, UInt.toNat_toUInt32 (by omega), hsub]
      refine ⟨by omega, ?_⟩
      rcases hes with ⟨hz, e0, he0, hes⟩ | ⟨hnz, hes⟩
      · -- the first message: entries 0 and 1
        have hn1 : p.nextIndex.toNat = 1 := by
          rw [hmatch] at hz
          have hm0 : p.matchIndex.toNat = 0 := by rw [hz]; rfl
          omega
        have hq0 : q.prelogindex.toNat = 0 := by omega
        rw [hn1] at he
        rw [hes, hq0, q.firstIndex_of_zero hq0, take_two he0 he]
        rfl
      · -- a later message: the one entry at `NextIndex()`
        have hn2 : p.matchIndex.toNat ≠ 0 := by
          intro h0
          rw [hmatch] at hnz
          exact hnz (UInt64.toNat_inj.mp h0)
        have hfirst : q.firstIndex = p.nextIndex.toNat := by
          rw [q.firstIndex_of_pos (by omega)]
          omega
        have hend : q.prelogindex.toNat + 2 = p.nextIndex.toNat + 1 := by omega
        rw [hes, hend, hfirst, drop_take_succ he]

/-- Message `m`, put on connection `k`, was built for the proxy `k` is tied to. -/
def BuiltFor (s : RaftServer) (k : ℕ) (m : Message) : Prop :=
  ∃ id p q, s.tiedTo k = some id ∧ s.proxys.find? id = some p ∧
    s.buildAppendEntries p = .ok q ∧ m = .appendentries_q q

theorem builtFor_of_broadCast {ms : Sends} (h : s.broadCastAppendEntries = .ok ms) {k : ℕ}
    {m : Message} (hm : (k, m) ∈ ms) : s.BuiltFor k m := by
  obtain ⟨cn, id, p, q, hcn, hid, hp, hq, rfl⟩ := broadCastAppendEntries_mem h hm
  exact ⟨id, p, q, tiedTo_eq_some.mpr ⟨cn, hcn, hid⟩, hp, hq, rfl⟩

/-! ## One message -/

/-- What the start node does with a message that a joined node can send. -/
inductive LeaderStep (s : RaftServer) (fd : ℕ) : Message → RaftServer → Sends → Prop where
  | refused (q : HandshakeQ) :
    LeaderStep s fd (.handshake_q q) s [(fd, .handshake_r ⟨false⟩)]
  | retied (q : HandshakeQ) (old : ℕ) (s' : RaftServer) :
    s.proxyConnFd q.nodeid = some old → s.Retied fd old q s' →
    LeaderStep s fd (.handshake_q q) s' [(fd, .handshake_r ⟨true⟩)]
  | welcomed (q : HandshakeQ) (put : PutResult) (cn : Conn) (s' : RaftServer) (ms : Sends) :
    s.role = .Leader → s.proxyConnFd q.nodeid = none → s.Welcomed put fd cn q s' →
    s'.broadCastAppendEntries = .ok ms →
    LeaderStep s fd (.handshake_q q) s' (ms ++ [(fd, .handshake_r ⟨true⟩)])
  | stepDown (r : AppendEntriesR) : s.currentTerm < r.term →
    LeaderStep s fd (.appendentries_r r)
      { s with currentTerm := r.term, stateDB := some r.term, role := .Follower } []
  | counted (r : AppendEntriesR) (s' : RaftServer) (b : Bool) :
    (s.countReply fd r).changeCommitIndex = .ok (s', b) →
    LeaderStep s fd (.appendentries_r r) s' []

theorem leaderStep_of_handshakeQ {puts : Puts} {ms : Sends} (hc : s.conns.find? fd = some cn)
    (h : s.handshakeQ puts fd q = .ok (s', ms)) : LeaderStep s fd (.handshake_q q) s' ms := by
  rcases handshakeQ_cases h with ⟨hnone, _⟩ | ⟨_, rfl, rfl⟩ | ⟨_, ⟨old, hold, hret⟩, rfl⟩ |
    ⟨hlead, hnew, ⟨c, _, hwel⟩, bs, hbs, rfl⟩
  · rw [hc] at hnone
    cases hnone
  · exact .refused q
  · exact .retied q old s' hold hret
  · exact .welcomed q _ c s' bs hlead hnew hwel hbs

theorem leaderStep_of_appendEntriesR {puts : Puts} {r : AppendEntriesR}
    (h : s.appendEntriesR puts fd r = .ok s') : LeaderStep s fd (.appendentries_r r) s' [] := by
  rcases appendEntriesR_cases h with ⟨hlt, rfl⟩ | ⟨_, b, hb⟩
  · exact .stepDown r hlt
  · exact .counted r s' b hb

/-! ### What one message keeps -/

namespace LeaderStep

variable {m : Message} {ms : Sends}

/-- The log only grows and the term only rises. -/
theorem grows (h : LeaderStep s fd m s' ms) :
    s.entries <+: s'.entries ∧ s.currentTerm ≤ s'.currentTerm := by
  cases h with
  | refused q => exact ⟨List.prefix_refl _, le_refl _⟩
  | retied q old _ hold hret =>
    rw [hret.frame]
    exact ⟨List.prefix_refl _, le_refl _⟩
  | welcomed q put cn _ bs hlead hnew hwel hbs =>
    refine ⟨?_, by rw [hwel.frame]⟩
    rw [hwel.entries]
    exact List.prefix_append _ _
  | stepDown r hlt => exact ⟨List.prefix_refl _, hlt.le⟩
  | counted r _ b hb =>
    obtain ⟨n, rfl⟩ := changeCommitIndex_frame hb
    rw [countReply_frame]
    exact ⟨List.prefix_refl _, le_refl _⟩

theorem logWf (h : LeaderStep s fd m s' ms) (hs : s.LogWf)
    (hroom : ∀ q, m = .handshake_q q → s.proxyConnFd q.nodeid = none →
      s.entries.length + 1 < 2 ^ 32) : s'.LogWf := by
  cases h with
  | refused q => exact hs
  | retied q old _ hold hret => exact hret.logWf hs
  | welcomed q put cn _ bs hlead hnew hwel hbs => exact hwel.logWf hs hlead (hroom q rfl hnew)
  | stepDown r hlt =>
    refine ⟨hs.own, fun hrole => ?_, hs.short, hs.commit⟩
    cases hrole
  | counted r _ b hb => exact (hs.countReply fd r).changeCommitIndex hb

/-- After a handshake the connection it came on must have been untied before. -/
theorem proxysWf (h : LeaderStep s fd m s' ms) (hs : s.ProxysWf)
    (hc : s.conns.find? fd = some cn)
    (hun : ∀ q, m = .handshake_q q → s.tiedTo fd = none) : s'.ProxysWf := by
  cases h with
  | refused q => exact hs
  | retied q old _ hold hret => exact hret.proxysWf hs hc (hun q rfl) hold
  | welcomed q put cn _ bs hlead hnew hwel hbs => exact hwel.proxysWf hs (hun q rfl) hnew
  | stepDown r hlt => exact ⟨hs.counters, hs.proxyTied, hs.connTied⟩
  | counted r _ b hb =>
    have hcount := hs.countReply fd r
    obtain ⟨n, rfl⟩ := changeCommitIndex_frame hb
    exact ⟨hcount.counters, hcount.proxyTied, hcount.connTied⟩

/-- Another connection that was untied is untied afterwards. -/
theorem untied (h : LeaderStep s fd m s' ms) (hc : s.conns.find? fd = some cn) {k : ℕ}
    (hk : k ≠ fd) (hun : s.tiedTo k = none) : s'.tiedTo k = none := by
  cases h with
  | refused q => exact hun
  | retied q old _ hold hret =>
    rw [hret.tiedTo hc, if_neg hk, hun]
    split <;> rfl
  | welcomed q put cn _ bs hlead hnew hwel hbs => rw [hwel.tiedTo, if_neg hk, hun]
  | stepDown r hlt => exact hun
  | counted r _ b hb =>
    obtain ⟨n, rfl⟩ := changeCommitIndex_frame hb
    show (s.countReply fd r).tiedTo k = none
    rw [countReply_tiedTo, hun]

/-- No connection comes into being. -/
theorem registered (h : LeaderStep s fd m s' ms) (hc : s.conns.find? fd = some cn) {k : ℕ}
    {cn' : Conn} (hk : s'.conns.find? k = some cn') : ∃ cn, s.conns.find? k = some cn := by
  cases h with
  | refused q => exact ⟨cn', hk⟩
  | retied q old _ hold hret =>
    rw [hret.conns] at hk
    split at hk
    · next hkfd => exact ⟨cn, by rw [hkfd, hc]⟩
    · split at hk
      · cases hk
      · exact ⟨cn', hk⟩
  | welcomed q put c _ bs hlead hnew hwel hbs =>
    rw [hwel.conns] at hk
    split at hk
    · next hkfd => exact ⟨cn, by rw [hkfd, hc]⟩
    · exact ⟨cn', hk⟩
  | stepDown r hlt => exact ⟨cn', hk⟩
  | counted r _ b hb =>
    obtain ⟨n, rfl⟩ := changeCommitIndex_frame hb
    have hk' : (s.countReply fd r).conns.find? k = some cn' := hk
    rw [countReply_conns] at hk'
    exact ⟨cn', hk'⟩

/-- What is sent: the answer to a handshake, and messages built for tied connections. -/
theorem sends (h : LeaderStep s fd m s' ms) {k : ℕ} {m' : Message} (hm : (k, m') ∈ ms) :
    (k = fd ∧ ∃ r, m' = .handshake_r r) ∨ s'.BuiltFor k m' := by
  have hanswer : ∀ r, (k, m') ∈ [(fd, Message.handshake_r r)] →
      k = fd ∧ ∃ r, m' = .handshake_r r := by
    intro r hm
    rw [List.mem_singleton, Prod.mk.injEq] at hm
    exact ⟨hm.1, r, hm.2⟩
  cases h with
  | refused q => exact Or.inl (hanswer _ hm)
  | retied q old _ hold hret => exact Or.inl (hanswer _ hm)
  | welcomed q put cn _ bs hlead hnew hwel hbs =>
    rcases List.mem_append.mp hm with hm | hm
    · exact Or.inr (builtFor_of_broadCast hbs hm)
    · exact Or.inl (hanswer _ hm)
  | stepDown r hlt => cases hm
  | counted r _ b hb => cases hm

/-- The counters of the other connections do not move. -/
theorem ackedOn_of_ne (h : LeaderStep s fd m s' ms) (hs : s.ProxysWf)
    (hc : s.conns.find? fd = some cn)
    (hun : ∀ q, m = .handshake_q q → s.tiedTo fd = none) {k : ℕ} {a : UInt64} (hk : k ≠ fd)
    (ha : s'.ackedOn k = some a) : s.ackedOn k = some a := by
  cases h with
  | refused q => exact ha
  | retied q old _ hold hret => exact (hret.ackedOn hs hc (hun q rfl) hold ha).2
  | welcomed q put cn _ bs hlead hnew hwel hbs =>
    rcases hwel.ackedOn hs hnew ha with ⟨heq, _⟩ | ⟨_, ha⟩
    · exact absurd heq hk
    · exact ha
  | stepDown r hlt => exact ha
  | counted r _ b hb =>
    obtain ⟨n, rfl⟩ := changeCommitIndex_frame hb
    have ha' : (s.countReply fd r).ackedOn k = some a := ha
    obtain ⟨a0, ha0, ha1⟩ := ackedOn_countReply hs ha'
    rw [if_neg fun h => hk h.1] at ha1
    rw [ha0, ha1]

/-- On the connection of a handshake nothing has been acknowledged. -/
theorem ackedOn_handshake {q : HandshakeQ} (h : LeaderStep s fd (.handshake_q q) s' ms)
    (hs : s.ProxysWf) (hc : s.conns.find? fd = some cn) (hun : s.tiedTo fd = none) {a : UInt64}
    (ha : s'.ackedOn fd = some a) : a = 0 := by
  cases h with
  | refused q =>
    obtain ⟨cn, id, p, hcn, _, hid, _⟩ := ackedOn_eq_some.mp ha
    have htied : s.tiedTo fd = some id := tiedTo_eq_some.mpr ⟨cn, hcn, hid⟩
    rw [hun] at htied
    cases htied
  | retied q old _ hold hret => exact absurd rfl (hret.ackedOn hs hc hun hold ha).1
  | welcomed q put cn _ bs hlead hnew hwel hbs =>
    rcases hwel.ackedOn hs hnew ha with ⟨_, hzero⟩ | ⟨hne, _⟩
    · exact hzero
    · exact absurd rfl hne

/-- On the connection of a reply at most the reply is counted. -/
theorem ackedOn_reply {r : AppendEntriesR} (h : LeaderStep s fd (.appendentries_r r) s' ms)
    (hs : s.ProxysWf) {a' : UInt64} (ha : s'.ackedOn fd = some a') :
    ∃ a, s.ackedOn fd = some a ∧ (a' = a ∨ (r.counts = true ∧ a' = a + 1)) := by
  cases h with
  | stepDown r hlt => exact ⟨a', ha, Or.inl rfl⟩
  | counted r _ b hb =>
    obtain ⟨n, rfl⟩ := changeCommitIndex_frame hb
    have ha' : (s.countReply fd r).ackedOn fd = some a' := ha
    obtain ⟨a, ha0, ha1⟩ := ackedOn_countReply hs ha'
    refine ⟨a, ha0, ?_⟩
    by_cases hr : r.counts = true
    · rw [if_pos ⟨rfl, hr⟩] at ha1
      exact Or.inr ⟨hr, ha1⟩
    · rw [if_neg fun h => hr h.2] at ha1
      exact Or.inl ha1

/-- Every counter has its old value, or is that of a new node, or counts the reply. -/
theorem matchIndex (h : LeaderStep s fd m s' ms) (hs : s.ProxysWf)
    (hc : s.conns.find? fd = some cn) (hread : cn.reading = true) {id : UInt32}
    {p' : RaftProxy} (hp : s'.proxys.find? id = some p') :
    p'.matchIndex = 0 ∨ (∃ p, s.proxys.find? id = some p ∧ p.matchIndex = p'.matchIndex) ∨
      s'.ackedOn fd = some p'.matchIndex := by
  cases h with
  | refused q => exact Or.inr (Or.inl ⟨p', hp, rfl⟩)
  | retied q old _ hold hret => exact Or.inr (Or.inl (hret.matchIndex hp))
  | welcomed q put cn _ bs hlead hnew hwel hbs =>
    rcases hwel.matchIndex hs hnew hp with hzero | hp
    · exact Or.inl hzero
    · exact Or.inr (Or.inl ⟨p', hp, rfl⟩)
  | stepDown r hlt => exact Or.inr (Or.inl ⟨p', hp, rfl⟩)
  | counted r _ b hb =>
    obtain ⟨n, rfl⟩ := changeCommitIndex_frame hb
    have hp' : (s.countReply fd r).proxys.find? id = some p' := hp
    rcases countReply_matchIndex hc hread hp' with hold | hacked
    · exact Or.inr (Or.inl ⟨p', hold, rfl⟩)
    · exact Or.inr (Or.inr hacked)

end LeaderStep

/-! ### Counters of live connections -/

/-- Whoever has acknowledged something is on a connection that is read. -/
def Live (s : RaftServer) : Prop :=
  ∀ id p, s.proxys.find? id = some p → p.matchIndex ≠ 0 →
    ∃ k cn, p.connFd = some k ∧ s.conns.find? k = some cn ∧ cn.reading = true

theorem Live.ackedOn (hlive : s.Live) (hs : s.ProxysWf) {id : UInt32} {p : RaftProxy}
    (hp : s.proxys.find? id = some p) (hne : p.matchIndex ≠ 0) :
    ∃ k, p.connFd = some k ∧ s.ackedOn k = some p.matchIndex := by
  obtain ⟨k, cn, hk, hcn, hread⟩ := hlive id p hp hne
  obtain ⟨k', hk', htied⟩ := hs.proxyTied id p hp
  rw [hk] at hk'
  obtain rfl := Option.some.inj hk'
  obtain ⟨cn', hcn', hid⟩ := tiedTo_eq_some.mp htied
  rw [hcn] at hcn'
  obtain rfl := Option.some.inj hcn'
  exact ⟨k, hk, ackedOn_eq_some.mpr ⟨cn, id, p, hcn, hread, hid, hp, rfl⟩⟩

theorem Live.countReply (hlive : s.Live) (hs : s.ProxysWf) (hc : s.conns.find? fd = some cn)
    (hread : cn.reading = true) (r : AppendEntriesR) : (s.countReply fd r).Live := by
  intro id p' hp' hne
  rw [countReply_conns]
  rw [countReply_proxys] at hp'
  split at hp'
  · next hcond =>
    obtain ⟨p, hp, rfl⟩ := Option.map_eq_some_iff.mp hp'
    obtain ⟨p1, hp1, hfd⟩ := hs.connTied fd id hcond.2
    rw [hp] at hp1
    obtain rfl := Option.some.inj hp1
    exact ⟨fd, cn, hfd, hc, hread⟩
  · exact hlive id p' hp' hne

/-- A handshake is harmless if nothing has been acknowledged for its node yet: then no counter
moves to the new connection, which may not be read. -/
theorem LeaderStep.live {m : Message} {ms : Sends} (h : LeaderStep s fd m s' ms)
    (hs : s.ProxysWf) (hc : s.conns.find? fd = some cn) (hread : cn.reading = true)
    (hun : ∀ q, m = .handshake_q q → s.tiedTo fd = none)
    (hold : ∀ q, m = .handshake_q q → ∀ p ∈ s.proxys.find? q.nodeid, p.matchIndex = 0)
    (hlive : s.Live) : s'.Live := by
  cases h with
  | refused q => exact hlive
  | retied q old _ hfd hret =>
    obtain ⟨⟨p0, hp0, hfd0⟩, htied0, hne0⟩ := hs.oldConn (hun q rfl) hfd
    intro id p' hp' hne
    rw [hret.proxys] at hp'
    split at hp'
    · -- the proxy of the node itself has nothing acknowledged
      rw [hp0] at hp'
      obtain rfl := Option.some.inj hp'
      exact absurd (hold q rfl p0 hp0) hne
    · next hid =>
      obtain ⟨k, cn', hk, hcn', hread'⟩ := hlive id p' hp' hne
      have h1 := hs.connFd_ne hp' hk hid (Or.inr (hun q rfl))
      have h2 := hs.connFd_ne hp' hk hid (Or.inl htied0)
      exact ⟨k, cn', hk, by rw [hret.conns, if_neg h1, if_neg h2, hcn'], hread'⟩
  | welcomed q put c _ bs hlead hnew hwel hbs =>
    intro id p' hp' hne
    rcases hwel.matchIndex hs hnew hp' with hzero | hp
    · exact absurd hzero hne
    · obtain ⟨k, cn', hk, hcn', hread'⟩ := hlive id p' hp hne
      have hid : id ≠ q.nodeid := OrdMap.ne_of_find? hp (hs.find?_of_proxyConnFd hnew)
      have h1 := hs.connFd_ne hp hk hid (Or.inr (hun q rfl))
      exact ⟨k, cn', hk, by rw [hwel.conns, if_neg h1, hcn'], hread'⟩
  | stepDown r hlt => exact hlive
  | counted r _ b hb =>
    have hcount : (s.countReply fd r).Live := hlive.countReply hs hc hread r
    obtain ⟨n, rfl⟩ := changeCommitIndex_frame hb
    exact hcount

end RaftServer
end NanoRaft
