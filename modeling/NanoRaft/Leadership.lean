import NanoRaft.ClusterCopies

/-!
# Who leads

Only `main` makes a node a leader, and every reply of a higher term makes it a follower for good.
A node whose heartbeat timer expires counts its term up and waits to be told of a leader.

* `Cluster.leads_once`: the start node leads until it is told of a term above 0, which takes a
  heartbeat timer that has expired; from then on nobody leads, and the membership is frozen.
-/

namespace NanoRaft

/-- What the start node sends, in terms up to `k`. -/
def Message.ToPeer (k : ℕ) : Message → Prop
  | .handshake_r _ => True
  | .appendentries_q q => q.term.toNat ≤ k
  | _ => False

/-- What the joined nodes send, in terms up to `k`. -/
def Message.ToLeader (k : ℕ) : Message → Prop
  | .handshake_q _ => True
  | .appendentries_r r => r.term.toNat ≤ k
  | _ => False

theorem Message.ToPeer.mono {k k' : ℕ} {m : Message} (h : m.ToPeer k) (hk : k ≤ k') :
    m.ToPeer k' := by
  cases m with
  | appendentries_q q => exact le_trans h hk
  | handshake_r r => trivial
  | handshake_q q => exact h
  | appendentries_r r => exact h

theorem Message.ToLeader.mono {k k' : ℕ} {m : Message} (h : m.ToLeader k) (hk : k ≤ k') :
    m.ToLeader k' := by
  cases m with
  | appendentries_r r => exact le_trans h hk
  | handshake_q q => trivial
  | handshake_r r => exact h
  | appendentries_q q => exact h

namespace RaftServer

variable {s s' t : RaftServer} {k fd : ℕ} {m : Message} {ms : Sends} {puts : Puts}

/-! ## The start node -/

/-- It leads in term 0 and in no other, and all it has logged is of term 0. -/
structure StartNode (k : ℕ) (s : RaftServer) : Prop where
  leads : s.role = .Leader ↔ s.currentTerm = 0
  own : ∀ e ∈ s.entries, e.term = 0
  upto : s.currentTerm.toNat ≤ k

theorem StartNode.mono {k' : ℕ} (h : s.StartNode k) (hk : k ≤ k') : s.StartNode k' :=
  ⟨h.leads, h.own, le_trans h.upto hk⟩

/-- What a node that has stepped down does not give up, and does not add to. -/
structure Retains (s s' : RaftServer) : Prop where
  role : s'.role ≠ .Leader
  entries : s'.entries = s.entries
  commitIndex : s'.commitIndex = s.commitIndex
  members : ∀ id, (s'.proxys.find? id).isSome = (s.proxys.find? id).isSome

theorem Retains.refl (h : s.role ≠ .Leader) : s.Retains s := ⟨h, rfl, rfl, fun _ => rfl⟩

theorem Retains.trans (h : s.Retains s') (h' : s'.Retains t) : s.Retains t :=
  ⟨h'.role, h'.entries.trans h.entries, h'.commitIndex.trans h.commitIndex,
    fun id => (h'.members id).trans (h.members id)⟩

theorem broadCast_toPeer (h : s.broadCastAppendEntries = .ok ms)
    (hterm : s.currentTerm.toNat ≤ k) {j : ℕ} (hm : (j, m) ∈ ms) : m.ToPeer k := by
  obtain ⟨_, _, p, q, _, _, _, hq, rfl⟩ := broadCastAppendEntries_mem h hm
  show q.term.toNat ≤ k
  rw [(buildAppendEntries_cases hq).1]
  exact hterm

/-- One message of a joined node. -/
theorem StartNode.proc (hs : s.StartNode k) (hm : m.ToLeader k)
    (h : s.proc puts fd m = .ok (s', ms)) :
    s'.StartNode k ∧ ∀ j m', (j, m') ∈ ms → m'.ToPeer k := by
  cases m with
  | handshake_q q =>
    rcases handshakeQ_cases h with ⟨_, rfl, rfl⟩ | ⟨_, rfl, rfl⟩ | ⟨_, ⟨_, _, hret⟩, rfl⟩ |
      ⟨hlead, _, ⟨c, _, hwel⟩, bs, hbs, rfl⟩
    · exact ⟨hs, fun _ _ hm' => absurd hm' List.not_mem_nil⟩
    · refine ⟨hs, fun j m' hm' => ?_⟩
      rw [(Prod.mk.inj (List.mem_singleton.mp hm')).2]
      trivial
    · refine ⟨?_, fun j m' hm' => ?_⟩
      · rw [hret.frame]
        exact ⟨hs.leads, hs.own, hs.upto⟩
      · rw [(Prod.mk.inj (List.mem_singleton.mp hm')).2]
        trivial
    · have hrole : s'.role = s.role := by rw [hwel.frame]
      have hterm : s'.currentTerm = s.currentTerm := by rw [hwel.frame]
      refine ⟨⟨by rw [hrole, hterm]; exact hs.leads, fun e he => ?_, by rw [hterm]; exact hs.upto⟩,
        fun j m' hm' => ?_⟩
      · -- a leader logs in its term, which is 0
        rw [hwel.entries, List.mem_append] at he
        rcases he with he | he
        · exact hs.own e he
        · split at he
          · rw [List.mem_singleton.mp he]
            exact hs.leads.mp hlead
          · cases he
      · rcases List.mem_append.mp hm' with hm' | hm'
        · exact broadCast_toPeer hbs (by rw [hterm]; exact hs.upto) hm'
        · rw [(Prod.mk.inj (List.mem_singleton.mp hm')).2]
          trivial
  | appendentries_r r =>
    obtain ⟨hr, rfl⟩ := proc_appendEntriesR h
    refine ⟨?_, fun _ _ hm' => absurd hm' List.not_mem_nil⟩
    rcases appendEntriesR_cases hr with ⟨hlt, rfl⟩ | ⟨_, b, hb⟩
    · refine ⟨iff_of_false (fun hrole => by cases hrole) ?_, hs.own, hm⟩
      have hlt' := UInt32.lt_iff_toNat_lt.mp hlt
      intro hzero
      have hz : r.term.toNat = 0 := by rw [show r.term = 0 from hzero]; rfl
      omega
    · obtain ⟨n, rfl⟩ := changeCommitIndex_frame hb
      rw [countReply_frame]
      exact ⟨hs.leads, hs.own, hs.upto⟩
  | handshake_r r => exact hm.elim
  | appendentries_q q => exact hm.elim

/-- **A start node that has stepped down** does not come back, takes nobody in, logs nothing and
commits nothing. -/
theorem StartNode.retains (hs : s.StartNode k) (hrole : s.role ≠ .Leader) (hm : m.ToLeader k)
    (h : s.proc puts fd m = .ok (s', ms)) : s.Retains s' := by
  cases m with
  | handshake_q q =>
    rcases handshakeQ_cases h with ⟨_, rfl, _⟩ | ⟨_, rfl, _⟩ | ⟨hlead, _⟩ | ⟨hlead, _⟩
    · exact .refl hrole
    · exact .refl hrole
    · exact absurd hlead hrole
    · exact absurd hlead hrole
  | appendentries_r r =>
    obtain ⟨hr, _⟩ := proc_appendEntriesR h
    rcases appendEntriesR_cases hr with ⟨_, rfl⟩ | ⟨_, b, hb⟩
    · exact ⟨fun hlead => (by cases hlead), rfl, rfl, fun _ => rfl⟩
    · have hmembers : ∀ id, ((s.countReply fd r).proxys.find? id).isSome =
          (s.proxys.find? id).isSome := by
        intro id
        rw [countReply_proxys]
        split_ifs
        · rw [Option.isSome_map]
        · rfl
      rcases changeCommitIndex_cases hb with ⟨rfl, _⟩ | ⟨_, ⟨e, he, hterm⟩, _⟩
      · refine ⟨?_, ?_, ?_, hmembers⟩
        · rw [countReply_frame]
          exact hrole
        · rw [countReply_frame]
        · rw [countReply_frame]
      · -- no entry is of the term it has got
        rw [countReply_frame] at he hterm
        have hzero := hs.own e (List.mem_of_getElem? he)
        exact absurd (hs.leads.mpr (hterm.symm.trans hzero)) hrole
  | handshake_r r => exact hm.elim
  | appendentries_q q => exact hm.elim

/-! ## The joined nodes -/

/-- It follows. -/
structure JoinedNode (k : ℕ) (s : RaftServer) : Prop where
  role : s.role = .Follower
  upto : s.currentTerm.toNat ≤ k

theorem JoinedNode.mono {k' : ℕ} (h : s.JoinedNode k) (hk : k ≤ k') : s.JoinedNode k' :=
  ⟨h.role, le_trans h.upto hk⟩

theorem toNat_max {a b : UInt32} (ha : a.toNat ≤ k) (hb : b.toNat ≤ k) : (max a b).toNat ≤ k := by
  rcases max_choice a b with h | h
  · rw [h]
    exact ha
  · rw [h]
    exact hb

/-- One message of the start node. -/
theorem JoinedNode.proc (hs : s.JoinedNode k) (hm : m.ToPeer k)
    (h : s.proc puts fd m = .ok (s', ms)) :
    s'.JoinedNode k ∧ ∀ j m', (j, m') ∈ ms → m'.ToLeader k := by
  cases m with
  | handshake_r r =>
    obtain ⟨rfl, rfl⟩ := Prod.mk.inj (Except.ok.inj h)
    exact ⟨hs, fun _ _ hm' => absurd hm' List.not_mem_nil⟩
  | appendentries_q q =>
    obtain ⟨r, hq, rfl⟩ := proc_appendEntriesQ h
    have hterm : s'.currentTerm.toNat ≤ k := by
      rw [appendEntriesQ_currentTerm hq]
      exact toNat_max hs.upto hm
    refine ⟨⟨?_, hterm⟩, fun j m' hm' => ?_⟩
    · rw [appendEntriesQ_role hq]
      split_ifs
      · exact hs.role
      · show (if _ then RaftProxyRole.Follower else s.role) = .Follower
        rw [hs.role, ite_self]
    · rw [(Prod.mk.inj (List.mem_singleton.mp hm')).2]
      show r.term.toNat ≤ k
      rw [(appendEntriesQ_reply hq).1]
      exact hterm
  | handshake_q q => exact hm.elim
  | appendentries_r r => exact hm.elim

/-- A timer that expires counts the term up, if it does not begin anew. -/
theorem JoinedNode.heartBeatTimeout (hs : s.JoinedNode k) :
    s.heartBeatTimeout.JoinedNode (k + 1) := by
  refine ⟨hs.role, ?_⟩
  show (s.currentTerm + 1).toNat ≤ k + 1
  have hle := hs.upto
  have hone : (1 : UInt32).toNat = 1 := rfl
  rw [UInt32.toNat_add, hone]
  omega

end RaftServer

/-- A heartbeat timer expires. -/
def Event.isTimeout : Event → Bool
  | .timeout _ => true
  | _ => false

namespace Cluster

variable {c c' : Cluster} {k i : ℕ} {puts : Puts}

/-! ## The cluster -/

/-- One start node, joined nodes, and what these send each other, in terms up to `k`. -/
structure Governed (k : ℕ) (c : Cluster) : Prop where
  leader : c.leader.StartNode k
  peers : ∀ (j : ℕ) (P : Peer), c.peers[j]? = some P → P.server.JoinedNode k
  toPeer : ∀ (j : ℕ) (P : Peer), c.peers[j]? = some P → ∀ m ∈ P.toPeer, m.ToPeer k
  toLeader : ∀ (j : ℕ) (P : Peer), c.peers[j]? = some P → ∀ m ∈ P.toLeader, m.ToLeader k

theorem Governed.mono {k' : ℕ} (h : Governed k c) (hk : k ≤ k') : Governed k' c :=
  ⟨h.leader.mono hk, fun j P hP => (h.peers j P hP).mono hk,
    fun j P hP m hm => (h.toPeer j P hP m hm).mono hk,
    fun j P hP m hm => (h.toLeader j P hP m hm).mono hk⟩

theorem governed_launched (h : Launched c) : Governed 0 c := by
  obtain ⟨put, disk, port, id, hstart, hnil⟩ := h
  have hpeers : ∀ (j : ℕ) (P : Peer), c.peers[j]? ≠ some P := by
    intro j P hP
    rw [hnil] at hP
    cases hP
  refine ⟨?_, fun j P hP => absurd hP (hpeers j P), fun j P hP => absurd hP (hpeers j P),
    fun j P hP => absurd hP (hpeers j P)⟩
  rw [RaftServer.launchStart_eq_ok hstart]
  obtain ⟨db, hframe, _⟩ := RaftServer.appendCfgLog_frame put
    ({ RaftServer.new disk with role := .Leader } : RaftServer) RaftServer.startHost port id
  rw [hframe]
  refine ⟨iff_of_true rfl rfl, fun e he => ?_, le_refl _⟩
  split at he
  · rw [List.mem_singleton.mp he]
    rfl
  · cases he

theorem governed_join {disk : Disk} {addr : Bytes} {raftPort nodeID : UInt32} (h : Governed k c)
    (hn : c.next (.join disk addr raftPort nodeID) = some c') : Governed k c' := by
  constructor
  · rw [(next_join hn).1]
    exact ⟨h.leader.leads, h.leader.own, h.leader.upto⟩
  · intro j P hP
    rcases peer_of_join hn hP with hP | ⟨_, rfl⟩
    · exact h.peers j P hP
    · exact ⟨rfl, Nat.zero_le k⟩
  · intro j P hP
    rcases peer_of_join hn hP with hP | ⟨_, rfl⟩
    · exact h.toPeer j P hP
    · exact fun m hm => absurd hm List.not_mem_nil
  · intro j P hP
    rcases peer_of_join hn hP with hP | ⟨_, rfl⟩
    · exact h.toLeader j P hP
    · intro m hm
      rw [List.mem_singleton.mp hm]
      trivial

theorem governed_toLeader (h : Governed k c) (hn : c.next (.toLeader i puts) = some c') :
    Governed k c' := by
  obtain ⟨P, m, rest, ms, hP, hm, _, hproc, hpeers⟩ := next_toLeader hn
  obtain ⟨hleader, hsends⟩ := h.leader.proc
    (h.toLeader i P hP m (by rw [hm]; exact List.mem_cons_self)) hproc
  refine ⟨hleader, fun j P' hP' => ?_, fun j P' hP' m' hm' => ?_, fun j P' hP' m' hm' => ?_⟩
  · obtain ⟨P₀, hP₀, hserver, _⟩ := peer_of_toLeader hP hm (hpeers j) hP'
    rw [hserver]
    exact h.peers j P₀ hP₀
  · obtain ⟨P₀, hP₀, _, hto, _⟩ := peer_of_toLeader hP hm (hpeers j) hP'
    rw [hto] at hm'
    rcases List.mem_append.mp hm' with hm' | hm'
    · exact h.toPeer j P₀ hP₀ m' hm'
    · exact hsends j m' (mem_sentTo.mp hm')
  · obtain ⟨P₀, hP₀, _, _, hfrom⟩ := peer_of_toLeader hP hm (hpeers j) hP'
    exact h.toLeader j P₀ hP₀ m' (hfrom m' hm')

theorem governed_toPeer (h : Governed k c) (hn : c.next (.toPeer i puts) = some c') :
    Governed k c' := by
  obtain ⟨P, m, rest, s, ms, hP, hm, hproc, hlead, hpeers⟩ := next_toPeer hn
  obtain ⟨hserver, hsends⟩ := (h.peers i P hP).proc
    (h.toPeer i P hP m (by rw [hm]; exact List.mem_cons_self)) hproc
  constructor
  · rw [hlead]
    exact h.leader
  · intro j P' hP'
    rcases peer_of_replaced (hpeers j) hP' with ⟨_, rfl⟩ | ⟨_, hold⟩
    · exact hserver
    · exact h.peers j P' hold
  · intro j P' hP'
    rcases peer_of_replaced (hpeers j) hP' with ⟨_, rfl⟩ | ⟨_, hold⟩
    · exact fun m' hm' => h.toPeer i P hP m' (by rw [hm]; exact List.mem_cons_of_mem m hm')
    · exact h.toPeer j P' hold
  · intro j P' hP'
    rcases peer_of_replaced (hpeers j) hP' with ⟨_, rfl⟩ | ⟨_, hold⟩
    · intro m' hm'
      rcases List.mem_append.mp hm' with hm' | hm'
      · exact h.toLeader i P hP m' hm'
      · exact hsends 0 m' (mem_sentTo.mp hm')
    · exact h.toLeader j P' hold

theorem governed_tick (h : Governed k c) (hn : c.next .tick = some c') : Governed k c' := by
  obtain ⟨ms, hms, hlead, hpeers⟩ := next_tick hn
  constructor
  · rw [hlead]
    exact h.leader
  · intro j P' hP'
    obtain ⟨P₀, hP₀, rfl⟩ := peer_of_tick (hpeers j) hP'
    exact h.peers j P₀ hP₀
  · intro j P' hP' m hm
    obtain ⟨P₀, hP₀, rfl⟩ := peer_of_tick (hpeers j) hP'
    rcases List.mem_append.mp hm with hm | hm
    · exact h.toPeer j P₀ hP₀ m hm
    · exact RaftServer.broadCast_toPeer hms h.leader.upto (mem_sentTo.mp hm)
  · intro j P' hP'
    obtain ⟨P₀, hP₀, rfl⟩ := peer_of_tick (hpeers j) hP'
    exact h.toLeader j P₀ hP₀

theorem governed_timeout (h : Governed k c) (hn : c.next (.timeout i) = some c') :
    Governed (k + 1) c' := by
  obtain ⟨P, hP, hlead, hpeers⟩ := next_timeout hn
  have hk := h.mono (Nat.le_succ k)
  constructor
  · rw [hlead]
    exact hk.leader
  · intro j P' hP'
    rcases peer_of_replaced (hpeers j) hP' with ⟨_, rfl⟩ | ⟨_, hold⟩
    · exact (h.peers i P hP).heartBeatTimeout
    · exact hk.peers j P' hold
  · intro j P' hP'
    rcases peer_of_replaced (hpeers j) hP' with ⟨_, rfl⟩ | ⟨_, hold⟩
    · exact hk.toPeer i P hP
    · exact hk.toPeer j P' hold
  · intro j P' hP'
    rcases peer_of_replaced (hpeers j) hP' with ⟨_, rfl⟩ | ⟨_, hold⟩
    · exact hk.toLeader i P hP
    · exact hk.toLeader j P' hold

/-- One event. The terms on the way rise with a timeout only. -/
theorem Governed.next {e : Event} (h : Governed k c) (hn : c.next e = some c') :
    Governed (k + e.isTimeout.toNat) c' := by
  cases e with
  | join disk addr raftPort nodeID => exact governed_join h hn
  | toLeader i puts => exact governed_toLeader h hn
  | toPeer i puts => exact governed_toPeer h hn
  | tick => exact governed_tick h hn
  | timeout i => exact governed_timeout h hn

theorem Governed.retains {e : Event} (h : Governed k c) (hrole : c.leader.role ≠ .Leader)
    (hn : c.next e = some c') : c.leader.Retains c'.leader := by
  cases e with
  | join disk addr raftPort nodeID =>
    rw [(next_join hn).1]
    exact ⟨hrole, rfl, rfl, fun _ => rfl⟩
  | toLeader i puts =>
    obtain ⟨P, m, rest, ms, hP, hm, _, hproc, _⟩ := next_toLeader hn
    exact h.leader.retains hrole
      (h.toLeader i P hP m (by rw [hm]; exact List.mem_cons_self)) hproc
  | toPeer i puts =>
    obtain ⟨_, _, _, _, _, _, _, _, hlead, _⟩ := next_toPeer hn
    rw [hlead]
    exact .refl hrole
  | tick =>
    obtain ⟨_, _, hlead, _⟩ := next_tick hn
    rw [hlead]
    exact .refl hrole
  | timeout i =>
    obtain ⟨_, _, hlead, _⟩ := next_timeout hn
    rw [hlead]
    exact .refl hrole

/-! ## Runs -/

/-- How many heartbeat timers have expired. -/
def timeouts (es : List Event) : ℕ := es.countP Event.isTimeout

theorem Governed.run {es : List Event} (h : Governed k c) (hrun : system.run c es = some c') :
    Governed (k + timeouts es) c' := by
  induction es generalizing k c with
  | nil =>
    obtain rfl : c = c' := Option.some.inj hrun
    exact h
  | cons e es ih =>
    obtain ⟨t, ht, hrun⟩ := Option.bind_eq_some_iff.mp hrun
    have hcount : timeouts (e :: es) = e.isTimeout.toNat + timeouts es := by
      unfold timeouts
      rw [List.countP_cons]
      cases e.isTimeout with
      | true => exact Nat.add_comm _ _
      | false => exact (Nat.zero_add _).symm
    rw [hcount, ← Nat.add_assoc]
    exact ih (h.next ht) hrun

theorem Governed.run_retains {es : List Event} (h : Governed k c)
    (hrole : c.leader.role ≠ .Leader) (hrun : system.run c es = some c') :
    c.leader.Retains c'.leader := by
  induction es generalizing k c with
  | nil =>
    obtain rfl : c = c' := Option.some.inj hrun
    exact .refl hrole
  | cons e es ih =>
    obtain ⟨t, ht, hrun⟩ := Option.bind_eq_some_iff.mp hrun
    have hone := h.retains hrole ht
    exact hone.trans (ih (h.next ht) hone.role hrun)

/-- **One leader, once.** In every run `es` from the start on, the joined nodes only follow, the
start node leads exactly as long as its term is 0, and no term is greater than the number of
heartbeat timers that have expired. Once it does not lead, then whatever follows (`es'`), nobody
takes its place: its log, its commit index and the nodes it knows remain what they are. -/
theorem leads_once {c₀ : Cluster} (hinit : Launched c₀) {es es' : List Event}
    (h : system.run c₀ es = some c) (h' : system.run c es' = some c') :
    (∀ P ∈ c.peers, P.server.role = .Follower) ∧
    (c.leader.role = .Leader ↔ c.leader.currentTerm = 0) ∧
    (∀ s ∈ c.nodes, s.currentTerm.toNat ≤ timeouts es) ∧
    (c.leader.role ≠ .Leader → c.leader.Retains c'.leader) := by
  have hgov := (governed_launched hinit).run h
  rw [Nat.zero_add] at hgov
  refine ⟨fun P hP => ?_, hgov.leader.leads, fun s hs => ?_, fun hrole => hgov.run_retains hrole h'⟩
  · obtain ⟨j, hj⟩ := List.mem_iff_getElem?.mp hP
    exact (hgov.peers j P hj).role
  · rcases List.mem_cons.mp hs with rfl | hs
    · exact hgov.leader.upto
    · obtain ⟨P, hP, rfl⟩ := List.mem_map.mp hs
      obtain ⟨j, hj⟩ := List.mem_iff_getElem?.mp hP
      exact (hgov.peers j P hj).upto

/-- The timer of the joined node expires before it has read the entries, which it refuses in its
new term. The start node steps down, and refuses the next process that joins. -/
theorem leads_once_timeout : ∃ c c' : Cluster, c.leader.role ≠ .Leader ∧
    c.leader.Retains c'.leader ∧ (∀ s ∈ c.nodes, s.currentTerm.toNat ≤ 1) := by
  let early := [joins 2, leaderReads 0, .timeout 0, peerReads 0, leaderReads 0]
  let late := [joins 3, leaderReads 1]
  have hrun : ∃ c : Cluster, system.run started early = some c ∧ c.leader.role ≠ .Leader ∧
      ∃ c', system.run c late = some c' := by
    have htest : (system.run started early).any (fun c => decide (c.leader.role ≠ .Leader) &&
        (system.run c late).isSome) = true := by decide +kernel
    obtain ⟨c, hc, hlate⟩ := (Option.any_eq_true _ _).mp htest
    rw [Bool.and_eq_true, decide_eq_true_iff] at hlate
    exact ⟨c, hc, hlate.1, Option.isSome_iff_exists.mp hlate.2⟩
  obtain ⟨c, hc, hrole, c', hc'⟩ := hrun
  obtain ⟨_, _, hterms, hretains⟩ :=
    leads_once ⟨⟨true, []⟩, ⟨none, .empty⟩, 7777, 1, rfl, rfl⟩ hc hc'
  exact ⟨c, c', hrole, hretains hrole, hterms⟩

end Cluster
end NanoRaft
