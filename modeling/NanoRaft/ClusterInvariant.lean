import NanoRaft.Lib.Log
import NanoRaft.ClusterTheorems
import NanoRaft.LeaderInvariant

/-!
# What holds in every run of a cluster

The invariant `Wf` of a cluster whose start node does not outgrow 32-bit indices, whatever
the followers do with the messages they get: a peer is either waiting for its handshake to
be read or only ever answers, and everything on the way to it was built from the log of the
start node. `wf_of_reachable` is the invariant over runs.

`PeerStep` then says what one event means for one peer, its log, the replies it has on the
way and the counter these are counted in; the safety results are case analyses on it.
-/

namespace NanoRaft

/-- How many replies on the way to the start node will be counted. -/
def acks (ms : List Message) : ℕ :=
  ms.countP fun m => match m with
    | .appendentries_r r => r.counts
    | _ => false

@[simp] theorem acks_nil : acks [] = 0 := rfl

theorem acks_reply (r : AppendEntriesR) (ms : List Message) :
    acks (.appendentries_r r :: ms) = acks ms + if r.counts then 1 else 0 := by
  unfold acks
  rw [List.countP_cons]

theorem acks_snoc (ms : List Message) (r : AppendEntriesR) :
    acks (ms ++ [.appendentries_r r]) = acks ms + if r.counts then 1 else 0 := by
  unfold acks
  rw [List.countP_append, List.countP_singleton]

namespace Cluster

open RaftServer (SentBy LeaderStep BuiltFor)

variable {c c' : Cluster} {i j : ℕ} {s s' : RaftServer} {P P' : Peer} {puts : Puts}

/-! ## The invariant -/

/-- What can be on the way to a peer. -/
def FromLeader (s : RaftServer) (m : Message) : Prop :=
  (∃ r, m = .handshake_r r) ∨ ∃ q, m = .appendentries_q q ∧ SentBy s q

/-- The start node has not read the handshake of peer `i` yet. -/
structure Joining (s : RaftServer) (i : ℕ) (P : Peer) : Prop where
  entries : P.server.entries = []
  toPeer : P.toPeer = []
  toLeader : ∃ q, P.toLeader = [.handshake_q q]
  untied : s.tiedTo i = none

/-- Peer `i`, as seen with start node `s`. -/
structure PeerWf (s : RaftServer) (i : ℕ) (P : Peer) : Prop where
  logs : P.server.logs = []
  toPeer : ∀ m ∈ P.toPeer, FromLeader s m
  toLeader : Joining s i P ∨ ∀ m ∈ P.toLeader, ∃ r, m = .appendentries_r r

structure Wf (c : Cluster) : Prop where
  proxys : c.leader.ProxysWf
  log : c.leader.LogWf
  registered : ∀ k cn, c.leader.conns.find? k = some cn → ∃ P, c.peers[k]? = some P
  peers : ∀ i P, c.peers[i]? = some P → PeerWf c.leader i P

theorem FromLeader.mono {m : Message} (h : FromLeader s m) (hext : s.entries <+: s'.entries)
    (hterm : s.currentTerm ≤ s'.currentTerm) : FromLeader s' m := by
  rcases h with hr | ⟨q, hq, hsent⟩
  · exact Or.inl hr
  · exact Or.inr ⟨q, hq, hsent.mono hext hterm⟩

/-- A peer that has said nothing more and got only messages of the start node. -/
theorem PeerWf.sendTo (h : PeerWf s i P) (hext : s.entries <+: s'.entries)
    (hterm : s.currentTerm ≤ s'.currentTerm) {ms : List Message}
    (hms : ∀ m ∈ ms, FromLeader s' m)
    (hun : s.tiedTo i = none → s'.tiedTo i = none ∧ ms = []) :
    PeerWf s' i { P with toPeer := P.toPeer ++ ms } := by
  refine ⟨h.logs, fun m hm => ?_, ?_⟩
  · rcases List.mem_append.mp hm with hm | hm
    · exact (h.toPeer m hm).mono hext hterm
    · exact hms m hm
  · rcases h.toLeader with hjoin | hreplies
    · obtain ⟨hun', hnil⟩ := hun hjoin.untied
      refine Or.inl ⟨hjoin.entries, ?_, hjoin.toLeader, hun'⟩
      rw [hnil, List.append_nil]
      exact hjoin.toPeer
    · exact Or.inr hreplies

theorem BuiltFor.fromLeader (hp : s.ProxysWf) (hl : s.LogWf) {k : ℕ} {m : Message}
    (h : s.BuiltFor k m) : FromLeader s m := by
  obtain ⟨id, p, q, _, hfind, hq, rfl⟩ := h
  exact Or.inr ⟨q, rfl, (RaftServer.buildAppendEntries_sentBy hl (hp.counters id p hfind) hq).1⟩

/-- Nothing is put on an untied connection, an answer to its own message apart. -/
theorem sentTo_eq_nil {ms : Sends} {k : ℕ}
    (hms : ∀ m, (k, m) ∈ ms → s.BuiltFor k m) (hun : s.tiedTo k = none) : sentTo ms k = [] := by
  rw [List.eq_nil_iff_forall_not_mem]
  intro m hm
  obtain ⟨id, p, q, htied, _⟩ := hms m (mem_sentTo.mp hm)
  rw [hun] at htied
  cases htied

/-! ## Handling a message -/

/-- The log of the start node has room for the entry of one more node, if the next message on
connection `i` is the handshake of a node that is new to it. -/
def RoomFor (c : Cluster) (i : ℕ) : Prop :=
  ∀ P ∈ c.peers[i]?, ∀ m ∈ P.toLeader.head?, match m with
    | .handshake_q q =>
      c.leader.proxyConnFd q.nodeid = none → c.leader.entries.length + 1 < 2 ^ 32
    | _ => True

instance : Decidable (c.RoomFor i) :=
  have : ∀ m : Message, Decidable (match m with
      | .handshake_q q =>
        c.leader.proxyConnFd q.nodeid = none → c.leader.entries.length + 1 < 2 ^ 32
      | _ => True) := fun m =>
    match m with
    | .handshake_q _ => inferInstanceAs (Decidable (_ = none → _ < _))
    | .handshake_r _ | .appendentries_q _ | .appendentries_r _ => isTrue trivial
  Option.decidableForallMem _

/-- The runs in which the log of the start node keeps its indices below `2 ^ 32`. -/
def Room (c : Cluster) : Event → Prop
  | .toLeader i _ => c.RoomFor i
  | _ => True

/-- A message of a well-formed peer is handled by the start node in a `LeaderStep`. -/
theorem leaderStep_of_next (hwf : Wf c) (h : c.next (.toLeader i puts) = some c') :
    ∃ P m rest ms cn, c.peers[i]? = some P ∧ P.toLeader = m :: rest ∧
      c.leader.conns.find? i = some cn ∧ cn.reading = true ∧
      LeaderStep c.leader i m c'.leader ms ∧
      (∀ q, m = .handshake_q q → Joining c.leader i P ∧ rest = []) ∧
      (∀ m' ∈ rest, ∃ r, m' = .appendentries_r r) ∧
      ∀ j, c'.peers[j]? = if j = i
        then some { P with toLeader := rest, toPeer := P.toPeer ++ sentTo ms i }
        else (c.peers[j]?).map fun P => { P with toPeer := P.toPeer ++ sentTo ms j } := by
  obtain ⟨P, m, rest, ms, hP, hm, hl, hproc, hpeers⟩ := next_toLeader h
  obtain ⟨cn, hcn, hread⟩ := listens_iff.mp hl
  refine ⟨P, m, rest, ms, cn, hP, hm, hcn, hread, ?_, ?_, ?_, hpeers⟩
  · rcases (hwf.peers i P hP).toLeader with hjoin | hreplies
    · obtain ⟨q, hq⟩ := hjoin.toLeader
      rw [hm] at hq
      obtain ⟨rfl, _⟩ := List.cons.inj hq
      exact RaftServer.leaderStep_of_handshakeQ hcn hproc
    · obtain ⟨r, rfl⟩ := hreplies m (by rw [hm]; exact List.mem_cons_self)
      obtain ⟨ht, rfl⟩ := RaftServer.proc_appendEntriesR hproc
      exact RaftServer.leaderStep_of_appendEntriesR ht
  · intro q hq
    rcases (hwf.peers i P hP).toLeader with hjoin | hreplies
    · obtain ⟨q', hq'⟩ := hjoin.toLeader
      rw [hm] at hq'
      exact ⟨hjoin, (List.cons.inj hq').2⟩
    · obtain ⟨r, hr⟩ := hreplies m (by rw [hm]; exact List.mem_cons_self)
      rw [hq] at hr
      cases hr
  · intro m' hm'
    rcases (hwf.peers i P hP).toLeader with hjoin | hreplies
    · obtain ⟨q', hq'⟩ := hjoin.toLeader
      rw [hm] at hq'
      rw [(List.cons.inj hq').2] at hm'
      cases hm'
    · exact hreplies m' (by rw [hm]; exact List.mem_cons_of_mem _ hm')

/-- A message that arrives at a well-formed peer is the answer to its handshake, which is
ignored, or an `appendentries_q`, which is answered. -/
theorem peerStep_of_next (hwf : Wf c) (h : c.next (.toPeer i puts) = some c') :
    ∃ P rest, c.peers[i]? = some P ∧ c'.leader = c.leader ∧
      ((∃ r, P.toPeer = .handshake_r r :: rest ∧
        ∀ j, c'.peers[j]? = if j = i then some { P with toPeer := rest } else c.peers[j]?) ∨
      ∃ q t r, P.toPeer = .appendentries_q q :: rest ∧ SentBy c.leader q ∧
        P.server.appendEntriesQ puts q = .ok (t, r) ∧
        ∀ j, c'.peers[j]? = if j = i
          then some ⟨t, rest, P.toLeader ++ [.appendentries_r r]⟩ else c.peers[j]?) := by
  obtain ⟨P, m, rest, t, ms, hP, hm, hproc, hlead, hpeers⟩ := next_toPeer h
  refine ⟨P, rest, hP, hlead, ?_⟩
  rcases (hwf.peers i P hP).toPeer m (by rw [hm]; exact List.mem_cons_self) with
    ⟨r, rfl⟩ | ⟨q, rfl, hsent⟩
  · obtain ⟨rfl, rfl⟩ := Prod.mk.inj (Except.ok.inj hproc)
    refine Or.inl ⟨r, hm, fun j => ?_⟩
    rw [hpeers]
    simp [sentTo]
  · obtain ⟨r, ht, rfl⟩ := RaftServer.proc_appendEntriesQ hproc
    exact Or.inr ⟨q, t, r, hm, hsent, ht, hpeers⟩

/-! ## Every event keeps the invariant -/

theorem Wf.unregistered (hwf : Wf c) : c.leader.conns.find? c.peers.length = none := by
  cases h : c.leader.conns.find? c.peers.length with
  | none => rfl
  | some cn =>
    obtain ⟨P, hP⟩ := hwf.registered _ cn h
    have hlt := (List.getElem?_eq_some_iff.mp hP).1
    exact absurd hlt (lt_irrefl _)

/-- A connection that is only registered is tied to nothing. -/
theorem accept_tiedTo {fd : ℕ} (addr : Bytes) (hfree : s.conns.find? fd = none) (k : ℕ) :
    (s.accept fd addr).tiedTo k = s.tiedTo k := by
  show ((s.conns.insert fd _).find? k).bind _ = (s.conns.find? k).bind _
  rw [OrdMap.find?_insert]
  split
  · next hk =>
    rw [hk, hfree]
    rfl
  · rfl

theorem accept_ackedOn {fd : ℕ} (addr : Bytes) (hfree : s.conns.find? fd = none) (k : ℕ) :
    (s.accept fd addr).ackedOn k = s.ackedOn k := by
  show ((s.conns.insert fd _).find? k).bind _ = (s.conns.find? k).bind _
  rw [OrdMap.find?_insert]
  split
  · next hk =>
    rw [hk, hfree]
    rfl
  · rfl

theorem wf_join (hwf : Wf c) {disk : Disk} {addr : Bytes} {raftPort nodeID : UInt32}
    (h : c.next (.join disk addr raftPort nodeID) = some c') : Wf c' := by
  obtain ⟨hlead, hpeers⟩ := next_join h
  have hfree := hwf.unregistered
  have htied : ∀ k, c'.leader.tiedTo k = c.leader.tiedTo k := by
    intro k
    rw [hlead]
    exact accept_tiedTo addr hfree k
  have hproxys : c'.leader.proxys = c.leader.proxys := by rw [hlead]; rfl
  constructor
  · constructor
    · rw [hproxys]
      exact hwf.proxys.counters
    · intro id p hp
      rw [hproxys] at hp
      obtain ⟨fd, hfd, hid⟩ := hwf.proxys.proxyTied id p hp
      exact ⟨fd, hfd, by rw [htied, hid]⟩
    · intro fd id hid
      rw [htied] at hid
      rw [hproxys]
      exact hwf.proxys.connTied fd id hid
  · rw [hlead]
    exact ⟨hwf.log.own, hwf.log.term, hwf.log.short, hwf.log.commit⟩
  · intro k cn hk
    have hk' : (c.leader.conns.insert c.peers.length ⟨addr, 0, none, true⟩).find? k = some cn := by
      rw [hlead] at hk
      exact hk
    rw [OrdMap.find?_insert] at hk'
    rw [hpeers]
    split at hk'
    · next heq => exact ⟨_, by rw [heq, List.getElem?_concat_length]⟩
    · obtain ⟨P, hP⟩ := hwf.registered k cn hk'
      exact ⟨P, Log.getElem?_of_isPrefix (List.prefix_append _ _) hP⟩
  · intro i P hP
    have hext : c.leader.entries <+: c'.leader.entries := by rw [hlead]; exact List.prefix_refl _
    have hterm : c.leader.currentTerm ≤ c'.leader.currentTerm := by rw [hlead]; exact le_refl _
    rcases peer_of_join h hP with hP | ⟨hi, rfl⟩
    · have hkept := (hwf.peers i P hP).sendTo hext hterm (fun m hm => absurd hm List.not_mem_nil)
        fun hun => ⟨by rw [htied, hun], rfl⟩
      rwa [List.append_nil] at hkept
    · -- the new peer has sent its handshake, on a connection that is tied to nothing
      refine ⟨rfl, fun m hm => absurd hm List.not_mem_nil, Or.inl ⟨rfl, rfl, ⟨_, rfl⟩, ?_⟩⟩
      rw [htied, hi]
      unfold RaftServer.tiedTo
      rw [hfree]
      rfl

/-- The peers after the start node has sent `ms`, of which only an answer goes to the
connection `fd` that it has read from. -/
theorem peersWf_of_sent (hwf : Wf c) (hp : s'.ProxysWf) (hl : s'.LogWf)
    (hext : c.leader.entries <+: s'.entries) (hterm : c.leader.currentTerm ≤ s'.currentTerm)
    {ms : Sends} (hms : ∀ m, (j, m) ∈ ms → s'.BuiltFor j m)
    (hun : c.leader.tiedTo j = none → s'.tiedTo j = none) (hP : c.peers[j]? = some P) :
    PeerWf s' j { P with toPeer := P.toPeer ++ sentTo ms j } := by
  apply (hwf.peers j P hP).sendTo hext hterm
  · intro m hm
    exact BuiltFor.fromLeader hp hl (hms m (mem_sentTo.mp hm))
  · intro hnone
    exact ⟨hun hnone, sentTo_eq_nil hms (hun hnone)⟩

theorem wf_toLeader (hwf : Wf c) (hroom : c.RoomFor i)
    (h : c.next (.toLeader i puts) = some c') : Wf c' := by
  obtain ⟨P, m, rest, ms, cn, hP, hm, hcn, hread, hstep, hhand, hrest, hpeers⟩ :=
    leaderStep_of_next hwf h
  obtain ⟨hext, hterm⟩ := hstep.grows
  have hun : ∀ q, m = .handshake_q q → c.leader.tiedTo i = none := fun q hq => (hhand q hq).1.untied
  have hproxys := hstep.proxysWf hwf.proxys hcn hun
  have hlog : c'.leader.LogWf := by
    apply hstep.logWf hwf.log
    intro q hq
    have hhead := hroom P hP m (by rw [hm]; rfl)
    rw [hq] at hhead
    exact hhead
  refine ⟨hproxys, hlog, fun k cn' hk => ?_, fun j P' hP' => ?_⟩
  · obtain ⟨cn0, hcn0⟩ := hstep.registered hcn hk
    obtain ⟨P0, hP0⟩ := hwf.registered k cn0 hcn0
    rw [hpeers, hP0]
    split
    · exact ⟨_, rfl⟩
    · exact ⟨_, rfl⟩
  · rw [hpeers] at hP'
    split at hP'
    · next hj =>
      obtain rfl := Option.some.inj hP'
      rw [hj]
      have hfrom : ∀ m' ∈ sentTo ms i, FromLeader c'.leader m' := by
        intro m' hm'
        rcases hstep.sends (mem_sentTo.mp hm') with ⟨_, r, hr⟩ | hbuilt
        · exact Or.inl ⟨r, hr⟩
        · exact BuiltFor.fromLeader hproxys hlog hbuilt
      refine ⟨(hwf.peers i P hP).logs, fun m' hm' => ?_, Or.inr hrest⟩
      rcases List.mem_append.mp hm' with hm' | hm'
      · exact ((hwf.peers i P hP).toPeer m' hm').mono hext hterm
      · exact hfrom m' hm'
    · next hj =>
      obtain ⟨P0, hP0, rfl⟩ := Option.map_eq_some_iff.mp hP'
      apply peersWf_of_sent hwf hproxys hlog hext hterm _ (hstep.untied hcn hj) hP0
      intro m' hm'
      rcases hstep.sends hm' with ⟨heq, _⟩ | hbuilt
      · exact absurd heq hj
      · exact hbuilt

/-- A peer that was replaced by one with the same start node around it. -/
theorem wf_of_peer (hwf : Wf c) (hlead : c'.leader = c.leader)
    (hpeers : ∀ j, c'.peers[j]? = if j = i then some P' else c.peers[j]?)
    (hP' : PeerWf c.leader i P') : Wf c' := by
  constructor
  · rw [hlead]
    exact hwf.proxys
  · rw [hlead]
    exact hwf.log
  · intro k cn hk
    rw [hlead] at hk
    obtain ⟨P0, hP0⟩ := hwf.registered k cn hk
    rw [hpeers, hP0]
    split
    · exact ⟨_, rfl⟩
    · exact ⟨_, rfl⟩
  · intro j Pj hPj
    rw [hlead]
    rcases peer_of_replaced (hpeers j) hPj with ⟨rfl, rfl⟩ | ⟨_, hold⟩
    · exact hP'
    · exact hwf.peers j Pj hold

/-- A peer with something on the way to it has been heard of. -/
theorem PeerWf.replies (h : PeerWf s i P) {m : Message} {rest : List Message}
    (hm : P.toPeer = m :: rest) : ∀ m ∈ P.toLeader, ∃ r, m = .appendentries_r r := by
  rcases h.toLeader with hjoin | hreplies
  · have hnil := hjoin.toPeer
    rw [hm] at hnil
    cases hnil
  · exact hreplies

theorem wf_toPeer (hwf : Wf c) (h : c.next (.toPeer i puts) = some c') : Wf c' := by
  obtain ⟨P, rest, hP, hlead, hcases⟩ := peerStep_of_next hwf h
  have hpeer := hwf.peers i P hP
  have hrest : ∀ m, P.toPeer = m :: rest → ∀ m ∈ rest, FromLeader c.leader m := by
    intro m hm m' hm'
    exact hpeer.toPeer m' (by rw [hm]; exact List.mem_cons_of_mem _ hm')
  rcases hcases with ⟨r, hm, hpeers⟩ | ⟨q, t, r, hm, _, hq, hpeers⟩
  · exact wf_of_peer hwf hlead hpeers
      ⟨hpeer.logs, hrest _ hm, Or.inr (hpeer.replies hm)⟩
  · apply wf_of_peer hwf hlead hpeers
    refine ⟨?_, hrest _ hm, Or.inr fun m hm' => ?_⟩
    · exact (RaftServer.appendEntriesQ_of_logs hpeer.logs hq).2
    · -- what the peer says next is the answer
      rcases List.mem_append.mp hm' with hm' | hm'
      · exact hpeer.replies hm m hm'
      · exact ⟨r, List.mem_singleton.mp hm'⟩

theorem wf_tick (hwf : Wf c) (h : c.next .tick = some c') : Wf c' := by
  obtain ⟨ms, hms, hlead, hpeers⟩ := next_tick h
  constructor
  · rw [hlead]
    exact hwf.proxys
  · rw [hlead]
    exact hwf.log
  · intro k cn hk
    rw [hlead] at hk
    obtain ⟨P0, hP0⟩ := hwf.registered k cn hk
    exact ⟨_, by rw [hpeers, hP0]; rfl⟩
  · intro j P' hP'
    rw [hpeers] at hP'
    obtain ⟨P, hP, rfl⟩ := Option.map_eq_some_iff.mp hP'
    rw [hlead]
    apply peersWf_of_sent hwf hwf.proxys hwf.log (List.prefix_refl _) (le_refl _) _ id hP
    intro m hm
    exact RaftServer.builtFor_of_broadCast hms hm

theorem wf_timeout (hwf : Wf c) (h : c.next (.timeout i) = some c') : Wf c' := by
  obtain ⟨P, hP, hlead, hpeers⟩ := next_timeout h
  have hpeer := hwf.peers i P hP
  apply wf_of_peer hwf hlead hpeers
  refine ⟨hpeer.logs, hpeer.toPeer, ?_⟩
  rcases hpeer.toLeader with hjoin | hreplies
  · exact Or.inl ⟨hjoin.entries, hjoin.toPeer, hjoin.toLeader, hjoin.untied⟩
  · exact Or.inr hreplies

/-- At the start there is nobody to count for. -/
theorem launched_proxys (h : Launched c) : c.leader.proxys = .empty ∧ c.peers = [] := by
  obtain ⟨put, disk, port, id, hstart, hpeers⟩ := h
  obtain ⟨db, happ, _⟩ := RaftServer.appendCfgLog_frame put
    ({ RaftServer.new disk with role := .Leader } : RaftServer) RaftServer.startHost port id
  refine ⟨?_, hpeers⟩
  rw [RaftServer.launchStart_eq_ok hstart, happ]
  rfl

theorem wf_launched (h : Launched c) : Wf c := by
  obtain ⟨put, disk, port, id, hstart, hpeers⟩ := h
  have hlead := RaftServer.launchStart_eq_ok hstart
  obtain ⟨db, happ, _⟩ := RaftServer.appendCfgLog_frame put
    ({ RaftServer.new disk with role := .Leader } : RaftServer) RaftServer.startHost port id
  rw [happ] at hlead
  constructor
  · rw [hlead]
    refine ⟨fun id p hp => ?_, fun id p hp => ?_, fun fd id hid => ?_⟩
    · cases hp
    · cases hp
    · cases hid
  · rw [hlead]
    refine ⟨?_, fun _ => rfl, ?_, Nat.zero_le _⟩
    · intro e he
      have he' : e ∈ (if put.ok then [_] else []) := he
      split at he'
      · obtain rfl := List.mem_singleton.mp he'
        rfl
      · cases he'
    · show (if put.ok then [_] else []).length < 2 ^ 32
      split
      · exact Nat.one_lt_two_pow (by decide)
      · exact Nat.two_pow_pos 32
  · intro k cn hk
    rw [hlead] at hk
    cases hk
  · intro i P hP
    rw [hpeers] at hP
    cases hP

/-- **Well-formed in every run** in which the start node's indices stay below `2 ^ 32`. -/
theorem wf_of_reachable {C : Cluster → Event → Prop} (hC : ∀ c e, C c e → Room c e)
    (h : system.Reachable C c) : Wf c := by
  apply h.invariant (I := Wf) fun c => wf_launched
  intro c e c' _ hwf hallowed hn
  cases e with
  | join disk addr raftPort nodeID => exact wf_join hwf hn
  | toLeader i puts => exact wf_toLeader hwf (hC c _ hallowed) hn
  | toPeer i puts => exact wf_toPeer hwf hn
  | tick => exact wf_tick hwf hn
  | timeout i => exact wf_timeout hwf hn

/-! ## One event and one peer -/

/-- What an event means for peer `j`, which is `P'` afterwards. -/
inductive PeerStep (c c' : Cluster) (e : Event) (j : ℕ) (P' : Peer) : Prop where
  /-- The peer has just started. -/
  | joined (hentries : P'.server.entries = []) (hacked : c'.leader.ackedOn j = none)
  /-- Its log and its replies are as before; it may have been sent something. -/
  | kept (P : Peer) (hP : c.peers[j]? = some P)
    (hentries : P'.server.entries = P.server.entries) (hreplies : P'.toLeader = P.toLeader)
    (hacked : ∀ a, c'.leader.ackedOn j = some a → c.leader.ackedOn j = some a)
  /-- Its handshake has been read. -/
  | shaken (P : Peer) (hP : c.peers[j]? = some P)
    (hentries : P'.server.entries = P.server.entries) (hreplies : P'.toLeader = [])
    (hacked : ∀ a, c'.leader.ackedOn j = some a → a = 0)
  /-- One of its replies has been read. -/
  | acknowledged (P : Peer) (hP : c.peers[j]? = some P) (r : AppendEntriesR)
    (hentries : P'.server.entries = P.server.entries)
    (hreplies : P.toLeader = .appendentries_r r :: P'.toLeader)
    (hacked : ∀ a', c'.leader.ackedOn j = some a' → ∃ a, c.leader.ackedOn j = some a ∧
      (a' = a ∨ (r.counts = true ∧ a' = a + 1)))
  /-- It has handled an `appendentries_q`. -/
  | handled (P : Peer) (hP : c.peers[j]? = some P) (puts : Puts) (q : AppendEntriesQ)
    (rest : List Message) (r : AppendEntriesR) (he : e = .toPeer j puts)
    (hm : P.toPeer = .appendentries_q q :: rest) (hsent : SentBy c.leader q)
    (hq : P.server.appendEntriesQ puts q = .ok (P'.server, r))
    (hreplies : P'.toLeader = P.toLeader ++ [.appendentries_r r])
    (hlead : c'.leader = c.leader)

theorem peerStep_join (hwf : Wf c) {disk : Disk} {addr : Bytes} {raftPort nodeID : UInt32}
    (h : c.next (.join disk addr raftPort nodeID) = some c') (hP' : c'.peers[j]? = some P') :
    PeerStep c c' (.join disk addr raftPort nodeID) j P' := by
  have hacked : c'.leader.ackedOn j = c.leader.ackedOn j := by
    rw [(next_join h).1]
    exact accept_ackedOn addr hwf.unregistered j
  rcases peer_of_join h hP' with hP | ⟨hj, rfl⟩
  · exact .kept P' hP rfl rfl fun a ha => by rwa [hacked] at ha
  · refine .joined rfl ?_
    rw [hacked, hj]
    unfold RaftServer.ackedOn
    rw [hwf.unregistered]
    rfl

theorem peerStep_toLeader (hwf : Wf c) (h : c.next (.toLeader i puts) = some c')
    (hP' : c'.peers[j]? = some P') : PeerStep c c' (.toLeader i puts) j P' := by
  obtain ⟨P, m, rest, ms, cn, hP, hm, hcn, hread, hstep, hhand, hrest, hpeers⟩ :=
    leaderStep_of_next hwf h
  have hun : ∀ q, m = .handshake_q q → c.leader.tiedTo i = none := fun q hq => (hhand q hq).1.untied
  rw [hpeers] at hP'
  split at hP'
  · next hj =>
    obtain rfl := Option.some.inj hP'
    rw [hj]
    rcases (hwf.peers i P hP).toLeader with hjoin | hreplies
    · obtain ⟨q, hq⟩ := hjoin.toLeader
      rw [hm] at hq
      obtain ⟨rfl, hnil⟩ := List.cons.inj hq
      exact .shaken P hP rfl hnil fun a ha =>
        hstep.ackedOn_handshake hwf.proxys hcn hjoin.untied ha
    · obtain ⟨r, rfl⟩ := hreplies m (by rw [hm]; exact List.mem_cons_self)
      exact .acknowledged P hP r rfl hm fun a' ha' => hstep.ackedOn_reply hwf.proxys ha'
  · next hj =>
    obtain ⟨P0, hP0, rfl⟩ := Option.map_eq_some_iff.mp hP'
    exact .kept P0 hP0 rfl rfl fun a ha => hstep.ackedOn_of_ne hwf.proxys hcn hun hj ha

/-- Every event is one of these for every peer. -/
theorem peerStep_of_event (hwf : Wf c) {e : Event} (h : c.next e = some c')
    (hP' : c'.peers[j]? = some P') : PeerStep c c' e j P' := by
  cases e with
  | join disk addr raftPort nodeID => exact peerStep_join hwf h hP'
  | toLeader i puts => exact peerStep_toLeader hwf h hP'
  | toPeer i puts =>
    obtain ⟨P, rest, hP, hlead, hcases⟩ := peerStep_of_next hwf h
    have hacked : ∀ a, c'.leader.ackedOn j = some a → c.leader.ackedOn j = some a :=
      fun a ha => by rwa [hlead] at ha
    rcases hcases with ⟨r, hm, hpeers⟩ | ⟨q, t, r, hm, hsent, hq, hpeers⟩
    · rcases peer_of_replaced (hpeers j) hP' with ⟨rfl, rfl⟩ | ⟨_, hold⟩
      · exact .kept P hP rfl rfl hacked
      · exact .kept P' hold rfl rfl hacked
    · rcases peer_of_replaced (hpeers j) hP' with ⟨rfl, rfl⟩ | ⟨_, hold⟩
      · exact .handled P hP puts q rest r rfl hm hsent hq rfl hlead
      · exact .kept P' hold rfl rfl hacked
  | tick =>
    obtain ⟨ms, _, hlead, hpeers⟩ := next_tick h
    rw [hpeers] at hP'
    obtain ⟨P, hP, rfl⟩ := Option.map_eq_some_iff.mp hP'
    exact .kept P hP rfl rfl fun a ha => by rwa [hlead] at ha
  | timeout i =>
    -- a timeout touches the term only
    obtain ⟨P, hP, hlead, hpeers⟩ := next_timeout h
    have hacked : ∀ a, c'.leader.ackedOn j = some a → c.leader.ackedOn j = some a :=
      fun a ha => by rwa [hlead] at ha
    rcases peer_of_replaced (hpeers j) hP' with ⟨rfl, rfl⟩ | ⟨_, hold⟩
    · exact .kept P hP rfl rfl hacked
    · exact .kept P' hold rfl rfl hacked

/-- The log of the start node only grows, and its term only rises. -/
theorem leader_grows (hwf : Wf c) {e : Event} (h : c.next e = some c') :
    c.leader.entries <+: c'.leader.entries ∧ c.leader.currentTerm ≤ c'.leader.currentTerm := by
  rcases next_leader h with hlead | ⟨addr, hlead⟩ | ⟨i, puts, rfl⟩
  · rw [hlead]
    exact ⟨List.prefix_refl _, le_refl _⟩
  · rw [hlead]
    exact ⟨List.prefix_refl _, le_refl _⟩
  · obtain ⟨P, m, rest, ms, cn, _, _, _, _, hstep, _⟩ := leaderStep_of_next hwf h
    exact hstep.grows

/-- A counter has its old value, or is that of a new node, or has just counted a reply of
the peer whose connection its proxy is tied to. -/
theorem matchIndex_of_event (hwf : Wf c) {e : Event} (h : c.next e = some c') {id : UInt32}
    {p' : RaftProxy} (hp' : c'.leader.proxys.find? id = some p') :
    p'.matchIndex = 0 ∨
      (∃ p, c.leader.proxys.find? id = some p ∧ p.matchIndex = p'.matchIndex) ∨
      ∃ j P', c'.peers[j]? = some P' ∧ c'.leader.ackedOn j = some p'.matchIndex := by
  rcases next_leader h with hlead | ⟨addr, hlead⟩ | ⟨i, puts, rfl⟩
  · rw [hlead] at hp'
    exact Or.inr (Or.inl ⟨p', hp', rfl⟩)
  · -- an accepted connection has no proxy yet
    rw [hlead] at hp'
    exact Or.inr (Or.inl ⟨p', hp', rfl⟩)
  · obtain ⟨P, m, rest, ms, cn, hP, _, hcn, hread, hstep, _, _, hpeers⟩ :=
      leaderStep_of_next hwf h
    rcases hstep.matchIndex hwf.proxys hcn hread hp' with hzero | hold | hacked
    · exact Or.inl hzero
    · exact Or.inr (Or.inl hold)
    · exact Or.inr (Or.inr ⟨i, _, by rw [hpeers, if_pos rfl], hacked⟩)

/-- No `appendentries_q` out of thin air: one that is on the way to a peer was on the way
before, or has been built for the proxy the peer's connection is tied to. -/
theorem appendEntriesQ_of_event (hwf : Wf c) {e : Event} (h : c.next e = some c')
    (hP' : c'.peers[j]? = some P') {q : AppendEntriesQ}
    (hq : .appendentries_q q ∈ P'.toPeer) :
    (∃ P, c.peers[j]? = some P ∧ .appendentries_q q ∈ P.toPeer) ∨
      c'.leader.BuiltFor j (.appendentries_q q) := by
  cases e with
  | join disk addr raftPort nodeID =>
    rcases peer_of_join h hP' with hP | ⟨_, rfl⟩
    · exact Or.inl ⟨P', hP, hq⟩
    · cases hq
  | toLeader i puts =>
    obtain ⟨P, m, rest, ms, cn, hP, _, _, _, hstep, _, _, hpeers⟩ := leaderStep_of_next hwf h
    have hsent : .appendentries_q q ∈ sentTo ms j → c'.leader.BuiltFor j (.appendentries_q q) := by
      intro hm
      rcases hstep.sends (mem_sentTo.mp hm) with ⟨_, r, hr⟩ | hbuilt
      · cases hr
      · exact hbuilt
    rw [hpeers] at hP'
    split at hP'
    · next hj =>
      obtain rfl := Option.some.inj hP'
      rw [hj] at hsent ⊢
      rcases List.mem_append.mp hq with hq | hq
      · exact Or.inl ⟨P, hP, hq⟩
      · exact Or.inr (hsent hq)
    · obtain ⟨P0, hP0, rfl⟩ := Option.map_eq_some_iff.mp hP'
      rcases List.mem_append.mp hq with hq | hq
      · exact Or.inl ⟨P0, hP0, hq⟩
      · exact Or.inr (hsent hq)
  | toPeer i puts =>
    obtain ⟨P, m, rest, s, ms, hP, hm, _, _, hpeers⟩ := next_toPeer h
    rcases peer_of_replaced (hpeers j) hP' with ⟨rfl, rfl⟩ | ⟨_, hold⟩
    · -- the peer has one message less
      exact Or.inl ⟨P, hP, by rw [hm]; exact List.mem_cons_of_mem _ hq⟩
    · exact Or.inl ⟨P', hold, hq⟩
  | tick =>
    obtain ⟨ms, hms, hlead, hpeers⟩ := next_tick h
    rw [hpeers] at hP'
    obtain ⟨P, hP, rfl⟩ := Option.map_eq_some_iff.mp hP'
    rcases List.mem_append.mp hq with hq | hq
    · exact Or.inl ⟨P, hP, hq⟩
    · rw [hlead]
      exact Or.inr (RaftServer.builtFor_of_broadCast hms (mem_sentTo.mp hq))
  | timeout i =>
    obtain ⟨P, hP, _, hpeers⟩ := next_timeout h
    rcases peer_of_replaced (hpeers j) hP' with ⟨rfl, rfl⟩ | ⟨_, hold⟩
    · exact Or.inl ⟨P, hP, hq⟩
    · exact Or.inl ⟨P', hold, hq⟩

end Cluster
end NanoRaft
