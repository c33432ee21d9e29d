import NanoRaft.Provenance

/-!
# The exchange of messages

Between two timer expiries or joins the nodes only answer each other. A handshake is answered with
one message for each proxy at most, and these with one reply each, which is not answered.

* `Cluster.traffic`: how many messages are handled at most;
* `Cluster.exchange_ends`: the exchange ends, after that many messages at most.
-/

namespace NanoRaft

/-! ## What a message costs -/

/-- The messages that are handled on account of one, itself included, with `k` proxies. -/
def Message.cost (k : ℕ) : Message → ℕ
  | .handshake_q _ => 2 * k + 2
  | .appendentries_q _ => 2
  | .handshake_r _ | .appendentries_r _ => 1

theorem Message.cost_mono {k k' : ℕ} (h : k ≤ k') (m : Message) : m.cost k ≤ m.cost k' := by
  cases m with
  | handshake_q q =>
    show 2 * k + 2 ≤ 2 * k' + 2
    omega
  | _ => exact le_refl _

/-- The cost of a list of messages. -/
def costs (k : ℕ) (ms : List Message) : ℕ := (ms.map (Message.cost k)).sum

theorem costs_append (k : ℕ) (ms ms' : List Message) :
    costs k (ms ++ ms') = costs k ms + costs k ms' := by
  rw [costs, List.map_append, List.sum_append]
  rfl

theorem costs_mono {k k' : ℕ} (h : k ≤ k') (ms : List Message) : costs k ms ≤ costs k' ms := by
  induction ms with
  | nil => exact le_refl _
  | cons m ms ih => exact Nat.add_le_add (m.cost_mono h) ih

/-- A handshake. -/
def Message.isHandshakeQ : Message → Bool
  | .handshake_q _ => true
  | _ => false

/-- The cost of messages without a handshake. -/
theorem costs_of_no_handshake {ms : List Message} (h : ∀ m ∈ ms, m.isHandshakeQ = false)
    (k k' : ℕ) : costs k ms = costs k' ms := by
  induction ms with
  | nil => rfl
  | cons m ms ih =>
    obtain ⟨hm, hms⟩ := List.forall_mem_cons.mp h
    have hcost : m.cost k = m.cost k' := by
      cases m with
      | handshake_q q => cases hm
      | _ => rfl
    show m.cost k + costs k ms = m.cost k' + costs k' ms
    rw [hcost, ih hms]

namespace RaftServer

variable {s s' : RaftServer} {fd : ℕ} {m : Message} {ms : Sends} {puts : Puts}

/-! ## One handler -/

theorem length_connSend {fd : ℕ} (h : s.connSendAppendEntries fd = .ok ms) : ms.length ≤ 1 := by
  unfold connSendAppendEntries at h
  split at h
  · rw [← Except.ok.inj h]
    exact Nat.zero_le _
  · split at h
    · rw [← Except.ok.inj h]
      exact Nat.zero_le _
    · obtain ⟨q, _, h⟩ := Except.bind_eq_ok.mp h
      rw [← Except.ok.inj h]
      exact le_refl _

/-- A broadcast has one message for each proxy at most. -/
theorem length_broadCastLoop {ps : List RaftProxy} (h : s.broadCastLoop ps = .ok ms) :
    ms.length ≤ ps.length := by
  induction ps generalizing ms with
  | nil =>
    rw [← Except.ok.inj h]
    exact le_refl _
  | cons p ps ih =>
    unfold broadCastLoop at h
    split at h
    · rw [Except.pure_bind_ok] at h
      obtain ⟨rest, hrest, h⟩ := Except.bind_eq_ok.mp h
      rw [← Except.ok.inj h, List.nil_append]
      exact Nat.le_succ_of_le (ih hrest)
    · obtain ⟨first, hfirst, h⟩ := Except.bind_eq_ok.mp h
      obtain ⟨rest, hrest, h⟩ := Except.bind_eq_ok.mp h
      have hone : first.length ≤ 1 := by
        unfold proxySendAppendEntries at hfirst
        split at hfirst
        · rw [← Except.ok.inj hfirst]
          exact Nat.zero_le _
        · exact length_connSend hfirst
      rw [← Except.ok.inj h, List.length_append, List.length_cons]
      have hle := ih hrest
      omega

theorem length_broadCast (h : s.broadCastAppendEntries = .ok ms) : ms.length ≤ s.proxys.size := by
  rw [← OrdMap.length_values]
  exact length_broadCastLoop h

/-- The messages sent, with the receivers left out. -/
def told (ms : Sends) : List Message := ms.map Prod.snd

/-- A broadcast costs two for each proxy. -/
theorem costs_broadCast (h : s.broadCastAppendEntries = .ok ms) (k : ℕ) :
    costs k (told ms) ≤ 2 * s.proxys.size := by
  have hlen := length_broadCast h
  have hall : ∀ x ∈ ms, x.2.cost k = 2 := by
    rintro ⟨fd, m⟩ hx
    obtain ⟨_, _, _, _, _, _, _, _, rfl⟩ := broadCastAppendEntries_mem h hx
    rfl
  have hcosts : costs k (told ms) = 2 * ms.length := by
    have hconst : (told ms).map (Message.cost k) = ms.map fun _ => 2 := by
      rw [told, List.map_map]
      exact List.map_congr_left hall
    rw [costs, hconst, List.map_const', List.sum_replicate, smul_eq_mul, Nat.mul_comm]
  omega

theorem Welcomed.size_le {put : PutResult} {c : Conn} {q : HandshakeQ}
    (h : s.Welcomed put fd c q s') : s'.proxys.size ≤ s.proxys.size + 1 := by
  have heq : s'.proxys = s.proxys.insert q.nodeid { (s.proxys.find? q.nodeid).getD .new with
      state := .IsVoting, connFd := some fd } := by
    apply OrdMap.ext_find?
    intro k
    rw [h.proxys, OrdMap.find?_insert]
  rw [heq]
  exact OrdMap.size_insert_le _ _ _

theorem size_countReply (s : RaftServer) (fd : ℕ) (r : AppendEntriesR) :
    (s.countReply fd r).proxys.size = s.proxys.size := by
  unfold countReply
  split
  · unfold incrProxy
    split
    · rfl
    · exact OrdMap.size_modify _ _ _
  · rfl

/-- **One message.** What is sent on account of it costs less than it does, if a handshake counts
the proxy that it may add, and no handshake is sent. -/
theorem proc_costs (h : s.proc puts fd m = .ok (s', ms)) {k : ℕ}
    (hk : s.proxys.size + m.isHandshakeQ.toNat ≤ k) :
    costs k (told ms) < m.cost k ∧ s'.proxys.size ≤ s.proxys.size + m.isHandshakeQ.toNat := by
  have hone : ∀ b, costs k (told [(fd, .handshake_r ⟨b⟩)]) < (2 * k + 2) := by
    intro b
    show 1 + 0 < 2 * k + 2
    omega
  cases m with
  | handshake_q q =>
    rcases handshakeQ_cases h with ⟨_, rfl, rfl⟩ | ⟨_, rfl, rfl⟩ | ⟨_, ⟨_, _, hret⟩, rfl⟩ |
      ⟨_, _, ⟨c, _, hwel⟩, bs, hbs, rfl⟩
    · exact ⟨Nat.succ_pos _, Nat.le_add_right _ _⟩
    · exact ⟨hone _, Nat.le_add_right _ _⟩
    · refine ⟨hone _, ?_⟩
      rw [hret.frame]
      show (s.proxys.modify _ _).size ≤ _
      rw [OrdMap.size_modify]
      exact Nat.le_add_right _ _
    · have hsize := hwel.size_le
      have hcosts := costs_broadCast hbs k
      refine ⟨?_, hsize⟩
      have hk' : s.proxys.size + 1 ≤ k := hk
      rw [told, List.map_append, costs_append]
      show costs k (told bs) + (1 + 0) < 2 * k + 2
      omega
  | handshake_r r =>
    obtain ⟨rfl, rfl⟩ := Prod.mk.inj (Except.ok.inj h)
    exact ⟨Nat.one_pos, Nat.le_add_right _ _⟩
  | appendentries_q q =>
    obtain ⟨r, hq, rfl⟩ := proc_appendEntriesQ h
    refine ⟨Nat.one_lt_two, ?_⟩
    obtain ⟨_, _, _, _, _, _, _, hs'⟩ := appendEntriesQ_frame hq
    rw [hs']
    exact Nat.le_add_right _ _
  | appendentries_r r =>
    obtain ⟨hr, rfl⟩ := proc_appendEntriesR h
    refine ⟨Nat.one_pos, le_of_eq ?_⟩
    rcases appendEntriesR_cases hr with ⟨_, rfl⟩ | ⟨_, b, hb⟩
    · rfl
    · obtain ⟨k, rfl⟩ := changeCommitIndex_frame hb
      exact size_countReply s fd r

end RaftServer

namespace Cluster

variable {c c' : Cluster} {i : ℕ} {puts : Puts}

/-! ## The messages under way -/

/-- The handshakes of a connection that are not handled. -/
def greets (P : Option Peer) : ℕ := P.elim 0 fun P => P.toLeader.countP Message.isHandshakeQ

def handshakes (c : Cluster) : ℕ := ∑ j ∈ Finset.range c.peers.length, greets c.peers[j]?

/-- The cost of both directions of a connection. -/
def load (k : ℕ) (P : Option Peer) : ℕ := P.elim 0 fun P => costs k P.toPeer + costs k P.toLeader

/-- How many messages are handled at most, if no timer expires and nobody joins. -/
def traffic (c : Cluster) : ℕ :=
  ∑ j ∈ Finset.range c.peers.length, load (c.leader.proxys.size + c.handshakes) c.peers[j]?

/-- The start node sends no handshake. -/
def Answering (c : Cluster) : Prop :=
  ∀ (j : ℕ) (P : Peer), c.peers[j]? = some P → ∀ m ∈ P.toPeer, Message.isHandshakeQ m = false

/-- The handling of a message. -/
def Handles (_ : Cluster) : Event → Prop
  | .toLeader _ _ | .toPeer _ _ => True
  | .join _ _ _ _ | .tick | .timeout _ => False

/-- Every message goes to one connection at most. -/
theorem costs_sentTo_le (k : ℕ) (ms : Sends) (n : ℕ) :
    ∑ j ∈ Finset.range n, costs k (sentTo ms j) ≤ costs k (RaftServer.told ms) := by
  induction ms with
  | nil => exact le_of_eq (Finset.sum_eq_zero fun _ _ => rfl)
  | cons x ms ih =>
    obtain ⟨fd, m⟩ := x
    have hsplit : ∀ j, costs k (sentTo ((fd, m) :: ms) j) =
        (if fd = j then m.cost k else 0) + costs k (sentTo ms j) := by
      intro j
      unfold sentTo
      by_cases hj : fd = j
      · rw [List.filter_cons_of_pos (by simpa using hj), if_pos hj]
        rfl
      · rw [List.filter_cons_of_neg (by simpa using hj), if_neg hj, Nat.zero_add]
    have hone : ∑ j ∈ Finset.range n, (if fd = j then m.cost k else 0) ≤ m.cost k := by
      rw [Finset.sum_ite_eq]
      split_ifs
      · exact le_refl _
      · exact Nat.zero_le _
    rw [Finset.sum_congr rfl fun j _ => hsplit j, Finset.sum_add_distrib]
    exact Nat.add_le_add hone ih

/-- What one summand loses and all gain. -/
theorem sum_lt {n i a b : ℕ} {f g e : ℕ → ℕ} (hi : i < n)
    (h : ∀ j, f j + (if i = j then a else 0) ≤ g j + e j) (he : ∑ j ∈ Finset.range n, e j ≤ b)
    (hab : b < a) : ∑ j ∈ Finset.range n, f j < ∑ j ∈ Finset.range n, g j := by
  have hsum := Finset.sum_le_sum fun j (_ : j ∈ Finset.range n) => h j
  rw [Finset.sum_add_distrib, Finset.sum_add_distrib, Finset.sum_ite_eq,
    if_pos (Finset.mem_range.mpr hi)] at hsum
  omega

theorem length_peers_eq (h : ∀ j : ℕ, (c'.peers[j]?).isSome = (c.peers[j]?).isSome) :
    c'.peers.length = c.peers.length := by
  have hnone : ∀ j, c'.peers.length ≤ j ↔ c.peers.length ≤ j := by
    intro j
    rw [← List.getElem?_eq_none_iff, ← List.getElem?_eq_none_iff, ← Option.not_isSome_iff_eq_none,
      ← Option.not_isSome_iff_eq_none, h j]
  exact le_antisymm ((hnone _).mpr (le_refl _)) ((hnone _).mp (le_refl _))

/-- A handler sends no handshake. -/
theorem sent_no_handshake {s s' : RaftServer} {fd : ℕ} {m : Message} {ms : Sends}
    (h : s.proc puts fd m = .ok (s', ms)) (k : ℕ) :
    ∀ m' ∈ sentTo ms k, m'.isHandshakeQ = false := by
  intro m' hm'
  have hown := RaftServer.proc_sends h (mem_sentTo.mp hm')
  cases m' with
  | handshake_q q => exact hown.elim
  | _ => rfl

/-- **The start node** handles a message. -/
theorem traffic_toLeader (hA : Answering c) (h : c.next (.toLeader i puts) = some c') :
    Answering c' ∧ traffic c' < traffic c := by
  obtain ⟨p, m, rest, ms, hp, hm, _, hproc, hpeers⟩ := next_toLeader h
  have hi : i < c.peers.length := (List.getElem?_eq_some_iff.mp hp).1
  have hlen : c'.peers.length = c.peers.length := by
    apply length_peers_eq
    intro j
    rw [hpeers]
    split_ifs with hj
    · rw [hj, hp]
      rfl
    · exact Option.isSome_map
  -- the handshake, if it is one, is off the connection, and has added a proxy at most
  have hgreets : c'.handshakes + m.isHandshakeQ.toNat = c.handshakes := by
    have hone : ∀ j, greets c'.peers[j]? + (if i = j then m.isHandshakeQ.toNat else 0) =
        greets c.peers[j]? := by
      intro j
      rw [hpeers]
      by_cases hj : j = i
      · rw [if_pos hj, if_pos hj.symm, hj, hp]
        show rest.countP Message.isHandshakeQ + _ = p.toLeader.countP _
        rw [hm, List.countP_cons]
        cases m.isHandshakeQ <;> rfl
      · rw [if_neg hj, if_neg fun hij => hj hij.symm]
        cases c.peers[j]? <;> rfl
    have hsum := Finset.sum_congr rfl fun j (_ : j ∈ Finset.range c.peers.length) => hone j
    rw [Finset.sum_add_distrib, Finset.sum_ite_eq, if_pos (Finset.mem_range.mpr hi)] at hsum
    rw [handshakes, hlen]
    exact hsum
  let k := c.leader.proxys.size + c.handshakes
  have hk : c.leader.proxys.size + m.isHandshakeQ.toNat ≤ k := by
    show _ ≤ c.leader.proxys.size + c.handshakes
    omega
  obtain ⟨hcost, hsize⟩ := RaftServer.proc_costs hproc hk
  have hk' : c'.leader.proxys.size + c'.handshakes ≤ k := by
    show _ ≤ c.leader.proxys.size + c.handshakes
    omega
  refine ⟨fun j P hP => ?_, ?_⟩
  · rw [hpeers] at hP
    split_ifs at hP with hj
    · obtain rfl := Option.some.inj hP
      exact List.forall_mem_append.mpr ⟨hA i p hp, sent_no_handshake hproc i⟩
    · obtain ⟨P₀, hP₀, rfl⟩ := Option.map_eq_some_iff.mp hP
      exact List.forall_mem_append.mpr ⟨hA j P₀ hP₀, sent_no_handshake hproc j⟩
  · rw [traffic, hlen]
    refine sum_lt (e := fun j => costs k (sentTo ms j)) hi (fun j => ?_)
      (costs_sentTo_le k ms _) hcost
    rw [hpeers]
    by_cases hj : j = i
    · rw [if_pos hj, if_pos hj.symm, hj, hp]
      show costs _ (p.toPeer ++ sentTo ms i) + costs _ rest + _ ≤
        costs k p.toPeer + costs k p.toLeader + costs k (sentTo ms i)
      have hhead : costs k (m :: rest) = m.cost k + costs k rest := rfl
      rw [costs_append, hm, hhead]
      have htoPeer := costs_mono hk' p.toPeer
      have hsent := costs_mono hk' (sentTo ms i)
      have hrest := costs_mono hk' rest
      omega
    · rw [if_neg hj, if_neg fun hij => hj hij.symm]
      cases c.peers[j]? with
      | none => exact Nat.zero_le _
      | some P =>
        show costs _ (P.toPeer ++ sentTo ms j) + costs _ P.toLeader + 0 ≤
          costs k P.toPeer + costs k P.toLeader + costs k (sentTo ms j)
        rw [costs_append]
        have htoPeer := costs_mono hk' P.toPeer
        have hsent := costs_mono hk' (sentTo ms j)
        have htoLeader := costs_mono hk' P.toLeader
        omega

/-- **A peer** handles a message. -/
theorem traffic_toPeer (hA : Answering c) (h : c.next (.toPeer i puts) = some c') :
    Answering c' ∧ traffic c' < traffic c := by
  obtain ⟨p, m, rest, s, ms, hp, hm, hproc, hlead, hpeers⟩ := next_toPeer h
  have hi : i < c.peers.length := (List.getElem?_eq_some_iff.mp hp).1
  have hlen : c'.peers.length = c.peers.length := by
    apply length_peers_eq
    intro j
    rw [hpeers]
    split_ifs with hj
    · rw [hj, hp]
      rfl
    · rfl
  have hall := hA i p hp
  rw [hm] at hall
  obtain ⟨hm', hrest⟩ := List.forall_mem_cons.mp hall
  have hgreets : c'.handshakes = c.handshakes := by
    rw [handshakes, hlen]
    refine Finset.sum_congr rfl fun j _ => ?_
    rw [hpeers]
    split_ifs with hj
    · rw [hj, hp]
      show (p.toLeader ++ sentTo ms 0).countP Message.isHandshakeQ = p.toLeader.countP _
      have hzero : (sentTo ms 0).countP Message.isHandshakeQ = 0 := by
        rw [List.countP_eq_zero]
        intro m' hm''
        rw [sent_no_handshake hproc 0 m' hm'']
        exact Bool.false_ne_true
      rw [List.countP_append, hzero, Nat.add_zero]
    · rfl
  let k := c.leader.proxys.size + c.handshakes
  have hcost : costs k (RaftServer.told ms) < m.cost k := by
    have hcosts := (RaftServer.proc_costs hproc (le_refl _)).1
    cases m with
    | handshake_q q => cases hm'
    | _ =>
      refine lt_of_eq_of_lt (costs_of_no_handshake (fun m' hm'' => ?_) _ _) hcosts
      obtain ⟨⟨fd, m''⟩, hmem, rfl⟩ := List.mem_map.mp hm''
      exact sent_no_handshake hproc fd _ (mem_sentTo.mpr hmem)
  have hsent : costs k (sentTo ms 0) < m.cost k := by
    have hle := costs_sentTo_le k ms 1
    rw [Finset.sum_range_one] at hle
    exact lt_of_le_of_lt hle hcost
  refine ⟨fun j P hP => ?_, ?_⟩
  · rw [hpeers] at hP
    split_ifs at hP with hj
    · obtain rfl := Option.some.inj hP
      exact hrest
    · exact hA j P hP
  · rw [traffic, hlen, hlead, hgreets]
    refine sum_lt (e := fun j => if i = j then costs k (sentTo ms 0) else 0) hi (fun j => ?_) ?_
      hsent
    · rw [hpeers]
      by_cases hj : j = i
      · rw [if_pos hj, if_pos hj.symm, hj, hp, if_pos rfl]
        show costs k rest + costs k (p.toLeader ++ sentTo ms 0) + m.cost k ≤
          costs k p.toPeer + costs k p.toLeader + costs k (sentTo ms 0)
        have hhead : costs k (m :: rest) = m.cost k + costs k rest := rfl
        rw [costs_append, hm, hhead]
        omega
      · rw [if_neg hj, if_neg fun hij => hj hij.symm, if_neg fun hij => hj hij.symm]
    · rw [Finset.sum_ite_eq]
      split_ifs
      · exact le_refl _
      · exact Nat.zero_le _

/-- Handling messages lowers the traffic. -/
theorem handles_lowers : system.Lowers Handles Answering traffic := by
  intro c e c' hA hC hn
  cases e with
  | toLeader i puts => exact traffic_toLeader hA hn
  | toPeer i puts => exact traffic_toPeer hA hn
  | join disk addr raftPort nodeID => exact hC.elim
  | tick => exact hC.elim
  | timeout i => exact hC.elim

/-! ## Runs -/

theorem answering_tick (hA : Answering c) (h : c.next .tick = some c') : Answering c' := by
  obtain ⟨ms, hms, _, hpeers⟩ := next_tick h
  intro j P hP
  rw [hpeers] at hP
  obtain ⟨P₀, hP₀, rfl⟩ := Option.map_eq_some_iff.mp hP
  refine List.forall_mem_append.mpr ⟨hA j P₀ hP₀, fun m hm => ?_⟩
  obtain ⟨_, _, _, _, _, _, _, _, rfl⟩ :=
    RaftServer.broadCastAppendEntries_mem hms (mem_sentTo.mp hm)
  rfl

theorem answering_of_reachable {C : Cluster → Event → Prop} (h : system.Reachable C c) :
    Answering c := by
  apply h.invariant (I := Answering)
  · rintro c ⟨_, _, _, _, _, hnil⟩ j P hP
    rw [hnil] at hP
    cases hP
  · intro c e c' _ hA _ hn
    cases e with
    | join disk addr raftPort nodeID =>
      intro j P hP
      rcases peer_of_join hn hP with hP | ⟨_, rfl⟩
      · exact hA j P hP
      · exact List.forall_mem_nil _
    | toLeader i puts => exact (traffic_toLeader hA hn).1
    | toPeer i puts => exact (traffic_toPeer hA hn).1
    | tick => exact answering_tick hA hn
    | timeout i =>
      obtain ⟨p, hp, _, hpeers⟩ := next_timeout hn
      intro j P hP
      rcases peer_of_replaced (hpeers j) hP with ⟨rfl, rfl⟩ | ⟨_, hP⟩
      · exact hA j p hp
      · exact hA j P hP

/-- **The end of an exchange.** From any state that a run has reached, the nodes handle `traffic`
messages at most before a timer expires or a process joins, in whatever order, and they do come to
an end: no message is left that a node can handle. -/
theorem exchange_ends (h : system.Reachable System.anyStep c) :
    (∀ es t, system.Allowed Handles c es → system.run c es = some t →
      es.length + traffic t ≤ traffic c) ∧
    ∃ es t, system.Allowed Handles c es ∧ system.run c es = some t ∧
      ∀ e, Handles t e → t.next e = none := by
  have hA := answering_of_reachable h
  exact ⟨fun es t hC hrun => handles_lowers.length_add_le es hA hC hrun,
    handles_lowers.exists_final hA⟩

/-- A handshake, the entries and the welcome, and the reply: four messages, and no fifth. -/
theorem exchange_ends_join : ∃ c t, system.Reachable System.anyStep c ∧ c.traffic = 4 ∧
    system.run c [leaderReads 0, peerReads 0, peerReads 0, leaderReads 0] = some t ∧
      ∀ e u, Handles t e → t.next e ≠ some u := by
  obtain ⟨c, hc, htest⟩ := System.exists_of_run [joins 2]
    (fun c : Cluster => decide (c.traffic = 4) &&
      (system.run c [leaderReads 0, peerReads 0, peerReads 0, leaderReads 0]).isSome)
    (reachable_started (C := System.anyStep)) (System.allowed_anyStep _ _) (by decide +kernel)
  rw [Bool.and_eq_true, decide_eq_true_iff] at htest
  obtain ⟨t, ht⟩ := Option.isSome_iff_exists.mp htest.2
  refine ⟨c, t, hc, htest.1, ht, fun e u he hu => ?_⟩
  have hC : system.Allowed Handles c [leaderReads 0, peerReads 0, peerReads 0, leaderReads 0, e] :=
    ⟨trivial, fun _ _ => ⟨trivial, fun _ _ => ⟨trivial, fun _ _ => ⟨trivial, fun t' ht' =>
      ⟨?_, fun _ _ => trivial⟩⟩⟩⟩⟩
  · have hone : system.run t [e] = some u := Option.bind_eq_some_iff.mpr ⟨u, hu, rfl⟩
    have hfive := System.run_append (S := system)
      [leaderReads 0, peerReads 0, peerReads 0, leaderReads 0] [e] c
    rw [ht, Option.bind_some, hone] at hfive
    have hlong := (exchange_ends hc).1 _ u hC hfive
    simp only [List.length_cons, List.length_nil] at hlong
    omega
  · cases e with
    | toLeader i puts => trivial
    | toPeer i puts => trivial
    | join disk addr raftPort nodeID => exact he.elim
    | tick => exact he.elim
    | timeout i => exact he.elim

end Cluster
end NanoRaft
