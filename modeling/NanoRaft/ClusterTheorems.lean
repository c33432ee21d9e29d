import NanoRaft.Cluster
import NanoRaft.ModApiTheorems

/-!
# What one event of the cluster does

One inversion lemma for each event (`next_join`, `next_toLeader`, `next_toPeer`,
`next_tick`, `next_timeout`), which say that an event is one handler call of one process,
and where each peer is found afterwards (`getElem?_send`, `getElem?_setPeer`,
`peer_of_join`, `peer_of_replaced`). `next_leader` says which events touch the start node.
-/

namespace NanoRaft
namespace Cluster

variable {c c' : Cluster} {i j : ℕ} {puts : Puts}

/-! ## Peers after an event -/

theorem getElem?_send (c : Cluster) (ms : Sends) (j : ℕ) :
    (c.send ms).peers[j]? =
      (c.peers[j]?).map fun p => { p with toPeer := p.toPeer ++ sentTo ms j } := by
  show (c.peers.mapIdx _)[j]? = _
  rw [List.getElem?_mapIdx]

/-- Replacing peer `i`, which exists, leaves the others in place. -/
theorem getElem?_setPeer {p : Peer} (hp : c.peers[i]? = some p) (p' : Peer) (j : ℕ) :
    (c.setPeer i p').peers[j]? = if j = i then some p' else c.peers[j]? := by
  have hlt : i < c.peers.length := (List.getElem?_eq_some_iff.mp hp).1
  show (c.peers.set i p')[j]? = _
  rw [List.getElem?_set]
  by_cases hj : j = i
  · rw [if_pos hj, if_pos hj.symm, if_pos hlt]
  · rw [if_neg hj, if_neg fun h => hj h.symm]

/-- A peer after an event that replaced peer `i`. -/
theorem peer_of_replaced {P₁ P' : Peer}
    (hpeers : c'.peers[j]? = if j = i then some P₁ else c.peers[j]?)
    (hP' : c'.peers[j]? = some P') : (j = i ∧ P' = P₁) ∨ (j ≠ i ∧ c.peers[j]? = some P') := by
  rw [hpeers] at hP'
  split at hP'
  · next hj => exact Or.inl ⟨hj, (Option.some.inj hP').symm⟩
  · next hj => exact Or.inr ⟨hj, hP'⟩

theorem mem_sentTo {ms : Sends} {m : Message} : m ∈ sentTo ms i ↔ (i, m) ∈ ms := by
  unfold sentTo
  rw [List.mem_map]
  constructor
  · intro h
    obtain ⟨⟨k, m'⟩, hmem, rfl⟩ := h
    rw [List.mem_filter, decide_eq_true_iff] at hmem
    obtain ⟨hmem, rfl⟩ := hmem
    exact hmem
  · intro h
    exact ⟨(i, m), List.mem_filter.mpr ⟨h, by simp⟩, rfl⟩

theorem listens_iff :
    c.listens i = true ↔ ∃ cn, c.leader.conns.find? i = some cn ∧ cn.reading = true := by
  unfold listens
  cases c.leader.conns.find? i with
  | none => simp
  | some cn => simp

/-! ## The events -/

theorem next_join {disk : Disk} {addr : Bytes} {raftPort nodeID : UInt32}
    (h : c.next (.join disk addr raftPort nodeID) = some c') :
    c'.leader = c.leader.accept c.peers.length addr ∧
    c'.peers = c.peers ++ [⟨.launchJoin disk 0 RaftServer.startHost raftPort, [],
      [.handshake_q ⟨raftPort, nodeID⟩]⟩] := by
  obtain rfl := Option.some.inj h
  exact ⟨rfl, rfl⟩

/-- The new peer is the last one. -/
theorem peer_of_join {disk : Disk} {addr : Bytes} {raftPort nodeID : UInt32} {P' : Peer}
    (h : c.next (.join disk addr raftPort nodeID) = some c') (hP' : c'.peers[j]? = some P') :
    c.peers[j]? = some P' ∨
      (j = c.peers.length ∧ P' = ⟨.launchJoin disk 0 RaftServer.startHost raftPort, [],
        [.handshake_q ⟨raftPort, nodeID⟩]⟩) := by
  rw [(next_join h).2] at hP'
  by_cases hj : j < c.peers.length
  · rw [List.getElem?_append_left hj] at hP'
    exact Or.inl hP'
  · rw [List.getElem?_append_right (by omega)] at hP'
    have hlt := (List.getElem?_eq_some_iff.mp hP').1
    have hj' : j = c.peers.length := by
      rw [List.length_singleton] at hlt
      omega
    rw [hj', Nat.sub_self] at hP'
    exact Or.inr ⟨hj', (Option.some.inj hP').symm⟩

/-- The start node handles the next message of connection `i`. -/
theorem next_toLeader (h : c.next (.toLeader i puts) = some c') :
    ∃ p m rest ms, c.peers[i]? = some p ∧ p.toLeader = m :: rest ∧ c.listens i = true ∧
      c.leader.proc puts i m = .ok (c'.leader, ms) ∧
      ∀ j, c'.peers[j]? = if j = i
        then some { p with toLeader := rest, toPeer := p.toPeer ++ sentTo ms i }
        else (c.peers[j]?).map fun p => { p with toPeer := p.toPeer ++ sentTo ms j } := by
  simp only [next] at h
  split at h
  · cases h
  · next p hp =>
    split at h
    · cases h
    · next m rest hm =>
      split at h
      · next hl =>
        split at h
        · cases h
        · next s ms hproc =>
          obtain rfl := Option.some.inj h
          refine ⟨p, m, rest, ms, hp, hm, hl, hproc, fun j => ?_⟩
          have hp' : ({ c with leader := s } : Cluster).peers[i]? = some p := hp
          rw [getElem?_send, getElem?_setPeer hp']
          split
          · next hj =>
            rw [hj]
            rfl
          · rfl
      · cases h

/-- Peer `i` handles its next message. -/
theorem next_toPeer (h : c.next (.toPeer i puts) = some c') :
    ∃ p m rest s ms, c.peers[i]? = some p ∧ p.toPeer = m :: rest ∧
      p.server.proc puts 0 m = .ok (s, ms) ∧ c'.leader = c.leader ∧
      ∀ j, c'.peers[j]? = if j = i then some ⟨s, rest, p.toLeader ++ sentTo ms 0⟩
        else c.peers[j]? := by
  simp only [next] at h
  split at h
  · cases h
  · next p hp =>
    split at h
    · cases h
    · next m rest hm =>
      split at h
      · cases h
      · next s ms hproc =>
        obtain rfl := Option.some.inj h
        exact ⟨p, m, rest, s, ms, hp, hm, hproc, rfl, getElem?_setPeer hp _⟩

theorem next_tick (h : c.next .tick = some c') :
    ∃ ms, c.leader.broadCastAppendEntries = .ok ms ∧ c'.leader = c.leader ∧
      ∀ j, c'.peers[j]? =
        (c.peers[j]?).map fun p : Peer => { p with toPeer := p.toPeer ++ sentTo ms j } := by
  simp only [next] at h
  split at h
  · cases h
  · next ms hms =>
    obtain rfl := Option.some.inj h
    exact ⟨ms, hms, rfl, getElem?_send c ms⟩

/-- A message that its handler comes back from is handled. -/
theorem next_toLeader_of {p : Peer} {m : Message} {rest : List Message} {s : RaftServer}
    {ms : Sends} (hp : c.peers[i]? = some p) (hm : p.toLeader = m :: rest) (hl : c.listens i = true)
    (h : c.leader.proc puts i m = .ok (s, ms)) : c.next (.toLeader i puts) =
      some
        ((({ c with leader := s } : Cluster).setPeer i { p with toLeader := rest }).send ms) := by
  simp only [next, hp, hm, hl, h, if_true]

theorem next_toPeer_of {p : Peer} {m : Message} {rest : List Message} {s : RaftServer} {ms : Sends}
    (hp : c.peers[i]? = some p) (hm : p.toPeer = m :: rest)
    (h : p.server.proc puts 0 m = .ok (s, ms)) : c.next (.toPeer i puts) =
      some (c.setPeer i ⟨s, rest, p.toLeader ++ sentTo ms 0⟩) := by
  simp only [next, hp, hm, h]

/-- After a message to the start node a peer has what it had, and what it is sent. -/
theorem peer_of_toLeader {p P' : Peer} {m : Message} {rest : List Message} {ms : Sends}
    (hp : c.peers[i]? = some p) (hm : p.toLeader = m :: rest)
    (hpeers : c'.peers[j]? = if j = i
      then some { p with toLeader := rest, toPeer := p.toPeer ++ sentTo ms i }
      else (c.peers[j]?).map fun p => { p with toPeer := p.toPeer ++ sentTo ms j })
    (hP' : c'.peers[j]? = some P') :
    ∃ P : Peer, c.peers[j]? = some P ∧ P'.server = P.server ∧
      P'.toPeer = P.toPeer ++ sentTo ms j ∧ ∀ m' ∈ P'.toLeader, m' ∈ P.toLeader := by
  rw [hpeers] at hP'
  split_ifs at hP' with hj
  · obtain rfl := Option.some.inj hP'
    rw [hj]
    refine ⟨p, hp, rfl, rfl, fun m' hm' => ?_⟩
    rw [hm]
    exact List.mem_cons_of_mem m hm'
  · obtain ⟨P, hP, rfl⟩ := Option.map_eq_some_iff.mp hP'
    exact ⟨P, hP, rfl, rfl, fun m' hm' => hm'⟩

/-- After a broadcast likewise. -/
theorem peer_of_tick {P' : Peer} {ms : Sends}
    (hpeers : c'.peers[j]? =
      (c.peers[j]?).map fun p : Peer => { p with toPeer := p.toPeer ++ sentTo ms j })
    (hP' : c'.peers[j]? = some P') :
    ∃ P : Peer, c.peers[j]? = some P ∧ P' = { P with toPeer := P.toPeer ++ sentTo ms j } := by
  rw [hpeers] at hP'
  obtain ⟨P, hP, rfl⟩ := Option.map_eq_some_iff.mp hP'
  exact ⟨P, hP, rfl⟩

theorem next_timeout (h : c.next (.timeout i) = some c') :
    ∃ p, c.peers[i]? = some p ∧ c'.leader = c.leader ∧
      ∀ j, c'.peers[j]? = if j = i then some { p with server := p.server.heartBeatTimeout }
        else c.peers[j]? := by
  simp only [next] at h
  split at h
  · cases h
  · next p hp =>
    split at h
    · obtain rfl := Option.some.inj h
      exact ⟨p, hp, rfl, getElem?_setPeer hp _⟩
    · cases h

/-- The start node changes when it accepts a connection or reads a message. -/
theorem next_leader {e : Event} (h : c.next e = some c') :
    c'.leader = c.leader ∨ (∃ addr, c'.leader = c.leader.accept c.peers.length addr) ∨
      ∃ i puts, e = .toLeader i puts := by
  cases e with
  | join disk addr raftPort nodeID => exact Or.inr (Or.inl ⟨addr, (next_join h).1⟩)
  | toLeader i puts => exact Or.inr (Or.inr ⟨i, puts, rfl⟩)
  | toPeer i puts =>
    obtain ⟨_, _, _, _, _, _, _, _, hlead, _⟩ := next_toPeer h
    exact Or.inl hlead
  | tick =>
    obtain ⟨_, _, hlead, _⟩ := next_tick h
    exact Or.inl hlead
  | timeout i =>
    obtain ⟨_, _, hlead, _⟩ := next_timeout h
    exact Or.inl hlead

end Cluster
end NanoRaft
