import NanoRaft.ClusterCopies

/-!
# How far the followers have committed

A follower moves its commit index to what it is told, or to the last entry of the message if that
is less. What it is told is the start node's commit index at the time of sending.

* `Cluster.commits_behind`: no joined node is ahead of the start node.
-/

namespace NanoRaft

/-- The commit index a message tells is `n` at most. -/
def Message.TellsUpTo (n : UInt32) : Message → Prop
  | .appendentries_q q => q.leadercommit ≤ n
  | _ => True

theorem Message.TellsUpTo.mono {n n' : UInt32} {m : Message} (h : m.TellsUpTo n) (hn : n ≤ n') :
    m.TellsUpTo n' := by
  cases m with
  | appendentries_q q => exact le_trans h hn
  | _ => trivial

namespace RaftServer

variable {s s' : RaftServer} {k fd : ℕ} {m : Message} {ms : Sends} {puts : Puts}

/-- The commit index of the start node is in the log, so that it does not begin anew. -/
theorem LeaderStep.commit_le (h : LeaderStep s fd m s' ms) (hs : s.LogWf) :
    s.commitIndex ≤ s'.commitIndex := by
  cases h with
  | refused q => exact le_refl _
  | retied q old _ hold hret => rw [hret.frame]
  | welcomed q put cn _ bs hlead hnew hwel hbs => rw [hwel.frame]
  | stepDown r hlt => exact le_refl _
  | counted r _ b hb =>
    have hkept : (s.countReply fd r).commitIndex = s.commitIndex := by rw [countReply_frame]
    rcases changeCommitIndex_cases hb with ⟨rfl, _⟩ | ⟨_, ⟨e, he, _⟩, rfl, _⟩
    · rw [hkept]
    · have hlog := (hs.countReply fd r).commit
      have hshort := (hs.countReply fd r).short
      have hlt := (List.getElem?_eq_some_iff.mp he).1
      have hsucc : ((s.countReply fd r).commitIndex + 1).toNat =
          (s.countReply fd r).commitIndex.toNat + 1 := UInt.toNat_succ32 (by omega)
      show s.commitIndex ≤ (s.countReply fd r).commitIndex + 1
      rw [UInt32.le_iff_toNat_le, hsucc, hkept]
      omega

theorem BuiltFor.tellsUpTo (h : s.BuiltFor k m) : m.TellsUpTo s.commitIndex := by
  obtain ⟨_, p, q, _, _, hq, rfl⟩ := h
  show q.leadercommit ≤ s.commitIndex
  rw [(buildAppendEntries_cases hq).2.2.1]

/-- A follower goes as far as it is told. -/
theorem followIndex_le {q : AppendEntriesQ} {n : UInt32} (hs : s.commitIndex ≤ n)
    (hq : q.leadercommit ≤ n) : s.followIndex q ≤ n := by
  unfold followIndex
  split_ifs
  · exact le_trans (min_le_left _ _) hq
  · exact hs

end RaftServer

namespace Cluster

variable {c c' : Cluster} {i : ℕ} {puts : Puts} {e : Event}

/-- No joined node is ahead of the start node, and none is told to be. -/
structure Behind (c : Cluster) : Prop where
  peers : ∀ (j : ℕ) (P : Peer), c.peers[j]? = some P → P.server.commitIndex ≤ c.leader.commitIndex
  toPeer : ∀ (j : ℕ) (P : Peer), c.peers[j]? = some P →
    ∀ m ∈ P.toPeer, m.TellsUpTo c.leader.commitIndex

theorem behind_launched (h : Launched c) : Behind c := by
  obtain ⟨_, _, _, _, _, hnil⟩ := h
  have hpeers : ∀ (j : ℕ) (P : Peer), c.peers[j]? ≠ some P := by
    intro j P hP
    rw [hnil] at hP
    cases hP
  exact ⟨fun j P hP => absurd hP (hpeers j P), fun j P hP => absurd hP (hpeers j P)⟩

theorem behind_join {disk : Disk} {addr : Bytes} {raftPort nodeID : UInt32} (h : Behind c)
    (hn : c.next (.join disk addr raftPort nodeID) = some c') : Behind c' := by
  have hcommit : c'.leader.commitIndex = c.leader.commitIndex := by rw [(next_join hn).1]; rfl
  constructor
  · intro j P hP
    rw [hcommit]
    rcases peer_of_join hn hP with hP | ⟨_, rfl⟩
    · exact h.peers j P hP
    · exact UInt32.le_iff_toNat_le.mpr (Nat.zero_le _)
  · intro j P hP
    rw [hcommit]
    rcases peer_of_join hn hP with hP | ⟨_, rfl⟩
    · exact h.toPeer j P hP
    · exact fun m hm => absurd hm List.not_mem_nil

theorem behind_toLeader (hwf : Wf c) (h : Behind c) (hn : c.next (.toLeader i puts) = some c') :
    Behind c' := by
  obtain ⟨P, m, rest, ms, cn, hP, hm, _, _, hstep, _, _, hpeers⟩ := leaderStep_of_next hwf hn
  have hle := hstep.commit_le hwf.log
  constructor
  · intro j P' hP'
    obtain ⟨P₀, hP₀, hserver, _⟩ := peer_of_toLeader hP hm (hpeers j) hP'
    rw [hserver]
    exact le_trans (h.peers j P₀ hP₀) hle
  · intro j P' hP' m' hm'
    obtain ⟨P₀, hP₀, _, hto, _⟩ := peer_of_toLeader hP hm (hpeers j) hP'
    rw [hto] at hm'
    rcases List.mem_append.mp hm' with hm' | hm'
    · exact (h.toPeer j P₀ hP₀ m' hm').mono hle
    · rcases hstep.sends (mem_sentTo.mp hm') with ⟨_, r, rfl⟩ | hbuilt
      · trivial
      · exact hbuilt.tellsUpTo

theorem behind_toPeer (hwf : Wf c) (h : Behind c) (hn : c.next (.toPeer i puts) = some c') :
    Behind c' := by
  obtain ⟨P, m, rest, s, ms, hP, hm, hproc, hlead, hpeers⟩ := next_toPeer hn
  have hmem : m ∈ P.toPeer := by
    rw [hm]
    exact List.mem_cons_self
  have hserver : s.commitIndex ≤ c.leader.commitIndex := by
    rcases (hwf.peers i P hP).toPeer m hmem with ⟨r, rfl⟩ | ⟨q, rfl, _⟩
    · obtain ⟨rfl, _⟩ := Prod.mk.inj (Except.ok.inj hproc)
      exact h.peers i P hP
    · obtain ⟨r, hq, _⟩ := RaftServer.proc_appendEntriesQ hproc
      rw [RaftServer.appendEntriesQ_commitIndex hq]
      exact RaftServer.followIndex_le (h.peers i P hP) (h.toPeer i P hP _ hmem)
  constructor
  · intro j P' hP'
    rw [hlead]
    rcases peer_of_replaced (hpeers j) hP' with ⟨_, rfl⟩ | ⟨_, hold⟩
    · exact hserver
    · exact h.peers j P' hold
  · intro j P' hP'
    rw [hlead]
    rcases peer_of_replaced (hpeers j) hP' with ⟨_, rfl⟩ | ⟨_, hold⟩
    · exact fun m' hm' => h.toPeer i P hP m' (by rw [hm]; exact List.mem_cons_of_mem m hm')
    · exact h.toPeer j P' hold

theorem behind_tick (h : Behind c) (hn : c.next .tick = some c') : Behind c' := by
  obtain ⟨ms, hms, hlead, hpeers⟩ := next_tick hn
  constructor
  · intro j P' hP'
    obtain ⟨P₀, hP₀, rfl⟩ := peer_of_tick (hpeers j) hP'
    rw [hlead]
    exact h.peers j P₀ hP₀
  · intro j P' hP' m hm
    obtain ⟨P₀, hP₀, rfl⟩ := peer_of_tick (hpeers j) hP'
    rw [hlead]
    rcases List.mem_append.mp hm with hm | hm
    · exact h.toPeer j P₀ hP₀ m hm
    · exact (RaftServer.builtFor_of_broadCast hms (mem_sentTo.mp hm)).tellsUpTo

theorem behind_timeout (h : Behind c) (hn : c.next (.timeout i) = some c') : Behind c' := by
  obtain ⟨P, hP, hlead, hpeers⟩ := next_timeout hn
  constructor
  · intro j P' hP'
    rw [hlead]
    rcases peer_of_replaced (hpeers j) hP' with ⟨_, rfl⟩ | ⟨_, hold⟩
    · exact h.peers i P hP
    · exact h.peers j P' hold
  · intro j P' hP'
    rw [hlead]
    rcases peer_of_replaced (hpeers j) hP' with ⟨_, rfl⟩ | ⟨_, hold⟩
    · exact h.toPeer i P hP
    · exact h.toPeer j P' hold

theorem behind_of_reachable (h : system.Reachable Room c) : Behind c := by
  apply h.invariant (I := Behind)
  · exact fun c hinit => behind_launched hinit
  · intro c e c' hreach hI hroom hn
    have hwf : Wf c := wf_of_reachable (fun _ _ hC => hC) hreach
    cases e with
    | join disk addr raftPort nodeID => exact behind_join hI hn
    | toLeader i puts => exact behind_toLeader hwf hI hn
    | toPeer i puts => exact behind_toPeer hwf hI hn
    | tick => exact behind_tick hI hn
    | timeout i => exact behind_timeout hI hn

/-- **Nobody is ahead of the start node.** In every state of a run a joined node has committed no
more than the start node has, and no message on the way tells it to. -/
theorem commits_behind (h : system.Reachable Room c) :
    (∀ P ∈ c.peers, P.server.commitIndex ≤ c.leader.commitIndex) ∧
      ∀ P ∈ c.peers, ∀ q, .appendentries_q q ∈ P.toPeer →
        q.leadercommit ≤ c.leader.commitIndex := by
  have hbehind := behind_of_reachable h
  constructor
  · intro P hP
    obtain ⟨j, hj⟩ := List.mem_iff_getElem?.mp hP
    exact hbehind.peers j P hj
  · intro P hP q hq
    obtain ⟨j, hj⟩ := List.mem_iff_getElem?.mp hP
    exact hbehind.toPeer j P hj _ hq

instance : ∀ (c : Cluster) (e : Event), Decidable (Room c e)
  | c, .toLeader i _ => inferInstanceAs (Decidable (c.RoomFor i))
  | _, .join .. | _, .toPeer .. | _, .tick | _, .timeout _ => isTrue trivial

/-- The second entry is committed, and the joined node has been told. -/
theorem commits_behind_told : ∃ c : Cluster, c.leader.commitIndex = 1 ∧
    (∃ P ∈ c.peers, P.server.commitIndex = 1) ∧
    ∀ P ∈ c.peers, P.server.commitIndex ≤ c.leader.commitIndex := by
  obtain ⟨c, hc, htest⟩ := System.exists_of_run (C := Room)
    [joins 2, leaderReads 0, peerReads 0, peerReads 0, leaderReads 0, .tick, peerReads 0]
    (fun c => decide (c.leader.commitIndex = 1 ∧ ∃ P ∈ c.peers, P.server.commitIndex = 1))
    reachable_started (by decide +kernel) (by decide +kernel)
  obtain ⟨hlead, hpeer⟩ := of_decide_eq_true htest
  exact ⟨c, hlead, hpeer, (commits_behind hc).1⟩

end Cluster
end NanoRaft
