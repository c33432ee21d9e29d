import NanoRaft.Lib.System
import NanoRaft.ModApiTheorems

/-!
# One node

A process on its own, from the constructor on, under every sequence of calls into it: the
node may become leader, append entries of its own, accept connections, receive any message
on any connection, broadcast and time out. What holds of every reachable node holds
whatever the other nodes and the network do.

`handle_cases` says which events touch the log and the commit index.
-/

namespace NanoRaft

/-- What can happen to one node. -/
inductive NodeEvent where
  | becomeLeader
  | appendCfgLog (put : PutResult) (strHost : Bytes) (iRaftPort iNodeID : Int32)
  | accept (fd : ℕ) (addr : Bytes)
  /-- The message `m` arrives on connection `fd`. -/
  | message (puts : Puts) (fd : ℕ) (m : Message)
  | broadCast
  | timeout

namespace RaftServer

/-- One event of the node. -/
def handle (s : RaftServer) : NodeEvent → Result (RaftServer × Sends)
  | .becomeLeader => s.becomeLeader
  | .appendCfgLog put strHost iRaftPort iNodeID =>
    .ok (s.appendCfgLog put strHost iRaftPort iNodeID, [])
  | .accept fd addr => .ok (s.accept fd addr, [])
  | .message puts fd m => s.proc puts fd m
  | .broadCast => do
    let ms ← s.broadCastAppendEntries
    pure (s, ms)
  | .timeout => .ok (s.heartBeatTimeout, [])

/-- The runs of a node between two restarts. -/
def node : System RaftServer NodeEvent where
  init s := ∃ disk, s = .new disk
  next s e := (s.handle e).toOption.map Prod.fst

theorem node_next_eq_some {s s' : RaftServer} {e : NodeEvent} :
    node.next s e = some s' ↔ ∃ ms, s.handle e = .ok (s', ms) := by
  show (s.handle e).toOption.map Prod.fst = some s' ↔ _
  rw [Option.map_eq_some_iff]
  simp [Except.toOption_eq_some]

/-- A tick of the leader timer only sends. -/
theorem handle_broadCast {s s' : RaftServer} {ms : Sends}
    (h : s.handle .broadCast = .ok (s', ms)) :
    s' = s ∧ s.broadCastAppendEntries = .ok ms := by
  obtain ⟨bs, hbs, h⟩ := Except.bind_eq_ok.mp h
  rw [Except.pure_eq_ok, Prod.mk.injEq] at h
  obtain ⟨rfl, rfl⟩ := h
  exact ⟨rfl, hbs⟩

/-- The events that touch the log or the commit index: an `appendentries_q`, an
`appendentries_r`, and those that only extend the log. -/
theorem handle_cases {s s' : RaftServer} {e : NodeEvent} {ms : Sends}
    (h : s.handle e = .ok (s', ms)) :
    (∃ puts fd q r, e = .message puts fd (.appendentries_q q) ∧
      s.appendEntriesQ puts q = .ok (s', r)) ∨
    (∃ puts fd r, e = .message puts fd (.appendentries_r r) ∧
      s.appendEntriesR puts fd r = .ok s') ∨
    (s'.commitIndex = s.commitIndex ∧ s.entries <+: s'.entries ∧ s'.logs = s.logs) := by
  cases e with
  | becomeLeader =>
    obtain ⟨proxys, rfl⟩ := becomeLeader_frame h
    exact Or.inr (Or.inr ⟨rfl, List.prefix_refl _, rfl⟩)
  | appendCfgLog put strHost iRaftPort iNodeID =>
    injection h with h
    injection h with h _
    obtain ⟨db, happ, _⟩ := appendCfgLog_frame put s strHost iRaftPort iNodeID
    rw [← h, happ]
    exact Or.inr (Or.inr ⟨rfl, List.prefix_append _ _, rfl⟩)
  | accept fd addr =>
    injection h with h
    injection h with h _
    rw [← h]
    exact Or.inr (Or.inr ⟨rfl, List.prefix_refl _, rfl⟩)
  | message puts fd m =>
    cases m with
    | handshake_q q =>
      refine Or.inr (Or.inr ?_)
      rcases handshakeQ_cases h with ⟨_, rfl, _⟩ | ⟨_, rfl, _⟩ | ⟨_, ⟨old, _, hret⟩, _⟩ |
        ⟨_, _, ⟨c, _, hwel⟩, _⟩
      · exact ⟨rfl, List.prefix_refl _, rfl⟩
      · exact ⟨rfl, List.prefix_refl _, rfl⟩
      · rw [hret.frame]
        exact ⟨rfl, List.prefix_refl _, rfl⟩
      · -- the entry of the new node is appended
        refine ⟨by rw [hwel.frame], ?_, by rw [hwel.frame]⟩
        rw [hwel.entries]
        exact List.prefix_append _ _
    | handshake_r r =>
      injection h with h
      injection h with h _
      rw [← h]
      exact Or.inr (Or.inr ⟨rfl, List.prefix_refl _, rfl⟩)
    | appendentries_q q =>
      obtain ⟨r, ht, _⟩ := proc_appendEntriesQ h
      exact Or.inl ⟨puts, fd, q, r, rfl, ht⟩
    | appendentries_r r =>
      exact Or.inr (Or.inl ⟨puts, fd, r, rfl, (proc_appendEntriesR h).1⟩)
  | broadCast =>
    rw [(handle_broadCast h).1]
    exact Or.inr (Or.inr ⟨rfl, List.prefix_refl _, rfl⟩)
  | timeout =>
    injection h with h
    injection h with h _
    rw [← h]
    exact Or.inr (Or.inr ⟨rfl, List.prefix_refl _, rfl⟩)

/-- The deprecated log stays empty: `AppendLog` has no caller. -/
theorem logs_of_reachable {C : RaftServer → NodeEvent → Prop} {s : RaftServer}
    (h : node.Reachable C s) : s.logs = [] := by
  apply h.invariant (I := fun s => s.logs = [])
  · intro s hs
    obtain ⟨disk, rfl⟩ := hs
    rfl
  · intro s e s' _ hlogs _ hn
    obtain ⟨ms, hn⟩ := node_next_eq_some.mp hn
    -- only a message can touch the deprecated log, and each handler leaves it empty
    rcases handle_cases hn with ⟨puts, fd, q, r, _, hq⟩ | ⟨puts, fd, r, _, hr⟩ | ⟨_, _, hl⟩
    · exact (appendEntriesQ_of_logs hlogs hq).2
    · rcases appendEntriesR_cases hr with ⟨_, rfl⟩ | ⟨_, b, hb⟩
      · exact hlogs
      · obtain ⟨k, rfl⟩ := changeCommitIndex_frame hb
        rw [countReply_frame]
        exact hlogs
    · rw [hl, hlogs]

end RaftServer
end NanoRaft
