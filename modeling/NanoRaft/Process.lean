import NanoRaft.Node

/-!
# What a process sends

A process runs `main`: it is launched by `start` or by `join`, and from then on the event
loop alone calls into the server. Its history is the list of the messages it has put on a
connection, each with the role and the stored term of that moment.

* `leader_sends`: which leader ticks keep `appendentries_q` a message of leaders;
* `terms_durable`: which timeouts keep every term that is sent in the state DB.
-/

namespace NanoRaft

/-- A message put on connection `fd`, with the role and the value under key `"term"` in the
state DB when it was sent. -/
structure Sent where
  role : RaftProxyRole
  stateDB : Option UInt32
  fd : ℕ
  message : Message

/-- The message is an `appendentries_q`. -/
def Sent.IsRequest (x : Sent) : Prop := ∃ q, x.message = .appendentries_q q

/-- A process; `listening` holds in the `start` branch, which accepts connections and has
the leader timer. -/
structure Process where
  server : RaftServer
  listening : Bool
  sent : List Sent

namespace Process

/-- What the event loop can call: the accept callback and the leader timer are set up by
`Run`, a message arrives on a registered connection with read interest, and the heartbeat
timer goes off when it is armed. -/
def enabled (p : Process) : NodeEvent → Bool
  | .becomeLeader => false
  | .appendCfgLog .. => false
  | .accept .. => p.listening
  | .message _ fd _ => (p.server.conns.find? fd).any Conn.reading
  | .broadCast => p.listening
  | .timeout => p.server.timer = .armed

/-- The process after a callback. No handler changes its role or the state DB after a send,
so the messages are recorded with what the handler leaves behind. -/
def record (p : Process) (s : RaftServer) (ms : Sends) : Process :=
  { p with
    server := s
    sent := p.sent ++ ms.map fun m => ⟨s.role, s.stateDB, m.1, m.2⟩ }

/-- One callback; one that ends in a fault has no successor. -/
def next (p : Process) (e : NodeEvent) : Option Process :=
  if p.enabled e then (p.server.handle e).toOption.map fun x => p.record x.1 x.2 else none

/-- The `start` branch of `main` has reached the event loop. -/
def Started (p : Process) : Prop :=
  ∃ put disk iRaftPort iNodeID,
    RaftServer.launchStart put disk iRaftPort iNodeID = .ok p.server ∧
      p.listening = true ∧ p.sent = []

/-- The `join` branch of `main` has reached the event loop. -/
def Joined (p : Process) : Prop :=
  ∃ disk fd szAddress raftPort,
    p.server = .launchJoin disk fd szAddress raftPort ∧ p.listening = false ∧ p.sent = []

/-- The runs of a process launched by `start`. -/
def startSystem : System Process NodeEvent := ⟨Started, next⟩

/-- The runs of a process launched by `start` or by `join`. -/
def system : System Process NodeEvent := ⟨fun p => p.Started ∨ p.Joined, next⟩

end Process

namespace RaftServer

/-! ## What a handler sends -/

/-- A message is of the server's term, and only a broadcast or a leader's answer to a
handshake sends an `appendentries_q`. -/
def Issues (s : RaftServer) (e : NodeEvent) : Message → Prop
  | .handshake_q _ => False
  | .handshake_r _ => True
  | .appendentries_q q => q.term = s.currentTerm ∧ (e = .broadCast ∨ s.role = .Leader)
  | .appendentries_r r => r.term = s.currentTerm

theorem broadCast_issues {s : RaftServer} {e : NodeEvent} {ms : Sends} {x : ℕ × Message}
    (he : e = .broadCast ∨ s.role = .Leader) (h : s.broadCastAppendEntries = .ok ms)
    (hx : x ∈ ms) : s.Issues e x.2 := by
  obtain ⟨_, _, _, q, _, _, _, hq, hm⟩ := broadCastAppendEntries_mem h hx
  rw [hm]
  exact ⟨(buildAppendEntries_cases hq).1, he⟩

/-- Every message of a handler is of the term the handler leaves behind. -/
theorem handle_issues {s s' : RaftServer} {e : NodeEvent} {ms : Sends} {x : ℕ × Message}
    (he : e ≠ .becomeLeader) (h : s.handle e = .ok (s', ms)) (hx : x ∈ ms) :
    s'.Issues e x.2 := by
  cases e with
  | becomeLeader => exact absurd rfl he
  | appendCfgLog | accept | timeout =>
    injection h with h
    injection h with _ h
    rw [← h] at hx
    cases hx
  | message puts fd m =>
    cases m with
    | handshake_q q =>
      rcases handshakeQ_cases h with ⟨_, _, rfl⟩ | ⟨_, _, rfl⟩ | ⟨_, _, rfl⟩ |
        ⟨hlead, _, ⟨c, _, hwel⟩, bs, hbs, rfl⟩
      · cases hx
      · rw [List.mem_singleton.mp hx]
        trivial
      · rw [List.mem_singleton.mp hx]
        trivial
      · -- the new configuration goes out before the answer, and the role has stayed
        rcases List.mem_append.mp hx with hx | hx
        · have hrole : s'.role = .Leader := by rw [hwel.frame, ← hlead]
          exact broadCast_issues (Or.inr hrole) hbs hx
        · rw [List.mem_singleton.mp hx]
          trivial
    | handshake_r r =>
      injection h with h
      injection h with _ h
      rw [← h] at hx
      cases hx
    | appendentries_q q =>
      obtain ⟨r, ht, rfl⟩ := proc_appendEntriesQ h
      rw [List.mem_singleton.mp hx]
      exact (appendEntriesQ_reply ht).1
    | appendentries_r r =>
      rw [(proc_appendEntriesR h).2] at hx
      cases hx
  | broadCast =>
    obtain ⟨rfl, hbs⟩ := handle_broadCast h
    exact broadCast_issues (Or.inl rfl) hbs hx

/-! ## Terms, roles and connections -/

/-- A server that can time out has a connection it reads from, and is no leader. -/
def Answers (s : RaftServer) : Prop :=
  s.timer = .absent ∨ (s.role ≠ .Leader ∧
    ∃ fd cn, s.conns.find? fd = some cn ∧ cn.reading = true)

/-- What a callback other than a timeout does: a role is only given up, a term is only
changed together with the state DB, and a server that answers goes on answering. -/
structure Moves (s s' : RaftServer) : Prop where
  role : s'.role = s.role ∨ s'.role = .Follower
  term : (s'.currentTerm = s.currentTerm ∧ s'.stateDB = s.stateDB) ∨
    s'.stateDB = some s'.currentTerm
  answers : s.Answers → s'.Answers

theorem Moves.of_eq {s s' : RaftServer} (hrole : s'.role = s.role)
    (hterm : s'.currentTerm = s.currentTerm) (hdb : s'.stateDB = s.stateDB)
    (hans : s.Answers → s'.Answers) : Moves s s' :=
  ⟨Or.inl hrole, Or.inl ⟨hterm, hdb⟩, hans⟩

theorem Answers.of_conns {s s' : RaftServer} (hrole : s'.role = s.role ∨ s'.role = .Follower)
    (hconns : s'.conns = s.conns) (htimer : s.timer = .absent → s'.timer = .absent)
    (h : s.Answers) : s'.Answers := by
  rcases h with ht | ⟨hr, hconn⟩
  · exact Or.inl (htimer ht)
  · refine Or.inr ⟨fun hlead => ?_, by rw [hconns]; exact hconn⟩
    rw [hlead] at hrole
    rcases hrole with hrole | hrole
    · exact hr hrole.symm
    · cases hrole

/-- The term check, and whatever follows it without touching role and term. -/
theorem moves_adoptTerm {s s' : RaftServer} {q : AppendEntriesQ} (h : s.currentTerm ≤ q.term)
    (hrole : s'.role = (s.adoptTerm q).role) (hterm : s'.currentTerm = q.term)
    (hdb : s'.stateDB = (s.adoptTerm q).stateDB) (hconns : s'.conns = s.conns)
    (htimer : s.timer = .absent → s'.timer = .absent) : Moves s s' := by
  have hr : s'.role = s.role ∨ s'.role = .Follower := by
    rw [hrole]
    show (if _ then _ else _) = _ ∨ (if _ then _ else _) = _
    by_cases hc : s.currentTerm < q.term ∨ s.role = .Candidate
    · exact Or.inr (if_pos hc)
    · exact Or.inl (if_neg hc)
  refine ⟨hr, ?_, Answers.of_conns hr hconns htimer⟩
  rw [hterm, hdb]
  show (q.term = _ ∧ (if _ then _ else _) = _) ∨ (if _ then _ else _) = _
  by_cases hlt : s.currentTerm < q.term
  · exact Or.inr (if_pos hlt)
  · exact Or.inl ⟨le_antisymm (not_lt.mp hlt) h, if_neg hlt⟩

theorem appendEntriesQ_moves {puts : Puts} {s s' : RaftServer} {q : AppendEntriesQ}
    {r : AppendEntriesR} (h : s.appendEntriesQ puts q = .ok (s', r)) : Moves s s' := by
  rcases appendEntriesQ_cases h with ⟨_, he⟩ | ⟨hle, _, he⟩ | ⟨ha, _, he⟩ | ⟨ha, _, s1, hs1, he⟩
  · have hs' : s' = s.followCommit q := congrArg Prod.fst he
    rw [hs', followCommit_frame]
    exact Moves.of_eq rfl rfl rfl fun hans => hans
  · have hs' : s' = (s.adoptTerm q).followCommit q := congrArg Prod.fst he
    rw [hs', followCommit_frame]
    exact moves_adoptTerm hle rfl rfl rfl rfl fun ht => ht
  · -- a heartbeat re-arms the timer if there is one
    have hs' : s' = (s.adoptTerm q).freshTime.followCommit q := congrArg Prod.fst he
    rw [hs', followCommit_frame]
    exact moves_adoptTerm ha.term rfl rfl rfl rfl fun ht => if_pos ht
  · have hs' : s' = s1.followCommit q := congrArg Prod.fst he
    obtain ⟨db, logs, new, hf⟩ := storeEntries_frame hs1
    rw [hs', followCommit_frame, hf]
    exact moves_adoptTerm ha.term rfl rfl rfl rfl fun ht => ht

theorem appendEntriesR_moves {puts : Puts} {s s' : RaftServer} {fd : ℕ} {r : AppendEntriesR}
    (h : s.appendEntriesR puts fd r = .ok s') : Moves s s' := by
  rcases appendEntriesR_cases h with ⟨_, rfl⟩ | ⟨_, b, hb⟩
  · exact ⟨Or.inr rfl, Or.inr rfl, Answers.of_conns (Or.inr rfl) rfl fun ht => ht⟩
  · obtain ⟨k, rfl⟩ := changeCommitIndex_frame hb
    rw [countReply_frame]
    exact Moves.of_eq rfl rfl rfl fun hans => hans

/-- A leader's handshake: a leader answers only because it has no heartbeat timer. -/
theorem answers_of_leader {s s' : RaftServer} (hlead : s.role = .Leader)
    (htimer : s'.timer = s.timer) (h : s.Answers) : s'.Answers := by
  rcases h with ht | ⟨hrole, _⟩
  · exact Or.inl (htimer.trans ht)
  · exact absurd hlead hrole

theorem handle_moves {s s' : RaftServer} {e : NodeEvent} {ms : Sends} (he : e ≠ .becomeLeader)
    (ht : e ≠ .timeout) (h : s.handle e = .ok (s', ms)) : Moves s s' := by
  cases e with
  | becomeLeader => exact absurd rfl he
  | appendCfgLog put strHost iRaftPort iNodeID =>
    injection h with h
    injection h with h _
    obtain ⟨db, happ, _⟩ := appendCfgLog_frame put s strHost iRaftPort iNodeID
    rw [← h, happ]
    exact Moves.of_eq rfl rfl rfl fun hans => hans
  | accept fd addr =>
    injection h with h
    injection h with h _
    rw [← h]
    refine Moves.of_eq rfl rfl rfl fun hans => ?_
    rcases hans with ht | ⟨hrole, _⟩
    · exact Or.inl ht
    · -- the connection that has just been accepted is read
      refine Or.inr ⟨hrole, fd, ⟨addr, 0, none, true⟩, ?_, rfl⟩
      show (s.conns.insert fd _).find? fd = _
      rw [OrdMap.find?_insert, if_pos rfl]
  | message puts fd m =>
    cases m with
    | handshake_q q =>
      rcases handshakeQ_cases h with ⟨_, rfl, _⟩ | ⟨_, rfl, _⟩ | ⟨hlead, ⟨old, _, hret⟩, _⟩ |
        ⟨hlead, _, ⟨c, _, hwel⟩, _⟩
      · exact Moves.of_eq rfl rfl rfl fun hans => hans
      · exact Moves.of_eq rfl rfl rfl fun hans => hans
      · rw [hret.frame]
        exact Moves.of_eq rfl rfl rfl (answers_of_leader hlead rfl)
      · rw [hwel.frame]
        exact Moves.of_eq rfl rfl rfl (answers_of_leader hlead rfl)
    | handshake_r r =>
      injection h with h
      injection h with h _
      rw [← h]
      exact Moves.of_eq rfl rfl rfl fun hans => hans
    | appendentries_q q =>
      obtain ⟨r, ht, _⟩ := proc_appendEntriesQ h
      exact appendEntriesQ_moves ht
    | appendentries_r r =>
      exact appendEntriesR_moves (proc_appendEntriesR h).1
  | broadCast =>
    rw [(handle_broadCast h).1]
    exact Moves.of_eq rfl rfl rfl fun hans => hans
  | timeout => exact absurd rfl ht

/-! ## Broadcasts that reach nobody -/

/-- A tied connection of this descriptor is registered. -/
def Connected (s : RaftServer) (fd : ℕ) : Prop :=
  ∃ dwID p, (s.conns.find? fd).bind Conn.proxy = some dwID ∧ s.proxys.find? dwID = some p

/-- A proxy that takes part has a tied connection. -/
def HasAudience (s : RaftServer) : Prop :=
  ∃ p ∈ s.proxys.values, p.state ≠ .InActive ∧ ∃ fd, p.connFd = some fd ∧ s.Connected fd

theorem connSendAppendEntries_ne_nil {s : RaftServer} {fd : ℕ} {ms : Sends}
    (h : s.connSendAppendEntries fd = .ok ms) : ms ≠ [] ↔ s.Connected fd := by
  unfold connSendAppendEntries at h
  unfold Connected
  split at h
  · next hid =>
    injection h with h
    simp [← h, hid]
  · next dwID hid =>
    split at h
    · next hp =>
      injection h with h
      simp [← h, hid, hp]
    · next p hp =>
      obtain ⟨q, _, h⟩ := Except.bind_eq_ok.mp h
      rw [Except.pure_eq_ok] at h
      simp [← h, hid, hp]

theorem proxySendAppendEntries_ne_nil {s : RaftServer} {p : RaftProxy} {ms : Sends}
    (h : s.proxySendAppendEntries p = .ok ms) :
    ms ≠ [] ↔ ∃ fd, p.connFd = some fd ∧ s.Connected fd := by
  unfold proxySendAppendEntries at h
  split at h
  · next hfd =>
    injection h with h
    simp [← h, hfd]
  · next fd hfd =>
    rw [connSendAppendEntries_ne_nil h]
    simp [hfd]

/-- A broadcast sends something exactly if somebody can be reached. -/
theorem broadCastAppendEntries_ne_nil {s : RaftServer} {ms : Sends}
    (h : s.broadCastAppendEntries = .ok ms) : ms ≠ [] ↔ s.HasAudience := by
  unfold broadCastAppendEntries at h
  unfold HasAudience
  generalize s.proxys.values = ps at h
  induction ps generalizing ms with
  | nil =>
    injection h with h
    simp [← h]
  | cons p ps ih =>
    rw [broadCastLoop] at h
    simp only [List.mem_cons, exists_eq_or_imp]
    by_cases hin : p.state = .InActive
    · rw [if_pos hin, Except.pure_bind_ok] at h
      obtain ⟨rest, hrest, h⟩ := Except.bind_eq_ok.mp h
      rw [Except.pure_eq_ok, List.nil_append] at h
      rw [← h, ih hrest]
      simp [hin]
    · rw [if_neg hin] at h
      obtain ⟨ms1, h1, h⟩ := Except.bind_eq_ok.mp h
      obtain ⟨rest, hrest, h⟩ := Except.bind_eq_ok.mp h
      rw [Except.pure_eq_ok] at h
      rw [← h, ne_eq, List.append_eq_nil_iff, not_and_or, ← ne_eq, ← ne_eq,
        proxySendAppendEntries_ne_nil h1, ih hrest]
      simp [hin]

end RaftServer

namespace Process

theorem next_eq_some {p p' : Process} {e : NodeEvent} : p.next e = some p' ↔
    p.enabled e = true ∧ ∃ s ms, p.server.handle e = .ok (s, ms) ∧ p.record s ms = p' := by
  rw [next, Option.ite_none_right_eq_some, Option.map_eq_some_iff]
  simp [Except.toOption_eq_some]

/-- What has been sent when a callback is over. -/
theorem mem_record {p : Process} {s : RaftServer} {ms : Sends} {x : Sent} :
    x ∈ (p.record s ms).sent ↔
      x ∈ p.sent ∨ ∃ m ∈ ms, x = ⟨s.role, s.stateDB, m.1, m.2⟩ := by
  rw [record, List.mem_append, List.mem_map]
  simp only [eq_comm]

theorem ne_becomeLeader {p : Process} {e : NodeEvent} (h : p.enabled e = true) :
    e ≠ .becomeLeader := by
  rintro rfl
  cases h

/-! ## Only leaders send `appendentries_q` -/

/-- The leader timer goes off on a leader, or nobody can be reached. -/
def LeaderTicks (p : Process) (e : NodeEvent) : Prop :=
  e = .broadCast → p.server.role = .Leader ∨ ¬ p.server.HasAudience

/-- Nobody becomes leader again. -/
theorem role_of_next {p p' : Process} {e : NodeEvent} (h : p.next e = some p')
    (hlead : p'.server.role = .Leader) : p.server.role = .Leader := by
  obtain ⟨he, s, ms, hs, rfl⟩ := next_eq_some.mp h
  by_cases ht : e = .timeout
  · subst ht
    injection hs with hs
    injection hs with hs _
    rw [← hs] at hlead
    exact hlead
  · rcases (RaftServer.handle_moves (ne_becomeLeader he) ht hs).role with hr | hr
    · rw [← hr]
      exact hlead
    · have hrole : s.role = .Leader := hlead
      rw [hr] at hrole
      cases hrole

/-- A step adds messages, and the requests among them come from a leader. -/
theorem requests_of_next {p p' : Process} {e : NodeEvent} (hC : p.LeaderTicks e)
    (h : p.next e = some p') : ∃ more, p'.sent = p.sent ++ more ∧
      ∀ x ∈ more, x.IsRequest → x.role = .Leader ∧ p.server.role = .Leader := by
  have hkeep := role_of_next h
  obtain ⟨he, s, ms, hs, rfl⟩ := next_eq_some.mp h
  refine ⟨_, rfl, fun x hx hreq => ?_⟩
  obtain ⟨m, hm, rfl⟩ := List.mem_map.mp hx
  obtain ⟨q, hq⟩ := hreq
  have hsent := RaftServer.handle_issues (ne_becomeLeader he) hs hm
  rw [show m.2 = .appendentries_q q from hq] at hsent
  rcases hsent.2 with rfl | hrole
  · -- the timer went off, and something was sent
    obtain ⟨rfl, hbs⟩ := RaftServer.handle_broadCast hs
    have haud := (RaftServer.broadCastAppendEntries_ne_nil hbs).mp (List.ne_nil_of_mem hm)
    rcases hC rfl with hrole | hnone
    · exact ⟨hrole, hrole⟩
    · exact absurd haud hnone
  · exact ⟨hrole, hkeep hrole⟩

/-- A tick that fails the guard sends a request that no leader sent. -/
theorem exists_of_not_leaderTicks {p p' : Process} {e : NodeEvent} (hC : ¬ p.LeaderTicks e)
    (h : p.next e = some p') : ∃ x ∈ p'.sent, x.IsRequest ∧ x.role ≠ .Leader := by
  obtain ⟨_, s, ms, hs, rfl⟩ := next_eq_some.mp h
  simp only [LeaderTicks, Classical.not_imp, not_or, not_not] at hC
  obtain ⟨rfl, hrole, haud⟩ := hC
  obtain ⟨rfl, hbs⟩ := RaftServer.handle_broadCast hs
  obtain ⟨m, hm⟩ := List.exists_mem_of_ne_nil _
    ((RaftServer.broadCastAppendEntries_ne_nil hbs).mpr haud)
  obtain ⟨_, _, _, q, _, _, _, _, hq⟩ := RaftServer.broadCastAppendEntries_mem hbs hm
  exact ⟨_, mem_record.mpr (Or.inr ⟨m, hm, rfl⟩), ⟨q, hq⟩, hrole⟩

/-- No request was sent by a server that is no leader. -/
def LeadersSend (p : Process) : Prop := ∀ x ∈ p.sent, x.IsRequest → x.role = .Leader

theorem leadersSend_of_next {p p' : Process} {e : NodeEvent} (hp : p.LeadersSend)
    (hC : p.LeaderTicks e) (h : p.next e = some p') : p'.LeadersSend := by
  intro x hx hreq
  obtain ⟨more, hsent, hmore⟩ := requests_of_next hC h
  rw [hsent] at hx
  rcases List.mem_append.mp hx with hx | hx
  · exact hp x hx hreq
  · exact (hmore x hx hreq).1

/-- **Only a leader sends `appendentries_q`** in a run whose leader ticks find a leader or
nobody to send to, and none is sent after a step down; a tick that finds neither breaks it. -/
theorem leader_sends {p : Process} (h : startSystem.Reachable LeaderTicks p) :
    p.LeadersSend ∧
    (p.server.role ≠ .Leader → ∀ p', startSystem.Runs LeaderTicks p p' →
      ∃ more, p'.sent = p.sent ++ more ∧ ∀ x ∈ more, ¬ x.IsRequest) ∧
    (∀ e p', p.next e = some p' → (p'.LeadersSend ↔ p.LeaderTicks e)) := by
  have hall : p.LeadersSend := by
    apply h.invariant (I := LeadersSend)
    · intro p hp x hx
      obtain ⟨_, _, _, _, _, _, hsent⟩ := hp
      rw [hsent] at hx
      cases hx
    · exact fun p e p' _ hp hC hn => leadersSend_of_next hp hC hn
  refine ⟨hall, fun hrole p' hrun => ?_, fun e p' hn => ⟨fun hp' => ?_, fun hC => ?_⟩⟩
  · -- along the run the role stays away from leader
    have hinv : p'.server.role ≠ .Leader ∧
        ∃ more, p'.sent = p.sent ++ more ∧ ∀ x ∈ more, ¬ x.IsRequest := by
      induction hrun with
      | refl => exact ⟨hrole, [], (List.append_nil _).symm, fun x hx => by cases hx⟩
      | tail _ hs ih =>
        obtain ⟨hr, more, hsent, hmore⟩ := ih
        obtain ⟨e, hC, hn⟩ := hs
        obtain ⟨new, hsent', hnew⟩ := requests_of_next hC hn
        refine ⟨fun hl => hr (role_of_next hn hl), more ++ new, ?_, fun x hx hreq => ?_⟩
        · rw [hsent', hsent, List.append_assoc]
        · rcases List.mem_append.mp hx with hx | hx
          · exact hmore x hx hreq
          · exact hr (hnew x hx hreq).2
    exact hinv.2
  · by_contra hC
    obtain ⟨x, hx, hreq, hne⟩ := exists_of_not_leaderTicks hC hn
    exact hne (hp' x hx hreq)
  · exact leadersSend_of_next hall hC hn

/-- A start node on empty directories. -/
def startNode : Process where
  server := ({ RaftServer.new ⟨none, .empty⟩ with role := .Leader } : RaftServer).appendCfgLog
    ⟨true, []⟩ RaftServer.startHost 7777 1
  listening := true
  sent := []

theorem reachable_startNode {C : Process → NodeEvent → Prop} :
    startSystem.Reachable C startNode :=
  System.reachable_init ⟨⟨true, []⟩, ⟨none, .empty⟩, 7777, 1, rfl, rfl, rfl⟩

/-- Node `nodeID` connects and hands in its handshake. -/
def joins (nodeID : UInt32) : List NodeEvent :=
  [.accept 0 RaftServer.startHost, .message .allOk 0 (.handshake_q ⟨7778, nodeID⟩)]

/-- What the start node sends to its first peer. -/
def firstRequest (term : UInt32) : AppendEntriesQ where
  term := term
  prelogindex := 0
  prelogterm := 0
  leadercommit := 0
  entries := [⟨.CFGADD, 0, 1, 7777, RaftServer.startHost, 0⟩,
    ⟨.CFGADD, 0, 2, 7778, RaftServer.startHost, 0⟩]

/-- A leader that has answered a handshake and gone through a tick. -/
theorem leader_sends_tick :
    ∃ p, startSystem.Reachable LeaderTicks p ∧ p.sent.length = 3 ∧ p.LeadersSend := by
  have hinit : startSystem.Reachable LeaderTicks startNode := reachable_startNode
  obtain ⟨p, hp, htest⟩ := System.exists_of_run (joins 2)
    (fun p : Process => p.server.role = .Leader ∧ p.sent.length = 2 ∧
      (p.next .broadCast).any fun p' => p'.sent.length = 3)
    hinit ⟨by rintro ⟨⟩, fun _ _ => ⟨by rintro ⟨⟩, fun _ _ => trivial⟩⟩ (by decide +kernel)
  obtain ⟨hrole, _, htick⟩ := of_decide_eq_true htest
  obtain ⟨p', hn, hlen⟩ := (Option.any_eq_true _ _).mp htick
  have hp' : startSystem.Reachable LeaderTicks p' := hp.step (fun _ => Or.inl hrole) hn
  exact ⟨p', hp', of_decide_eq_true hlen, (leader_sends hp').1⟩

/-- A reply of a higher term makes the leader step down; its timer goes on, and it sends the
old log in the new term. -/
theorem follower_sends : ¬ ∀ p, startSystem.Reachable System.anyStep p → p.LeadersSend := by
  intro hall
  obtain ⟨p, hp, htest⟩ := System.exists_of_run
    (joins 2 ++ [.message .allOk 0 (.appendentries_r ⟨5, false, false⟩), .broadCast])
    (fun p : Process => ∃ x ∈ p.sent,
      x.role = .Follower ∧ x.message = .appendentries_q (firstRequest 5))
    reachable_startNode (System.allowed_anyStep _ _) (by decide +kernel)
  obtain ⟨x, hx, hrole, hm⟩ := of_decide_eq_true htest
  have hlead := hall p hp x hx ⟨_, hm⟩
  rw [hrole] at hlead
  cases hlead

end Process

/-! ## Terms are stored before they are used -/

/-- The term a message carries. -/
def Message.term? : Message → Option UInt32
  | .handshake_q _ => none
  | .handshake_r _ => none
  | .appendentries_q q => some q.term
  | .appendentries_r r => some r.term

/-- When the message was sent, the state DB held its term or a later one. -/
def Sent.Durable (x : Sent) : Prop := ∀ t, x.message.term? = some t → 0 < t →
  ∃ d, x.stateDB = some d ∧ t ≤ d

namespace RaftServer

/-- The state DB holds the term `t` or a later one, unless `t` is 0. -/
def Stores (s : RaftServer) (t : UInt32) : Prop := 0 < t → ∃ d, s.stateDB = some d ∧ t ≤ d

theorem Moves.stores {s s' : RaftServer} (h : Moves s s') (hs : s.Stores s.currentTerm) :
    s'.Stores s'.currentTerm := by
  intro hpos
  rcases h.term with ⟨ht, hdb⟩ | hdb
  · rw [ht] at hpos ⊢
    rw [hdb]
    exact hs hpos
  · exact ⟨s'.currentTerm, hdb, le_refl _⟩

theorem Issues.term {s : RaftServer} {e : NodeEvent} {m : Message} {t : UInt32}
    (h : s.Issues e m) (ht : m.term? = some t) : t = s.currentTerm := by
  cases m with
  | handshake_q q => cases ht
  | handshake_r r => cases ht
  | appendentries_q q => rw [← Option.some.inj ht, h.1]
  | appendentries_r r => rw [← Option.some.inj ht, show r.term = s.currentTerm from h]

/-- A stale message is answered in the server's own term. -/
theorem appendEntriesQ_of_stale {puts : Puts} {s : RaftServer} {q : AppendEntriesQ}
    (h : q.term < s.currentTerm) :
    s.appendEntriesQ puts q = .ok (s.sendreponse q false false) := by
  have hcheck : s.checkTerm puts q = .ok none := by
    unfold checkTerm
    rw [if_neg fun hc => absurd hc.2 (ne_of_gt h), if_neg (not_lt_of_gt h), if_pos h]
  unfold appendEntriesQ
  rw [hcheck]
  rfl

end RaftServer

namespace Process

/-- The heartbeat timer goes off only if the state DB holds the next term already. -/
def StoredTimeouts (p : Process) (e : NodeEvent) : Prop :=
  e = .timeout → p.server.Stores (p.server.currentTerm + 1)

/-- The terms of all messages were stored when they were sent. -/
def TermsDurable (p : Process) : Prop := ∀ x ∈ p.sent, x.Durable

/-- The invariant of the runs whose timeouts are stored. -/
structure Stored (p : Process) : Prop where
  term : p.server.Stores p.server.currentTerm
  answers : p.server.Answers
  sent : p.TermsDurable

theorem stored_started {p : Process} (h : p.Started) : p.Stored := by
  obtain ⟨put, disk, port, id, hs, _, hsent⟩ := h
  obtain ⟨db, happ, _⟩ := RaftServer.appendCfgLog_frame put
    ({ RaftServer.new disk with role := .Leader } : RaftServer) RaftServer.startHost port id
  have hserver := (RaftServer.launchStart_eq_ok hs).trans happ
  refine ⟨?_, ?_, ?_⟩
  · rw [hserver]
    exact fun hpos => absurd hpos (lt_irrefl _)
  · rw [hserver]
    exact Or.inl rfl
  · intro x hx
    rw [hsent] at hx
    cases hx

theorem stored_joined {p : Process} (h : p.Joined) : p.Stored := by
  obtain ⟨disk, fd, addr, port, hs, _, hsent⟩ := h
  refine ⟨?_, ?_, ?_⟩
  · rw [hs]
    exact fun hpos => absurd hpos (lt_irrefl _)
  · -- the connection to the start node
    rw [hs]
    exact Or.inr ⟨RaftProxyRole.noConfusion, fd, ⟨addr, port, none, true⟩, if_pos rfl, rfl⟩
  · intro x hx
    rw [hsent] at hx
    cases hx

theorem stored_of_next {p p' : Process} {e : NodeEvent} (hp : p.Stored)
    (hC : p.StoredTimeouts e) (h : p.next e = some p') : p'.Stored := by
  obtain ⟨he, s, ms, hs, rfl⟩ := next_eq_some.mp h
  have hserver : s.Stores s.currentTerm ∧ s.Answers := by
    by_cases ht : e = .timeout
    · subst ht
      have harmed : p.server.timer = .armed := of_decide_eq_true he
      injection hs with hs
      injection hs with hs _
      rw [← hs]
      refine ⟨hC rfl, ?_⟩
      rcases hp.answers with ha | hconn
      · rw [ha] at harmed
        cases harmed
      · exact Or.inr hconn
    · have hm := RaftServer.handle_moves (ne_becomeLeader he) ht hs
      exact ⟨hm.stores hp.term, hm.answers hp.answers⟩
  refine ⟨hserver.1, hserver.2, fun x hx => ?_⟩
  rcases mem_record.mp hx with hx | ⟨m, hm, rfl⟩
  · exact hp.sent x hx
  · intro t ht hpos
    rw [(RaftServer.handle_issues (ne_becomeLeader he) hs hm).term ht] at hpos ⊢
    exact hserver.1 hpos

/-- After a timeout whose term is not stored, the next stale message is answered in it. -/
theorem exists_of_not_storedTimeouts {p p' : Process} (hp : p.Stored)
    (hC : ¬ p.StoredTimeouts .timeout) (h : p.next .timeout = some p') :
    ∃ e p'', p'.next e = some p'' ∧ ¬ p''.TermsDurable := by
  obtain ⟨he, s, ms, hs, rfl⟩ := next_eq_some.mp h
  have harmed : p.server.timer = .armed := of_decide_eq_true he
  injection hs with hs
  injection hs with hs hms
  have hnot : ¬ p.server.Stores (p.server.currentTerm + 1) := fun hst => hC fun _ => hst
  have hpos : 0 < p.server.currentTerm + 1 := by
    by_contra hz
    exact hnot fun hpos => absurd hpos hz
  obtain ⟨fd, cn, hcn, hread⟩ : ∃ fd cn, p.server.conns.find? fd = some cn ∧ cn.reading = true := by
    rcases hp.answers with ha | ⟨_, hconn⟩
    · rw [ha] at harmed
      cases harmed
    · exact hconn
  let q : AppendEntriesQ := ⟨0, 0, 0, 0, []⟩
  have hstale : q.term < s.currentTerm := by
    rw [← hs]
    exact hpos
  have hhandle : s.handle (.message .allOk fd (.appendentries_q q)) =
      .ok (s, [(fd, .appendentries_r ⟨s.currentTerm, false, false⟩)]) := by
    have hcommit : s.sendreponse q false false = (s, ⟨s.currentTerm, false, false⟩) := by
      rw [RaftServer.sendreponse, RaftServer.followCommit,
        if_neg (not_lt.mpr (UInt32.le_iff_toNat_le.mpr (Nat.zero_le _)))]
    show (s.appendEntriesQ .allOk q >>= _) = _
    rw [RaftServer.appendEntriesQ_of_stale hstale, hcommit]
    rfl
  have henabled : (p.record s ms).enabled (.message .allOk fd (.appendentries_q q)) = true := by
    show (s.conns.find? fd).any Conn.reading = true
    have hconns : s.conns = p.server.conns := by rw [← hs]; rfl
    rw [hconns, hcn]
    exact hread
  refine ⟨_, _, next_eq_some.mpr ⟨henabled, _, _, hhandle, rfl⟩, fun hall => hnot fun _ => ?_⟩
  have hnew := hall _ (mem_record.mpr (Or.inr ⟨_, List.mem_singleton_self _, rfl⟩))
  rw [← hs] at hnew
  exact hnew _ rfl hpos

/-- **Terms are stored before they are used** in a run whose heartbeat timeouts count up to a
term the state DB holds already; one that does not is followed by a reply in a term the
state DB does not hold, as soon as a stale message arrives. -/
theorem terms_durable {p : Process} (h : system.Reachable StoredTimeouts p) :
    p.TermsDurable ∧ ∀ p', p.next .timeout = some p' → ¬ p.StoredTimeouts .timeout →
      ∃ e p'', p'.next e = some p'' ∧ ¬ p''.TermsDurable := by
  have hstored : p.Stored := by
    apply h.invariant (I := Stored)
    · intro p hp
      rcases hp with hp | hp
      · exact stored_started hp
      · exact stored_joined hp
    · exact fun p e p' _ hp hC hn => stored_of_next hp hC hn
  exact ⟨hstored.sent, fun p' hn hC => exists_of_not_storedTimeouts hstored hC hn⟩

/-- A node that has joined, on a state DB without a term. -/
def joinNode (stateDB : Option UInt32) : Process where
  server := .launchJoin ⟨stateDB, .empty⟩ 0 RaftServer.startHost 7778
  listening := false
  sent := []

theorem reachable_joinNode {C : Process → NodeEvent → Prop} (stateDB : Option UInt32) :
    system.Reachable C (joinNode stateDB) :=
  System.reachable_init (Or.inr ⟨⟨stateDB, .empty⟩, 0, RaftServer.startHost, 7778, rfl, rfl, rfl⟩)

/-- A node that finds term 7 in its state DB times out and answers in term 1. -/
theorem terms_durable_reply :
    ∃ p, system.Reachable StoredTimeouts p ∧ p.sent.length = 1 ∧ p.TermsDurable := by
  have hinit : system.Reachable StoredTimeouts (joinNode (some 7)) := reachable_joinNode _
  obtain ⟨p, hp, htest⟩ := System.exists_of_run
    [.timeout, .message .allOk 0 (.appendentries_q ⟨0, 0, 0, 0, []⟩)]
    (fun p : Process => p.sent.length = 1) hinit
    ⟨fun _ _ => ⟨7, rfl, by decide⟩, fun _ _ => ⟨by rintro ⟨⟩, fun _ _ => trivial⟩⟩
    (by decide +kernel)
  exact ⟨p, hp, of_decide_eq_true htest, (terms_durable hp).1⟩

/-- A node counts its term up in a timeout, and answers the next message in a term that was
never stored. -/
theorem term_not_stored : ¬ ∀ p, system.Reachable System.anyStep p → p.TermsDurable := by
  intro hall
  obtain ⟨p, hp, htest⟩ := System.exists_of_run
    [.timeout, .message .allOk 0 (.appendentries_q ⟨0, 0, 0, 0, []⟩)]
    (fun p : Process => ∃ x ∈ p.sent,
      x.stateDB = none ∧ x.message = .appendentries_r ⟨1, false, false⟩)
    (reachable_joinNode none) (System.allowed_anyStep _ _) (by decide +kernel)
  obtain ⟨x, hx, hdb, hm⟩ := of_decide_eq_true htest
  obtain ⟨d, hd, _⟩ := hall p hp x hx 1 (by rw [hm]; rfl) (by decide)
  rw [hdb] at hd
  cases hd

end Process
end NanoRaft
