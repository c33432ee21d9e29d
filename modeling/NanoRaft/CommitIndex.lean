import NanoRaft.FollowerLog
import NanoRaft.Node

/-!
# The commit index of a node

Two properties of `m_dwCommitIndex_` over the runs of one node, each with the exact
condition on a step under which the step keeps it:

* the commit index does not decrease (`commit_monotone`): an `appendentries_q` whose last
  entry lies below the commit index, or a wrap of the counter, makes it decrease;
* the commit index does not run ahead of the log (`commit_in_log`): an `appendentries_q`
  that is rejected, or whose entries end up at other indices than the leader's, makes it
  run ahead.

Rejected messages count in both, as they end in the same tail.
-/

namespace NanoRaft
namespace RaftServer

variable {puts : Puts} {s s' : RaftServer} {q : AppendEntriesQ} {r : AppendEntriesR} {fd : ℕ}

/-! ## Counting up -/

theorem countReply_size (s : RaftServer) (fd : ℕ) (r : AppendEntriesR) :
    (s.countReply fd r).proxys.size = s.proxys.size := by
  unfold countReply
  split
  · unfold incrProxy
    split
    · rfl
    · rw [OrdMap.size_modify]
  · rfl

/-- When the counter wraps, the next index is 0, which every proxy has. -/
theorem replicaCount_of_wrap (h : s.commitIndex = 0xFFFFFFFF) :
    s.replicaCount = s.proxys.size := by
  have hzero : (s.commitIndex + 1).toUInt64 = 0 := by rw [h]; rfl
  have hall : ∀ p ∈ s.proxys.values,
      decide ((s.commitIndex + 1).toUInt64 ≤ p.matchIndex) = true := by
    intro p _
    rw [hzero, decide_eq_true_iff, UInt64.le_iff_toNat_le]
    exact Nat.zero_le _
  unfold replicaCount
  rw [List.countP_eq_length.mpr hall, OrdMap.length_values]

theorem le_succ_of_ne_max {a : UInt32} (h : a ≠ 0xFFFFFFFF) : a ≤ a + 1 := by
  have hsucc := UInt.toNat_succ32_of_ne h
  rw [UInt32.le_iff_toNat_le]
  omega

/-- One round of `ChangeCommitIndex` lowers the commit index exactly when the counter wraps
and the step to index 0 is allowed: there is a proxy, and entry 0 is of the current term. -/
theorem changeCommitIndex_le_iff {b : Bool} (h : s.changeCommitIndex = .ok (s', b)) :
    s.commitIndex ≤ s'.commitIndex ↔ s.commitIndex ≠ 0xFFFFFFFF ∨ s.proxys.size = 0 ∨
      ∀ e ∈ s.entries[0]?, e.term ≠ s.currentTerm := by
  by_cases hmax : s.commitIndex = 0xFFFFFFFF
  · have hidx : s.commitIndex + 1 = 0 := by rw [hmax]; rfl
    have hcount := replicaCount_of_wrap hmax
    simp only [hmax, ne_eq, not_true_eq_false, false_or]
    rcases changeCommitIndex_cases h with ⟨rfl, hb⟩ | ⟨hmost, ⟨e, he, hterm⟩, rfl, hb⟩
    · -- nothing happened: were both conditions met, the step would have been taken
      simp only [hmax, le_refl, true_iff]
      by_contra hcon
      obtain ⟨hsize, hterm⟩ := not_or.mp hcon
      push Not at hterm
      obtain ⟨e, he, hterm⟩ := hterm
      have hmost : s'.proxys.size / 2 + 1 ≤ s'.replicaCount := by
        rw [hcount]
        omega
      rw [Option.mem_def] at he
      have hget : s'.entries[(s'.commitIndex + 1).toNat]? = some e := by
        rw [hidx]
        exact he
      have hadv : s'.changeCommitIndex
          = .ok ({ s' with commitIndex := s'.commitIndex + 1 }, true) := by
        unfold changeCommitIndex
        rw [if_pos hmost, hget]
        exact if_pos hterm
      rw [hadv] at h
      injection h with h
      have hbt : true = b := congrArg Prod.snd h
      rw [hb] at hbt
      cases hbt
    · -- the step was taken: to index 0, below the old one
      have hdrop : ¬ (0xFFFFFFFF : UInt32) ≤ s.commitIndex + 1 := by
        rw [hidx]
        decide
      have hsize : s.proxys.size ≠ 0 := by omega
      have he0 : s.entries[0]? = some e := by
        rw [hidx] at he
        exact he
      simp [hdrop, hsize, he0, hterm]
  · -- short of the last value the increment does not wrap
    have hle := le_succ_of_ne_max hmax
    simp only [hmax, ne_eq, not_false_eq_true, true_or, iff_true]
    rcases changeCommitIndex_cases h with ⟨rfl, _⟩ | ⟨_, _, rfl, _⟩
    · exact le_refl _
    · exact hle

/-! ## Monotonicity -/

/-- The message does not reach the tail's assignment, or its last entry is not below the
commit index. The sum is the 32-bit one. -/
def ReachesCommit (s : RaftServer) (q : AppendEntriesQ) : Prop :=
  q.leadercommit ≤ s.commitIndex ∨
    s.commitIndex ≤ q.prelogindex + UInt32.ofNat q.entries.length

/-- The commit counter does not wrap: it is not at its last value, or `ChangeCommitIndex` is
not called, has nobody to count, or finds entry 0 of another term. -/
def NoWrap (s : RaftServer) (r : AppendEntriesR) : Prop :=
  s.commitIndex ≠ 0xFFFFFFFF ∨ s.currentTerm < r.term ∨ s.proxys.size = 0 ∨
    ∀ e ∈ s.entries[0]?, e.term ≠ s.currentTerm

/-- Every message of a step meets its condition. -/
def KeepsCommit (s : RaftServer) : NodeEvent → Prop
  | .message _ _ (.appendentries_q q) => s.ReachesCommit q
  | .message _ _ (.appendentries_r r) => s.NoWrap r
  | _ => True

theorem appendEntriesQ_le_iff (h : s.appendEntriesQ puts q = .ok (s', r)) :
    s.commitIndex ≤ s'.commitIndex ↔ s.ReachesCommit q := by
  rw [appendEntriesQ_commitIndex h, followIndex, ReachesCommit]
  by_cases hlt : s.commitIndex < q.leadercommit
  · rw [if_pos hlt, le_min_iff]
    have hnot : ¬ q.leadercommit ≤ s.commitIndex := not_le.mpr hlt
    have hle : s.commitIndex ≤ q.leadercommit := hlt.le
    simp [hnot, hle]
  · rw [if_neg hlt]
    simp [not_lt.mp hlt]

theorem appendEntriesR_le_iff (h : s.appendEntriesR puts fd r = .ok s') :
    s.commitIndex ≤ s'.commitIndex ↔ s.NoWrap r := by
  unfold NoWrap
  rcases appendEntriesR_cases h with ⟨hlt, rfl⟩ | ⟨hle, b, hb⟩
  · simp [hlt]
  · have hiff := changeCommitIndex_le_iff hb
    have hframe := countReply_frame s fd r
    have hcommit : (s.countReply fd r).commitIndex = s.commitIndex := by rw [hframe]
    have hentries : (s.countReply fd r).entries = s.entries := by rw [hframe]
    have hterm : (s.countReply fd r).currentTerm = s.currentTerm := by rw [hframe]
    rw [hcommit, hentries, hterm, countReply_size] at hiff
    rw [hiff]
    simp [not_lt.mpr hle]

/-- **The commit index is monotone exactly under these conditions.** An `appendentries_q`
keeps it from decreasing if and only if it `ReachesCommit`, an `appendentries_r` if and only
if there is `NoWrap`, and a run all of whose messages meet their condition never decreases
it. -/
theorem commit_monotone (s s' : RaftServer) :
    (∀ puts q t r, s.appendEntriesQ puts q = .ok (t, r) →
      (s.commitIndex ≤ t.commitIndex ↔ s.ReachesCommit q)) ∧
    (∀ puts fd r t, s.appendEntriesR puts fd r = .ok t →
      (s.commitIndex ≤ t.commitIndex ↔ s.NoWrap r)) ∧
    (node.Runs KeepsCommit s s' → s.commitIndex ≤ s'.commitIndex) := by
  refine ⟨fun _ _ _ _ => appendEntriesQ_le_iff, fun _ _ _ _ => appendEntriesR_le_iff, ?_⟩
  intro hruns
  apply System.runs_mono (f := commitIndex) _ hruns
  intro s e s' hkeep hn
  obtain ⟨ms, hn⟩ := node_next_eq_some.mp hn
  -- for a message the step's own condition is the one its equivalence asks for
  rcases handle_cases hn with ⟨puts, fd, q, r, rfl, hq⟩ | ⟨puts, fd, r, rfl, hr⟩ | ⟨hc, _⟩
  · exact (appendEntriesQ_le_iff hq).mpr hkeep
  · exact (appendEntriesR_le_iff hr).mpr hkeep
  · exact hc.ge

/-- A heartbeat for an empty prefix sets a commit index of 1 back to 0. -/
theorem commit_decreases :
    ¬ ∀ puts s q s' r, appendEntriesQ puts s q = .ok (s', r) →
      s.commitIndex ≤ s'.commitIndex := by
  intro hall
  have hle := hall .allOk { fresh with commitIndex := 1 } ⟨0, 0, 0, 2, []⟩ _ _ rfl
  exact absurd hle (by decide)

/-! ## The commit index and the log -/

/-- The commit index does not run ahead of the log. -/
def CommitInLog (s : RaftServer) : Prop :=
  (s.entries = [] ∧ s.commitIndex = 0) ∨ s.commitIndex.toNat ≤ s.lastEntryIndex

theorem commitInLog_iff : s.CommitInLog ↔ s.commitIndex.toNat ≤ s.entries.length - 1 := by
  rw [CommitInLog, lastEntryIndex_eq, or_iff_right_iff_imp]
  intro h
  rw [h.2]
  exact Nat.zero_le _

/-- How many entries of an accepted message are pushed: the configuration changes whose
`Put` succeeds. -/
def pushes (put : ℕ → PutResult) (es : List Entry) : ℕ :=
  es.zipIdx.countP fun e => e.1.IsCfg ∧ (put e.2).ok

/-- The message's commit index is not above the node's, or it or the message's last entry
is inside the log: as the log stands, or behind the entries the message adds to it. -/
def FollowsLog (puts : Puts) (s : RaftServer) (q : AppendEntriesQ) : Prop :=
  q.leadercommit ≤ s.commitIndex ∨
  min q.leadercommit.toNat (q.prelogindex + UInt32.ofNat q.entries.length).toNat
      ≤ s.lastEntryIndex ∨
  (s.Accepts q ∧
    min q.leadercommit.toNat (q.prelogindex + UInt32.ofNat q.entries.length).toNat
      < s.entries.length + pushes puts.entry q.entries)

theorem pushes_cons (put : ℕ → PutResult) (e : Entry) (es : List Entry) :
    pushes put (e :: es)
      = pushes (fun i => put (i + 1)) es + if e.IsCfg ∧ (put 0).ok then 1 else 0 := by
  unfold pushes
  rw [List.zipIdx_cons, List.countP_cons, List.zipIdx_succ, List.countP_map]
  simp only [decide_eq_true_eq]
  rfl

theorem length_stored (put : ℕ → PutResult) (term : UInt32) (es : List Entry) :
    (stored put term es).length = pushes put es := by
  induction es generalizing put with
  | nil => rfl
  | cons e es ih =>
    rw [stored, List.length_append, ih, pushes_cons, Nat.add_comm]
    by_cases hc : e.IsCfg ∧ (put 0).ok = true
    · rw [if_pos hc, if_pos hc]
      rfl
    · rw [if_neg hc, if_neg hc]
      rfl

/-- One message keeps the commit index inside the log exactly when it `FollowsLog`. -/
theorem commitInLog_step_iff (hlogs : s.logs = []) (hin : s.CommitInLog)
    (h : s.appendEntriesQ puts q = .ok (s', r)) : s'.CommitInLog ↔ s.FollowsLog puts q := by
  have hent := (appendEntriesQ_of_logs hlogs h).1
  have hsucc := appendEntriesQ_success h
  have hlen : s'.entries.length
      = s.entries.length + if s.Accepts q then pushes puts.entry q.entries else 0 := by
    rw [hent, List.length_append]
    by_cases hacc : s.Accepts q
    · rw [if_pos hacc, if_pos (hsucc.mpr hacc), length_stored]
    · rw [if_neg hacc, if_neg fun hr => hacc (hsucc.mp hr)]
      rfl
  -- from here on both sides are inequalities between the two indices and the two lengths
  rw [commitInLog_iff] at hin
  rw [commitInLog_iff, appendEntriesQ_commitIndex h, followIndex, FollowsLog, lastEntryIndex_eq,
    hlen]
  by_cases hlt : s.commitIndex < q.leadercommit
  · have hnot : ¬ q.leadercommit ≤ s.commitIndex := not_le.mpr hlt
    rw [if_pos hlt, UInt.toNat_min]
    by_cases hacc : s.Accepts q
    · simp only [hnot, hacc, if_true, true_and, false_or]
      omega
    · simp only [hnot, hacc, if_false, false_and, false_or, or_false, Nat.add_zero]
  · -- the tail assigns nothing, and the log has not become shorter
    rw [if_neg hlt]
    simp only [not_lt.mp hlt, true_or, iff_true]
    omega

/-- A message whose entries are all stored breaks the bound in one situation only: it brings
a node with an empty log its first entries, from a leader that has committed at least as
many as it sends. -/
theorem followsLog_iff_of_stored (hin : s.CommitInLog) (hacc : s.Accepts q)
    (hall : pushes puts.entry q.entries = q.entries.length)
    (hwrap : q.prelogindex.toNat + q.entries.length < 2 ^ 32) :
    s.FollowsLog puts q ↔
      s.entries ≠ [] ∨ q.entries = [] ∨ q.leadercommit.toNat < q.entries.length := by
  have hn : (UInt32.ofNat q.entries.length).toNat = q.entries.length :=
    UInt.toNat_ofNat32 (by omega)
  have hsum : (q.prelogindex + UInt32.ofNat q.entries.length).toNat
      = q.prelogindex.toNat + q.entries.length := by
    rw [UInt32.toNat_add, hn]
    exact Nat.mod_eq_of_lt hwrap
  -- the entry the message builds on is in the log, unless the message starts it
  have hprev : q.prelogindex.toNat = 0 ∨ q.prelogindex.toNat < s.entries.length := by
    by_cases hpos : 0 < q.prelogindex
    · obtain ⟨e, he, _⟩ := hacc.prev hpos
      exact Or.inr (List.getElem?_eq_some_iff.mp he).1
    · have hz : ¬ (0 : UInt32).toNat < q.prelogindex.toNat := hpos
      exact Or.inl (Nat.eq_zero_of_not_pos hz)
  rw [commitInLog_iff] at hin
  rw [FollowsLog, lastEntryIndex_eq, hsum, hall, UInt32.le_iff_toNat_le, ← List.length_pos_iff,
    ← List.length_eq_zero_iff]
  simp only [hacc, true_and]
  omega

/-- Every `appendentries_q` of a step follows the log. -/
def FollowsLogStep (s : RaftServer) : NodeEvent → Prop
  | .message puts _ (.appendentries_q q) => s.FollowsLog puts q
  | _ => True

theorem changeCommitIndex_commitInLog {b : Bool} (hin : s.CommitInLog)
    (h : s.changeCommitIndex = .ok (s', b)) : s'.CommitInLog := by
  rcases changeCommitIndex_cases h with ⟨rfl, _⟩ | ⟨_, ⟨e, he, _⟩, rfl, _⟩
  · exact hin
  · -- the index was read from the log, so it is inside
    have hlt := (List.getElem?_eq_some_iff.mp he).1
    rw [commitInLog_iff]
    show (s.commitIndex + 1).toNat ≤ s.entries.length - 1
    omega

/-- **The commit index stays inside the log exactly under this condition.** In every run
whose `appendentries_q` messages follow the log, no node's commit index runs ahead of its
log; and one more message keeps it so if and only if it follows the log. -/
theorem commit_in_log (h : node.Reachable FollowsLogStep s) :
    s.CommitInLog ∧ ∀ puts q s' r, s.appendEntriesQ puts q = .ok (s', r) →
      (s'.CommitInLog ↔ s.FollowsLog puts q) := by
  have hin : s.CommitInLog := by
    apply h.invariant (I := CommitInLog)
    · intro s hs
      obtain ⟨disk, rfl⟩ := hs
      exact Or.inl ⟨rfl, rfl⟩
    · intro s e s' hreach hin hfollows hn
      obtain ⟨ms, hn⟩ := node_next_eq_some.mp hn
      rcases handle_cases hn with ⟨puts, fd, q, r, rfl, hq⟩ | ⟨puts, fd, r, rfl, hr⟩ | ⟨hc, hp, _⟩
      · exact (commitInLog_step_iff (logs_of_reachable hreach) hin hq).mpr hfollows
      · rcases appendEntriesR_cases hr with ⟨_, rfl⟩ | ⟨_, b, hb⟩
        · exact hin
        · have hcount : (s.countReply fd r).CommitInLog := by
            rw [countReply_frame]
            exact hin
          exact changeCommitIndex_commitInLog hcount hb
      · -- the log has only been extended
        have hle := hp.length_le
        rw [commitInLog_iff] at hin ⊢
        rw [hc]
        omega
  exact ⟨hin, fun _ _ _ _ hq => commitInLog_step_iff (logs_of_reachable h) hin hq⟩

/-- The messages some leader builds for one of its proxies. -/
def LeaderBuilt (q : AppendEntriesQ) : Prop :=
  ∃ s, node.Reachable System.anyStep s ∧ s.role = .Leader ∧
    ∃ p ∈ s.proxys.values, s.buildAppendEntries p = .ok q

/-- A leader takes its own entry into the log, two nodes join and acknowledge everything,
and a third node joins. -/
def thirdJoin : List NodeEvent :=
  let join (fd : ℕ) (nodeid : UInt32) : List NodeEvent :=
    [.accept fd startHost, .message .allOk fd (.handshake_q ⟨7777, nodeid⟩)]
  let ack (fd : ℕ) : NodeEvent := .message .allOk fd (.appendentries_r ⟨0, true, false⟩)
  [.becomeLeader, .appendCfgLog ⟨true, []⟩ startHost 7777 1] ++ join 0 2 ++ [ack 0] ++
    join 1 3 ++ [ack 0, ack 1, ack 1] ++ join 2 4

/-- What the leader then sends to the third node. -/
def lateMessage : AppendEntriesQ := ⟨0, 0, 0, 2, [cfgadd 0 1, cfgadd 0 2]⟩

theorem lateMessage_leaderBuilt : LeaderBuilt lateMessage := by
  have hinit : node.Reachable System.anyStep fresh := System.reachable_init ⟨_, rfl⟩
  obtain ⟨s, hs, htest⟩ := System.exists_of_run thirdJoin
    (fun s => s.role = .Leader ∧
      ∃ p ∈ s.proxys.values, (s.buildAppendEntries p).toOption = some lateMessage)
    hinit (System.allowed_anyStep _ _) (by decide)
  obtain ⟨hrole, p, hp, hbuild⟩ := of_decide_eq_true htest
  refine ⟨s, hs, hrole, p, hp, ?_⟩
  cases hq : s.buildAppendEntries p with
  | error f =>
    rw [hq] at hbuild
    cases hbuild
  | ok q =>
    rw [hq] at hbuild
    rw [Option.some.inj hbuild]

/-- The third node follows its first message to commit index 2 with two entries in the log,
of which the last has index 1. -/
theorem commit_ahead_of_log :
    ¬ ∀ s, node.Reachable (fun _ e => ∀ puts fd q,
      e = .message puts fd (.appendentries_q q) → LeaderBuilt q) s → s.CommitInLog := by
  intro hall
  let first : NodeEvent := .message .allOk 0 (.appendentries_q lateMessage)
  have hallowed : ∀ puts fd q, first = .message puts fd (.appendentries_q q) → LeaderBuilt q := by
    intro puts fd q he
    injection he with _ _ he
    injection he with he
    rw [← he]
    exact lateMessage_leaderBuilt
  have hinit : node.Reachable (fun _ e => ∀ puts fd q,
      e = .message puts fd (.appendentries_q q) → LeaderBuilt q) fresh :=
    System.reachable_init ⟨_, rfl⟩
  obtain ⟨s, hs, htest⟩ := System.exists_of_run [first]
    (fun s => ¬ s.commitIndex.toNat ≤ s.entries.length - 1) hinit
    ⟨hallowed, fun _ _ => trivial⟩ (by decide)
  exact of_decide_eq_true htest (commitInLog_iff.mp (hall s hs))

/-- From a leader that has committed one entry less, the same two entries are taken over in
step. -/
theorem commit_in_log_early :
    ∃ s, node.Reachable FollowsLogStep s ∧ s.commitIndex = 1 ∧ s.CommitInLog := by
  let first : NodeEvent :=
    .message .allOk 0 (.appendentries_q ⟨0, 0, 0, 1, [cfgadd 0 1, cfgadd 0 2]⟩)
  have hfollows : FollowsLogStep fresh first :=
    Or.inr (Or.inr ⟨⟨by decide, by decide⟩, by decide⟩)
  have hinit : node.Reachable FollowsLogStep fresh := System.reachable_init ⟨_, rfl⟩
  obtain ⟨s, hs, htest⟩ := System.exists_of_run [first] (fun s => s.commitIndex = 1) hinit
    ⟨hfollows, fun _ _ => trivial⟩ (by decide)
  exact ⟨s, hs, of_decide_eq_true htest, (commit_in_log hs).1⟩

end RaftServer
end NanoRaft
