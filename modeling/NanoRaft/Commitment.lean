import NanoRaft.Lib.Quorum
import NanoRaft.Membership

/-!
# Committing and applying

From the counters of the proxies to the entries that are applied: what `BecomeLeader` leaves
in the counters, when `ChangeCommitIndex` advances the commit index, who can advance it, and
what `TryApplyLogToFSM` does with the entries committed.

* `reset_iff`: after which calls of `BecomeLeader` no old counter is left;
* `commits_like_raft_iff`: in which states the commit rule is Raft's;
* `commits_as_leader`: a commit by counting is a leader's, of an entry of its own term;
* `applies_committed_iff`: in which states the committed entries are applied.
-/

namespace NanoRaft
namespace RaftServer

variable {s s' : RaftServer}

/-! ## Becoming leader -/

/-- A leader of term 0 with one entry for each node, and the highest index that each of the
other nodes has. -/
def led (others : List (UInt32 × UInt64)) : RaftServer :=
  { RaftServer.new ⟨none, .empty⟩ with
    role := .Leader
    entries := (1 :: others.map Prod.fst).map fun id => ⟨.CFGADD, 0, id, 7777, startHost, 0⟩
    proxys := others.foldl (fun m x => m.insert x.1 { RaftProxy.new with
      nextIndex := x.2 + 1, matchIndex := x.2 }) .empty }

/-- What `BecomeLeader` makes of a proxy: only an inactive one is reset, to the end of the
deprecated log. -/
def lead (s : RaftServer) (p : RaftProxy) : RaftProxy :=
  if p.state = .InActive then { p with nextIndex := s.lastLogIndex + 1, matchIndex := 0 } else p

/-- The counters a new leader starts with: the next entry for every proxy that takes part in a
broadcast is the one behind the log, and nobody is known to have anything. -/
structure Reset (s : RaftServer) : Prop where
  next : ∀ id p, s.proxys.find? id = some p → p.state ≠ .InActive →
    p.nextIndex.toNat = s.lastEntryIndex + 1
  none : ∀ id p, s.proxys.find? id = some p → p.matchIndex = 0

theorem lead_lead (s : RaftServer) (p : RaftProxy) : s.lead (s.lead p) = s.lead p := by
  unfold lead
  split_ifs with h
  · simp [h]
  · rfl

/-- The loop over the ids resets the inactive ones among them. -/
theorem becomeLeaderLoop_find? {ids : List UInt32} {ms : Sends}
    (h : s.becomeLeaderLoop ids = .ok (s', ms)) (id : UInt32) :
    s'.proxys.find? id = if id ∈ ids then (s.proxys.find? id).map s.lead else s.proxys.find? id := by
  induction ids generalizing s ms with
  | nil =>
    obtain ⟨rfl, _⟩ := Prod.mk.inj (Except.ok.inj h)
    rfl
  | cons x ids ih =>
    unfold becomeLeaderLoop at h
    split at h
    · cases h
    · next p hp =>
      split at h
      · next hactive =>
        -- an active proxy is passed over, and `lead` leaves it as well
        have hsame : (s.proxys.find? x).map s.lead = s.proxys.find? x := by
          rw [hp, Option.map_some, lead, if_neg hactive]
        rw [ih h]
        by_cases hid : id = x
        · rw [hid, hsame, ite_self, ite_self]
        · simp only [List.mem_cons, hid, false_or]
      · next hinactive =>
        obtain ⟨ms1, _, h⟩ := Except.bind_eq_ok.mp h
        obtain ⟨⟨s2, rest⟩, h2, h⟩ := Except.bind_eq_ok.mp h
        rw [Except.pure_eq_ok, Prod.mk.injEq] at h
        obtain ⟨rfl, _⟩ := h
        have hlead : s.lead p = { p with nextIndex := s.lastLogIndex + 1, matchIndex := 0 } := by
          rw [lead, if_pos (not_not.mp hinactive)]
        rw [ih h2]
        -- the server the loop goes on with makes the same of every proxy
        show (if id ∈ ids then ((s.proxys.modify x _).find? id).map s.lead
          else (s.proxys.modify x _).find? id) = _
        rw [OrdMap.find?_modify]
        by_cases hid : id = x
        · simp [hid, hp, ← hlead, lead_lead]
        · simp only [List.mem_cons, hid, false_or, if_false]

/-- Every proxy has been led. -/
theorem becomeLeader_find? {ms : Sends} (h : s.becomeLeader = .ok (s', ms)) (id : UInt32) :
    s'.proxys.find? id = (s.proxys.find? id).map s.lead := by
  unfold becomeLeader at h
  rw [becomeLeaderLoop_find? h]
  split_ifs with hid
  · rfl
  · have hnone : s.proxys.find? id = Option.none := by
      rw [← Option.not_isSome_iff_eq_none, ← OrdMap.mem_keys_iff]
      exact hid
    show s.proxys.find? id = _
    rw [hnone, Option.map_none]

/-- **No old counter.** `BecomeLeader` leaves the counters of a new leader exactly if the
active proxies have had them before: it resets the others. -/
theorem reset_iff {ms : Sends} (h : s.becomeLeader = .ok (s', ms)) :
    s'.Reset ↔ ∀ id p, s.proxys.find? id = some p → p.state ≠ .InActive →
      p.nextIndex.toNat = s.lastEntryIndex + 1 ∧ p.matchIndex = 0 := by
  have hlast : s'.lastEntryIndex = s.lastEntryIndex := by
    obtain ⟨proxys, rfl⟩ := becomeLeader_frame h
    rfl
  constructor
  · intro hreset id p hp hactive
    have hp' : s'.proxys.find? id = some p := by
      rw [becomeLeader_find? h, hp, Option.map_some, lead, if_neg hactive]
    rw [← hlast]
    exact ⟨hreset.next id p hp' hactive, hreset.none id p hp'⟩
  · intro hall
    refine ⟨fun id p hp hactive => ?_, fun id p hp => ?_⟩
    · rw [becomeLeader_find? h] at hp
      obtain ⟨p0, hp0, rfl⟩ := Option.map_eq_some_iff.mp hp
      unfold lead at hactive ⊢
      split_ifs at hactive ⊢ with hin
      · exact absurd hin hactive
      · rw [hlast]
        exact (hall id p0 hp0 hin).1
    · rw [becomeLeader_find? h] at hp
      obtain ⟨p0, hp0, rfl⟩ := Option.map_eq_some_iff.mp hp
      unfold lead
      split_ifs with hin
      · rfl
      · exact (hall id p0 hp0 hin).2

/-- A server that has been a leader before: node 2 takes part in a broadcast, node 3 does not. -/
def ledBefore (two three : UInt64) : RaftServer :=
  { led [] with
    proxys := (OrdMap.empty.insert 2 ⟨.IsVoting, two + 1, two, Option.none⟩).insert 3
      ⟨.InActive, three + 1, three, Option.none⟩ }

/-- The proxy that takes part has new counters already. -/
theorem reset_inactive : ∃ s' ms, (ledBefore 0 5).becomeLeader = .ok (s', ms) ∧ s'.Reset := by
  have hok : ∃ s' ms, (ledBefore 0 5).becomeLeader = .ok (s', ms) := ⟨_, _, rfl⟩
  obtain ⟨s', ms, hok⟩ := hok
  refine ⟨s', ms, hok, (reset_iff hok).mpr ?_⟩
  intro id p hp hactive
  unfold ledBefore at hp
  rw [OrdMap.find?_insert, OrdMap.find?_insert] at hp
  split_ifs at hp
  · obtain rfl := Option.some.inj hp
    exact absurd rfl hactive
  · obtain rfl := Option.some.inj hp
    exact ⟨rfl, rfl⟩
  · cases hp

/-- It has the counters of the earlier leadership. -/
theorem keeps_counters : ¬ ∀ (s s' : RaftServer) (ms : Sends),
    s.becomeLeader = .ok (s', ms) → s'.Reset := by
  intro hall
  have hok : ∃ s' ms, (ledBefore 5 0).becomeLeader = .ok (s', ms) ∧
      s'.proxys.find? 2 = some ⟨.IsVoting, 6, 5, Option.none⟩ := ⟨_, _, rfl, rfl⟩
  obtain ⟨s', ms, hok, hp⟩ := hok
  have hzero := (hall _ _ _ hok).none 2 _ hp
  cases hzero

/-! ## The commit rule -/

/-- The highest index that a proxy votes for. -/
def mark (p : RaftProxy) : ℕ := p.matchIndex.toNat

/-- The entry at an index is in the log and of the current term. -/
def OfCurrentTerm (s : RaftServer) (N : ℕ) : Prop :=
  ∃ e, s.entries[N]? = some e ∧ e.term = s.currentTerm

instance decidableOfCurrentTerm (s : RaftServer) (N : ℕ) : Decidable (s.OfCurrentTerm N) :=
  decidable_of_iff (s.entries[N]?.any (fun e => decide (e.term = s.currentTerm)) = true) (by
    simp only [Option.any_eq_true, decide_eq_true_iff]
    rfl)

/-- Raft's condition on an index: its entry is of the current term, and the leader and the
nodes that have it are more than half of the cluster. -/
def Committable (s : RaftServer) (N : ℕ) : Prop :=
  s.OfCurrentTerm N ∧ Quorum.Majority mark s.proxys.values N

/-- `ChangeCommitIndex` comes back, and returns `true` exactly if some index after the commit
index is committable; then it has advanced the commit index, not beyond all of these. -/
def CommitsLikeRaft (s : RaftServer) : Prop :=
  ∃ s' b, s.changeCommitIndex = .ok (s', b) ∧
    (b = true ↔ ∃ N, s.commitIndex.toNat < N ∧ s.Committable N) ∧
    (b = true → s.commitIndex < s'.commitIndex ∧
      ∃ N, s.commitIndex.toNat < N ∧ s.Committable N ∧ s'.commitIndex.toNat ≤ N)

/-- If the next entry is of the current term, it is not on exactly half of the other nodes;
otherwise no later entry of the current term is on half of them. At the last 32-bit index,
whose successor wraps around to 0, entry 0 is not of the current term unless there are no
other nodes. -/
def NextDecides (s : RaftServer) : Prop :=
  if s.commitIndex ≠ 0xFFFFFFFF ∧ s.OfCurrentTerm (s.commitIndex.toNat + 1) then
    2 * Quorum.votes mark s.proxys.values (s.commitIndex.toNat + 1) ≠ s.proxys.size
  else
    (∀ N, s.commitIndex.toNat < N → s.OfCurrentTerm N →
      2 * Quorum.votes mark s.proxys.values N < s.proxys.size) ∧
    (s.commitIndex = 0xFFFFFFFF → s.proxys.size = 0 ∨
      ∃ e, s.entries[0]? = some e ∧ e.term ≠ s.currentTerm)

/-- The proxies counted are those that vote for the next index. -/
theorem replicaCount_eq (hc : s.commitIndex ≠ 0xFFFFFFFF) :
    s.replicaCount = Quorum.votes mark s.proxys.values (s.commitIndex.toNat + 1) := by
  have hsucc := UInt.toNat_succ32_of_ne hc
  unfold replicaCount Quorum.votes
  apply List.countP_congr
  intro p _
  rw [decide_eq_true_iff, decide_eq_true_iff, UInt64.le_iff_toNat_le, UInt32.toNat_toUInt64, hsucc]
  rfl

/-- At the last index every proxy is counted. -/
theorem replicaCount_last (hc : s.commitIndex = 0xFFFFFFFF) : s.replicaCount = s.proxys.size := by
  have hzero : (s.commitIndex + 1).toUInt64 = 0 := by
    rw [hc]
    rfl
  unfold replicaCount
  rw [hzero, List.countP_eq_length.mpr, OrdMap.length_values]
  intro p _
  rw [decide_eq_true_iff, UInt64.le_iff_toNat_le]
  exact Nat.zero_le _

/-- A call that leaves the commit index is right exactly if no later index is committable. -/
theorem commitsLikeRaft_of_stay (h : s.changeCommitIndex = .ok (s, false)) :
    s.CommitsLikeRaft ↔ ∀ N, s.commitIndex.toNat < N → s.OfCurrentTerm N →
      2 * Quorum.votes mark s.proxys.values N < s.proxys.size := by
  have hlen := s.proxys.length_values
  have hno : (¬ ∃ N, s.commitIndex.toNat < N ∧ s.Committable N) ↔
      ∀ N, s.commitIndex.toNat < N → s.OfCurrentTerm N →
        2 * Quorum.votes mark s.proxys.values N < s.proxys.size := by
    simp only [Committable, Quorum.majority_iff, hlen, not_exists, not_and, not_le]
  rw [← hno]
  constructor
  · intro hraft
    obtain ⟨t, b, hok, hiff, _⟩ := hraft
    obtain ⟨_, rfl⟩ := Prod.mk.inj (Except.ok.inj (h.symm.trans hok))
    simpa using hiff
  · intro hnone
    exact ⟨s, false, h, by simpa using hnone, by simp⟩

/-- A call that goes on to the next index is right as soon as that one is committable. -/
theorem commitsLikeRaft_of_advance (hc : s.commitIndex ≠ 0xFFFFFFFF)
    (h : s.changeCommitIndex = .ok ({ s with commitIndex := s.commitIndex + 1 }, true))
    (hnext : s.Committable (s.commitIndex.toNat + 1)) : s.CommitsLikeRaft := by
  have hsucc := UInt.toNat_succ32_of_ne hc
  refine ⟨_, true, h, iff_of_true rfl ⟨_, Nat.lt_succ_self _, hnext⟩, fun _ => ⟨?_, _,
    Nat.lt_succ_self _, hnext, hsucc.le⟩⟩
  rw [UInt32.lt_iff_toNat_lt]
  show s.commitIndex.toNat < (s.commitIndex + 1).toNat
  omega

/-- An index that more than half of the proxies have is inside the log. -/
theorem getElem?_of_most (hc : s.commitIndex ≠ 0xFFFFFFFF)
    (hmatch : ∀ p ∈ s.proxys.values, mark p ≤ s.lastEntryIndex)
    (hmost : s.proxys.size / 2 + 1 ≤ s.replicaCount) :
    ∃ e, s.entries[(s.commitIndex + 1).toNat]? = some e := by
  have hsucc := UInt.toNat_succ32_of_ne hc
  rw [replicaCount_eq hc] at hmost
  obtain ⟨p, hp, hmark⟩ : ∃ p ∈ s.proxys.values, s.commitIndex.toNat + 1 ≤ mark p :=
    Quorum.exists_of_votes_pos (by omega)
  have hle := hmatch p hp
  rw [lastEntryIndex_eq] at hle
  exact ⟨_, List.getElem?_eq_getElem (by omega)⟩

/-- The rule at an index that can be counted up. -/
theorem commitsLikeRaft_iff_of_ne (hc : s.commitIndex ≠ 0xFFFFFFFF)
    (hmatch : ∀ p ∈ s.proxys.values, mark p ≤ s.lastEntryIndex) :
    s.CommitsLikeRaft ↔ s.NextDecides := by
  have hsucc := UInt.toNat_succ32_of_ne hc
  have hlen := s.proxys.length_values
  have htest : s.proxys.size / 2 + 1 ≤ s.replicaCount ↔
      Quorum.Majority mark s.proxys.values (s.commitIndex.toNat + 1) ∧
        2 * Quorum.votes mark s.proxys.values (s.commitIndex.toNat + 1) ≠ s.proxys.size := by
    rw [replicaCount_eq hc, ← hlen]
    exact Quorum.half_succ_le_iff
  unfold NextDecides
  by_cases hterm : s.OfCurrentTerm (s.commitIndex.toNat + 1)
  · rw [if_pos ⟨hc, hterm⟩]
    by_cases hmost : s.proxys.size / 2 + 1 ≤ s.replicaCount
    · obtain ⟨hmaj, hhalf⟩ := htest.mp hmost
      obtain ⟨e, he, het⟩ := hterm
      have hstep := changeCommitIndex_of_most hmost (by rw [hsucc]; exact he)
      rw [if_pos het] at hstep
      exact iff_of_true (commitsLikeRaft_of_advance hc hstep ⟨⟨e, he, het⟩, hmaj⟩) hhalf
    · rw [commitsLikeRaft_of_stay (changeCommitIndex_of_few hmost)]
      constructor
      · intro hnone heq
        have hlow := hnone (s.commitIndex.toNat + 1) (by omega) hterm
        omega
      · intro hhalf N hN hok
        by_contra hge
        -- a later index would be committable, and the next one with it
        have hmaj : Quorum.Majority mark s.proxys.values N := by
          rw [Quorum.majority_iff, hlen]
          omega
        exact hmost (htest.mpr ⟨(Quorum.exists_iff_next hterm).mp ⟨N, hN, hok, hmaj⟩, hhalf⟩)
  · rw [if_neg fun h => hterm h.2, and_iff_left fun h => absurd h hc]
    have hstay : s.changeCommitIndex = .ok (s, false) := by
      by_cases hmost : s.proxys.size / 2 + 1 ≤ s.replicaCount
      · obtain ⟨e, he⟩ := getElem?_of_most hc hmatch hmost
        rw [changeCommitIndex_of_most hmost he, if_neg]
        intro het
        rw [hsucc] at he
        exact hterm ⟨e, he, het⟩
      · exact changeCommitIndex_of_few hmost
    exact commitsLikeRaft_of_stay hstay

/-- The rule at the last index, where all proxies are counted and entry 0 decides. -/
theorem commitsLikeRaft_iff_of_last (hc : s.commitIndex = 0xFFFFFFFF) :
    s.CommitsLikeRaft ↔ s.NextDecides := by
  have hcount := replicaCount_last hc
  have hwrap : (s.commitIndex + 1).toNat = 0 := by
    rw [hc]
    rfl
  unfold NextDecides
  rw [if_neg fun h => h.1 hc]
  by_cases hsize : s.proxys.size = 0
  · rw [commitsLikeRaft_of_stay (changeCommitIndex_of_few (by omega)), and_iff_left]
    exact fun _ => Or.inl hsize
  · have hmost : s.proxys.size / 2 + 1 ≤ s.replicaCount := by omega
    cases he : s.entries[0]? with
    | none =>
      -- the read is outside
      refine iff_of_false (fun hraft => ?_) fun hdec => ?_
      · obtain ⟨t, b, hok, _⟩ := hraft
        unfold changeCommitIndex at hok
        rw [if_pos hmost, hwrap, he] at hok
        cases hok
      · rcases hdec.2 hc with hzero | ⟨e, h0, _⟩
        · exact hsize hzero
        · cases h0
    | some e =>
      have hstep := changeCommitIndex_of_most hmost (by rw [hwrap]; exact he)
      by_cases het : e.term = s.currentTerm
      · rw [if_pos het] at hstep
        refine iff_of_false (fun hraft => ?_) fun hdec => ?_
        · obtain ⟨t, b, hok, _, hadv⟩ := hraft
          obtain ⟨rfl, rfl⟩ := Prod.mk.inj (Except.ok.inj (hstep.symm.trans hok))
          obtain ⟨hlt, _⟩ := hadv rfl
          rw [UInt32.lt_iff_toNat_lt] at hlt
          change s.commitIndex.toNat < (s.commitIndex + 1).toNat at hlt
          omega
        · rcases hdec.2 hc with hzero | ⟨e', h0, hne⟩
          · exact hsize hzero
          · rw [← Option.some.inj h0] at hne
            exact hne het
      · rw [if_neg het] at hstep
        rw [commitsLikeRaft_of_stay hstep, and_iff_left]
        exact fun _ => Or.inr ⟨e, rfl, het⟩

/-- **Raft's commit rule.** `ChangeCommitIndex` follows it exactly in the states in which the
next entry decides. -/
theorem commits_like_raft_iff
    (hmatch : ∀ p ∈ s.proxys.values, mark p ≤ s.lastEntryIndex) :
    s.CommitsLikeRaft ↔ s.NextDecides := by
  by_cases hc : s.commitIndex = 0xFFFFFFFF
  · exact commitsLikeRaft_iff_of_last hc
  · exact commitsLikeRaft_iff_of_ne hc hmatch

/-- The only other node has the next entry. -/
theorem commits_like_raft_one : (led [(2, 1)]).CommitsLikeRaft := by
  rw [commits_like_raft_iff (by decide +kernel)]
  unfold NextDecides
  rw [if_pos (by decide +kernel)]
  decide +kernel

/-- In a cluster of three, the leader and one other node have the next entry. -/
theorem leaves_majority : ¬ ∀ s : RaftServer,
    (∀ p ∈ s.proxys.values, mark p ≤ s.lastEntryIndex) → s.CommitsLikeRaft := by
  intro hall
  obtain ⟨t, b, hok, hiff, _⟩ := hall (led [(2, 1), (3, 0)]) (by decide +kernel)
  have hstay : (led [(2, 1), (3, 0)]).changeCommitIndex = .ok (led [(2, 1), (3, 0)], false) := rfl
  obtain ⟨_, rfl⟩ := Prod.mk.inj (Except.ok.inj (hstay.symm.trans hok))
  have hmaj : Quorum.Majority mark (led [(2, 1), (3, 0)]).proxys.values 1 := by
    unfold Quorum.Majority
    decide +kernel
  exact Bool.false_ne_true (hiff.mpr ⟨1, by decide +kernel, by decide +kernel, hmaj⟩)

/-! ## Committing by counting -/

/-- A leader is in term 0, every other node in a later one, and no entry is of a later term
than 0. -/
structure Serves (s : RaftServer) : Prop where
  leads : s.role = .Leader ↔ s.currentTerm = 0
  terms : ∀ e ∈ s.entries, e.term = 0

/-- In the run of the events `es` the node, as a leader of term `dwTerm`, has appended the
entry `e` at index `n`. -/
def AppendedBy (s : RaftServer) (es : List ServingEvent) (dwTerm : UInt32) (n : ℕ) (e : Entry) :
    Prop :=
  ∃ bs ev u u', bs ++ [ev] <+: es ∧ serving.run s bs = some u ∧ serving.next u ev = some u' ∧
    u.role = .Leader ∧ u.currentTerm = dwTerm ∧ u.entries.length = n ∧ u'.entries = u.entries ++ [e]

theorem serves_of_init (h : serving.init s) : s.Serves ∧ s.entries.length ≤ 1 := by
  obtain ⟨put, iRaftPort, iNodeID, h⟩ := h
  have hs := launchStart_eq_ok h
  cases hput : put.ok with
  | false =>
    rw [appendCfgLog_of_refused hput] at hs
    rw [hs]
    exact ⟨⟨iff_of_true rfl rfl, fun e he => absurd he List.not_mem_nil⟩, Nat.zero_le _⟩
  | true =>
    rw [appendCfgLog_of_ok hput] at hs
    rw [hs]
    refine ⟨⟨iff_of_true rfl rfl, fun e he => ?_⟩, le_refl _⟩
    rw [List.mem_singleton.mp he]
    rfl

/-- Only a reply of a later term touches role and term, and makes the node a follower. -/
theorem serving_role {e : ServingEvent} (h : serving.next s e = some s') :
    (s'.role = s.role ∧ s'.currentTerm = s.currentTerm) ∨
    (s'.role = .Follower ∧ s.currentTerm < s'.currentTerm) := by
  obtain ⟨hcan, hok⟩ := serving_next_eq_some.mp h
  cases e with
  | accept fd addr =>
    obtain rfl := Except.ok.inj hok
    exact Or.inl ⟨rfl, rfl⟩
  | close fd =>
    obtain ⟨c, hc⟩ := Option.isSome_iff_exists.mp hcan
    rw [serve, offlineConn, hc] at hok
    obtain rfl := Except.ok.inj hok
    exact Or.inl ⟨rfl, rfl⟩
  | handshake puts fd q =>
    obtain ⟨⟨t, ms⟩, ht, hok⟩ := Except.bind_eq_ok.mp hok
    rw [Except.pure_eq_ok] at hok
    obtain rfl : t = s' := hok
    exact Or.inl (handshakeQ_role ht)
  | reply puts fd r =>
    rcases appendEntriesR_cases hok with ⟨hlt, rfl⟩ | ⟨_, b, hb⟩
    · exact Or.inr ⟨rfl, hlt⟩
    · obtain ⟨k, rfl⟩ := changeCommitIndex_frame hb
      rw [countReply_frame]
      exact Or.inl ⟨rfl, rfl⟩

/-- A reply of a later term ends the leadership, and nothing starts another one. -/
theorem Serves.next {e : ServingEvent} (h : s.Serves) (hn : serving.next s e = some s') :
    s'.Serves := by
  constructor
  · rcases serving_role hn with ⟨hrole, hterm⟩ | ⟨hrole, hlt⟩
    · rw [hrole, hterm]
      exact h.leads
    · rw [UInt32.lt_iff_toNat_lt] at hlt
      refine iff_of_false (by simp [hrole]) fun hzero => ?_
      rw [hzero] at hlt
      exact Nat.not_lt_zero _ hlt
  · intro e he
    rcases serving_cases hn with ⟨puts, fd, q, c, _, hlead, _, hwel⟩ | ⟨_, hentries, _⟩
    · -- the entry of a new node is of the leader's term
      rw [hwel.entries, List.mem_append] at he
      rcases he with he | he
      · exact h.terms e he
      · split_ifs at he
        · rw [List.mem_singleton.mp he]
          exact h.leads.mp hlead
        · cases he
    · rw [hentries] at he
      exact h.terms e he

theorem serves_of_run {es : List ServingEvent} {t : RaftServer} (hinit : serving.init s)
    (hrun : serving.run s es = some t) : t.Serves :=
  System.invariant_of_run (C := System.anyStep) (fun _ _ _ h _ hn => h.next hn) es
    (serves_of_init hinit).1 (System.allowed_anyStep es s) hrun

/-- An entry that the log has got in the run has been appended by the node as a leader. -/
theorem appendedBy_of_run {es : List ServingEvent} {t : RaftServer} (hinit : serving.init s)
    (hrun : serving.run s es = some t) {n : ℕ} {e : Entry} (hn : 0 < n)
    (he : t.entries[n]? = some e) : s.AppendedBy es 0 n e := by
  obtain ⟨hserves, hlen⟩ := serves_of_init hinit
  have hstart : ¬ s.entries[n]? = some e := by
    rw [List.getElem?_eq_none (by omega)]
    exact Option.some_ne_none e ∘ Eq.symm
  obtain ⟨bs, ev, u, u', hbs, hu, hu', hno, hyes⟩ :=
    System.exists_step_of_run (P := fun u => u.entries[n]? = some e) hrun hstart he
  rcases serving_cases hu' with ⟨puts, fd, q, c, _, hlead, _, hwel⟩ | ⟨_, hentries, _⟩
  · have hzero := (serves_of_run hinit hu).leads.mp hlead
    refine ⟨bs, ev, u, u', hbs, hu, hu', hlead, hzero, ?_⟩
    have happ := hwel.entries
    split_ifs at happ with hput
    · rw [happ] at hyes
      have hge : u.entries.length ≤ n := by
        by_contra hlt
        rw [List.getElem?_append_left (by omega)] at hyes
        exact hno hyes
      rw [List.getElem?_append_right hge, List.getElem?_singleton] at hyes
      split_ifs at hyes with hsub
      rw [happ, Option.some.inj hyes]
      exact ⟨by omega, rfl⟩
    · rw [happ, List.append_nil] at hyes
      exact absurd hyes hno
  · rw [hentries] at hyes
    exact absurd hyes hno

/-- **A commit is a leader's.** When a reply makes the commit index of a node launched by
`start` grow, the node is the leader, and it has appended the committed entry in its current
term. -/
theorem commits_as_leader {es : List ServingEvent} {t t' : RaftServer} {puts : Puts} {fd : ℕ}
    {r : AppendEntriesR} (hinit : serving.init s) (hrun : serving.run s es = some t)
    (hn : serving.next t (.reply puts fd r) = some t') (hgrow : t.commitIndex < t'.commitIndex) :
    t.role = .Leader ∧ t'.role = .Leader ∧ ∃ e,
      t'.entries[t'.commitIndex.toNat]? = some e ∧ e.term = t'.currentTerm ∧
      s.AppendedBy es t'.currentTerm t'.commitIndex.toNat e := by
  have hserves := serves_of_run hinit hrun
  rw [UInt32.lt_iff_toNat_lt] at hgrow
  obtain ⟨_, hok⟩ := serving_next_eq_some.mp hn
  rcases appendEntriesR_cases hok with ⟨_, rfl⟩ | ⟨_, b, hb⟩
  · exact absurd hgrow (lt_irrefl _)
  · have hframe := countReply_frame t fd r
    rcases changeCommitIndex_cases hb with ⟨rfl, _⟩ | ⟨_, ⟨e, he, hterm⟩, rfl, _⟩
    · rw [hframe] at hgrow
      exact absurd hgrow (lt_irrefl _)
    · rw [hframe] at he hterm hgrow ⊢
      -- the entry is of term 0, as all of them, and so is the node
      have hzero : t.currentTerm = 0 := by
        rw [← hterm]
        exact hserves.terms e (List.mem_of_getElem? he)
      have hlead := hserves.leads.mpr hzero
      have hpos : 0 < (t.commitIndex + 1).toNat := Nat.zero_lt_of_lt hgrow
      refine ⟨hlead, hlead, e, he, hterm, ?_⟩
      show s.AppendedBy es t.currentTerm (t.commitIndex + 1).toNat e
      rw [hzero]
      exact appendedBy_of_run hinit hrun hpos he

/-- Node 2 joins and confirms the entry of its own. -/
theorem commits_as_leader_one : ∃ t' : RaftServer, t'.role = .Leader ∧ t'.commitIndex = 1 ∧
    ∃ e, t'.entries[1]? = some e ∧ e.term = t'.currentTerm ∧
      alone.AppendedBy (comes .allOk 5 2) t'.currentTerm 1 e := by
  have hrun : ((serving.run alone (comes .allOk 5 2)).any fun t =>
      (serving.next t (.reply .allOk 5 ⟨0, true, false⟩)).any fun t' : RaftServer =>
        decide (t.commitIndex < t'.commitIndex) && decide (t'.commitIndex = 1)) = true := by
    decide +kernel
  obtain ⟨t, ht, hrun⟩ := (Option.any_eq_true _ _).mp hrun
  obtain ⟨t', ht', htest⟩ := (Option.any_eq_true _ _).mp hrun
  rw [Bool.and_eq_true, decide_eq_true_iff, decide_eq_true_iff] at htest
  obtain ⟨hgrow, hone⟩ := htest
  have hall := commits_as_leader ⟨_, _, _, launchStart_alone⟩ ht ht' hgrow
  rw [hone] at hall
  exact ⟨t', hall.2.1, hone, hall.2.2⟩

/-! ## Applying -/

/-- The server as the apply loop uses it, and a record of what has been applied, which the
code does not keep. -/
structure Applier where
  server : RaftServer
  lastApplied : UInt32
  applied : List (ℕ × Entry)

namespace Applier

/-- `TryApplyLogToFSM`; the branch for a `CFGADD` entry is empty in the source. -/
def tryApplyLogToFSM (a : Applier) : Result (Applier × Bool) :=
  if a.server.commitIndex < a.lastApplied then
    if a.server.entries = [] then .ok (a, false)
    else match a.server.entries[a.lastApplied.toNat]? with
      | none => .error .outOfRange
      | some e =>
        .ok ({ a with
          lastApplied := a.lastApplied + 1
          applied := a.applied ++ [(a.lastApplied.toNat, e)] }, true)
  else .ok (a, false)

/-- One call that applies an entry, so that the loop goes on. -/
def applying : System Applier Unit where
  init _ := True
  next a _ :=
    match a.tryApplyLogToFSM with
    | .ok (a', true) => some a'
    | _ => none

/-- The committed entries that have not been applied, with their indices. -/
def unapplied (a : Applier) : List (ℕ × Entry) :=
  (List.range' (a.lastApplied.toNat + 1) (a.server.commitIndex.toNat - a.lastApplied.toNat)).filterMap
    fun i => a.server.entries[i]?.map fun e => (i, e)

/-- The loop over `TryApplyLogToFSM` comes to a call that returns `false`. By then it has
applied what was committed, in order, and it has never been ahead of the commit index. -/
def AppliesCommitted (a : Applier) : Prop :=
  ∃ calls t t', applying.run a calls = some t ∧ t.tryApplyLogToFSM = .ok (t', false) ∧
    t'.applied = a.applied ++ a.unapplied ∧ t'.lastApplied = t'.server.commitIndex ∧
    ∀ cs u, cs <+: calls → applying.run a cs = some u → u.lastApplied ≤ u.server.commitIndex

/-- Behind the commit index or at it, nothing is applied. -/
theorem tryApplyLogToFSM_of_le {a : Applier} (h : a.lastApplied ≤ a.server.commitIndex) :
    a.tryApplyLogToFSM = .ok (a, false) := by
  unfold tryApplyLogToFSM
  rw [if_neg (UInt32.not_lt.mpr h)]

/-- So the loop is over with its first call. -/
theorem run_of_le {a t : Applier} {calls : List Unit} (h : a.lastApplied ≤ a.server.commitIndex)
    (hrun : applying.run a calls = some t) : t = a := by
  have hnone : applying.next a () = none := by
    unfold applying
    dsimp only
    rw [tryApplyLogToFSM_of_le h]
  cases calls with
  | nil => exact (Option.some.inj hrun).symm
  | cons c calls =>
    obtain ⟨a', ha', _⟩ := Option.bind_eq_some_iff.mp hrun
    rw [hnone] at ha'
    cases ha'

/-- Where the loop does what it is to do, it had nothing to do. -/
theorem AppliesCommitted.eq {a : Applier} (h : a.AppliesCommitted)
    (hle : a.lastApplied ≤ a.server.commitIndex) : a.lastApplied = a.server.commitIndex := by
  obtain ⟨calls, t, t', hrun, hlast, _, heq, _⟩ := h
  rw [run_of_le hle hrun, tryApplyLogToFSM_of_le hle] at hlast
  obtain ⟨rfl, _⟩ := Prod.mk.inj (Except.ok.inj hlast)
  exact heq

/-- **The apply loop.** It applies what is committed exactly if there is nothing to apply. -/
theorem applies_committed_iff {a : Applier} (hle : a.lastApplied ≤ a.server.commitIndex) :
    a.AppliesCommitted ↔ a.lastApplied = a.server.commitIndex := by
  constructor
  · intro happly
    exact happly.eq hle
  · intro heq
    refine ⟨[], a, a, rfl, tryApplyLogToFSM_of_le hle, ?_, heq, fun cs u hcs hu => ?_⟩
    · rw [unapplied, heq, Nat.sub_self]
      exact (List.append_nil _).symm
    · rw [List.prefix_nil.mp hcs] at hu
      rw [← Option.some.inj hu]
      exact hle

/-- Entry 1 of two is committed. -/
def second (lastApplied : UInt32) : Applier :=
  ⟨{ led [(2, 1)] with commitIndex := 1 }, lastApplied, []⟩

theorem applies_committed_second : (second 1).AppliesCommitted :=
  (applies_committed_iff (by decide)).mpr rfl

/-- It has not been applied, and never is. -/
theorem leaves_unapplied : ¬ ∀ a : Applier, a.lastApplied ≤ a.server.commitIndex →
    a.server.commitIndex.toNat < a.server.entries.length → a.AppliesCommitted := by
  intro hall
  have heq := (hall (second 0) (by decide) (by decide)).eq (by decide)
  cases heq

end Applier

end RaftServer
end NanoRaft
