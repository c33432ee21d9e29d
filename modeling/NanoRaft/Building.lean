import NanoRaft.Membership

/-!
# Building messages inside the log

A leader under accepts, closes, handshakes, replies and broadcasts in any order. What
`Conn::SendAppendEntries` reads with `EntryByIndex` is told from the counters of the proxy that
it serves: `NextIndex()` is compared with `LastEntryIndex()`, which is 0 for an empty log and for
a log of one entry.

* `buildAppendEntries_eq`: which entries a message is built from;
* `Counted.buildsInside`: with the counters one apart these are in the log;
* `builds_inside`: they are in every state the leader reaches, and no proxy is null.
-/

namespace NanoRaft

/-- What happens to a leader: it serves connections, and its timer broadcasts. -/
inductive LeaderEvent where
  | serve (e : ServingEvent)
  | broadCast

namespace RaftServer

/-- The calls of `EntryByIndex` in `Conn::SendAppendEntries`, in order. -/
def entryCalls (s : RaftServer) (p : RaftProxy) : List UInt32 :=
  if p.nextIndex.toNat ≤ s.lastEntryIndex then
    (if p.nextIndex - 1 = 0 then [0] else []) ++ [p.nextIndex.toUInt32]
  else []

def canLead (s : RaftServer) : LeaderEvent → Bool
  | .serve e => s.canServe e
  | .broadCast => true

/-- One callback; what it sends is left out. -/
def actAsLeader (s : RaftServer) : LeaderEvent → Result RaftServer
  | .serve e => s.serve e
  | .broadCast => do
    let _ ← s.broadCastAppendEntries
    pure s

/-- The runs of a node launched by `start`, broadcasts included. -/
def building : System RaftServer LeaderEvent where
  init s := ∃ put disk iRaftPort iNodeID, launchStart put disk iRaftPort iNodeID = .ok s
  next s e := if s.canLead e then (s.actAsLeader e).toOption else none

/-- The server on which an event calls `BroadCastAppendEntries`. -/
def broadCaster (s : RaftServer) : LeaderEvent → Option RaftServer
  | .broadCast => some s
  | .serve (.handshake puts fd q) =>
    (s.conns.find? fd).bind fun c =>
      if s.role = .Leader ∧ s.proxyConnFd q.nodeid = none then
        ((s.setRaftPort fd q.raftport).welcome (puts.entry 0) fd c q).toOption
      else none
  | .serve _ => none

/-- No reply makes a counter wrap. -/
def CountsOn (s : RaftServer) : LeaderEvent → Prop
  | .serve (.reply _ fd r) => r.term ≤ s.currentTerm → r.counts = true →
      ∀ p ∈ (s.tiedTo fd).bind s.proxys.find?, p.nextIndex ≠ 0xFFFFFFFFFFFFFFFF
  | _ => True

instance decidableCountsOn (s : RaftServer) : (e : LeaderEvent) → Decidable (s.CountsOn e)
  | .serve (.reply _ _ _) => inferInstanceAs (Decidable (_ → _ → ∀ p ∈ Option.bind _ _, _))
  | .serve (.accept _ _) | .serve (.close _) | .serve (.handshake _ _ _) | .broadCast =>
    isTrue trivial

/-- Every message that can be built is built from entries of the log: the ones that
`SendAppendEntries` reads are those of `entryCalls`, and these are there. -/
structure BuildsInside (s : RaftServer) : Prop where
  counters : ∀ x p, s.proxys.find? x = some p → p.nextIndex = p.matchIndex + 1 ∧ 1 ≤ p.nextIndex
  sub : ∀ x p, s.proxys.find? x = some p → (p.nextIndex - 1).toNat + 1 = p.nextIndex.toNat
  reads : ∀ x p, s.proxys.find? x = some p → s.buildAppendEntries p =
    s.entryTermByIndex (p.nextIndex - 1).toUInt32 >>= fun iResult =>
      (s.entryCalls p).mapM s.entryByIndex >>= fun entries =>
        pure ⟨s.currentTerm, (p.nextIndex - 1).toUInt32,
          if iResult ≠ -1 then iResult.toUInt32 else 0, s.commitIndex, entries⟩
  inside : ∀ x p, s.proxys.find? x = some p → ∀ k ∈ s.entryCalls p, k.toNat < s.entries.length

/-- `NextIndex()` is one ahead of `MatchIndex()` and has not wrapped. -/
def Counted (s : RaftServer) : Prop :=
  ∀ x p, s.proxys.find? x = some p → p.nextIndex = p.matchIndex + 1 ∧ 1 ≤ p.nextIndex

variable {s s' t : RaftServer} {p : RaftProxy} {e : LeaderEvent}

/-! ## One message -/

/-- **The message.** Its entries are those at the indices of `entryCalls`, in order. -/
theorem buildAppendEntries_eq (s : RaftServer) (p : RaftProxy) :
    s.buildAppendEntries p =
      s.entryTermByIndex (p.nextIndex - 1).toUInt32 >>= fun iResult =>
        (s.entryCalls p).mapM s.entryByIndex >>= fun entries =>
          pure ⟨s.currentTerm, (p.nextIndex - 1).toUInt32,
            if iResult ≠ -1 then iResult.toUInt32 else 0, s.commitIndex, entries⟩ := by
  unfold buildAppendEntries entryCalls
  congr 1
  funext iResult
  split_ifs <;> simp

/-- With the counters one apart, an index is read only where there is an entry. -/
theorem Counted.buildsInside (h : s.Counted) : s.BuildsInside := by
  refine ⟨h, fun x p hp => ?_, fun x p _ => buildAppendEntries_eq s p, fun x p hp k hk => ?_⟩
  · have hpos := UInt64.le_iff_toNat_le.mp (h x p hp).2
    have hsub := UInt64.toNat_sub_of_le _ _ (h x p hp).2
    have hone : (1 : UInt64).toNat = 1 := rfl
    omega
  · have hpos : 1 ≤ p.nextIndex.toNat := UInt64.le_iff_toNat_le.mp (h x p hp).2
    by_cases hle : p.nextIndex.toNat ≤ s.lastEntryIndex
    · rw [entryCalls, if_pos hle, List.mem_append] at hk
      -- `LastEntryIndex()` is not 0, so the log has a second entry
      have hlen : p.nextIndex.toNat + 1 ≤ s.entries.length := by
        unfold lastEntryIndex at hle
        split_ifs at hle <;> omega
      rcases hk with hk | hk
      · split_ifs at hk
        · rw [List.mem_singleton.mp hk]
          exact lt_of_lt_of_le (Nat.succ_pos _) hlen
        · exact absurd hk List.not_mem_nil
      · rw [List.mem_singleton.mp hk, UInt64.toNat_toUInt32]
        exact lt_of_le_of_lt (Nat.mod_le _ _) hlen
    · rw [entryCalls, if_neg hle] at hk
      exact absurd hk List.not_mem_nil

/-! ## One event -/

theorem building_next_eq_some :
    building.next s e = some s' ↔ s.canLead e = true ∧ s.actAsLeader e = .ok s' := by
  show (if s.canLead e then (s.actAsLeader e).toOption else none) = some s' ↔ _
  rw [Option.ite_none_right_eq_some, Except.toOption_eq_some]

theorem counted_of_proxys (h : s.Counted) (hs' : s'.proxys = s.proxys) : s'.Counted := by
  intro x p hp
  rw [hs'] at hp
  exact h x p hp

/-- The handshake of a known node sets no counter. -/
theorem Retied.counted {fd old : ℕ} {q : HandshakeQ} (hret : s.Retied fd old q s')
    (h : s.Counted) : s'.Counted := by
  intro x p hp
  rw [hret.proxys] at hp
  split_ifs at hp with hx
  · obtain ⟨p0, hp0, rfl⟩ := Option.map_eq_some_iff.mp hp
    exact h _ p0 hp0
  · exact h x p hp

/-- A new proxy starts with 1 and 0, one that is there already keeps its counters. -/
theorem Welcomed.counted {put : PutResult} {fd : ℕ} {c : Conn} {q : HandshakeQ}
    (hwel : s.Welcomed put fd c q s') (h : s.Counted) : s'.Counted := by
  intro x p hp
  rw [hwel.proxys] at hp
  split_ifs at hp with hx
  · obtain rfl := Option.some.inj hp
    cases hp0 : s.proxys.find? q.nodeid with
    | none => exact ⟨rfl, UInt64.le_iff_toNat_le.mpr (le_refl 1)⟩
    | some p0 => exact h _ p0 hp0
  · exact h x p hp

/-- A reply that counts moves both counters, and neither wraps. -/
theorem Counted.countReply {fd : ℕ} {r : AppendEntriesR} (h : s.Counted)
    (hwrap : r.counts = true → ∀ p ∈ (s.tiedTo fd).bind s.proxys.find?,
      p.nextIndex ≠ 0xFFFFFFFFFFFFFFFF) : (s.countReply fd r).Counted := by
  intro x p hp
  rw [countReply_proxys] at hp
  split_ifs at hp with hx
  · obtain ⟨p0, hp0, rfl⟩ := Option.map_eq_some_iff.mp hp
    have hne := hwrap hx.1 p0 (by rw [hx.2]; exact hp0)
    refine ⟨?_, ?_⟩
    · show p0.nextIndex + 1 = p0.matchIndex + 1 + 1
      rw [(h x p0 hp0).1]
    · show 1 ≤ p0.nextIndex + 1
      have hpos : 1 ≤ p0.nextIndex.toNat := UInt64.le_iff_toNat_le.mp (h x p0 hp0).2
      have hmax : p0.nextIndex.toNat ≠ 2 ^ 64 - 1 := fun heq => hne (UInt64.toNat_inj.mp heq)
      have hlt := p0.nextIndex.toNat_lt
      rw [UInt64.le_iff_toNat_le, UInt64.toNat_add]
      show 1 ≤ (p0.nextIndex.toNat + 1) % 2 ^ 64
      omega
  · exact h x p hp

theorem counted_next (h : s.Counted) (hC : s.CountsOn e) (hn : building.next s e = some s') :
    s'.Counted := by
  obtain ⟨_, hok⟩ := building_next_eq_some.mp hn
  cases e with
  | broadCast =>
    obtain ⟨_, _, hok⟩ := Except.bind_eq_ok.mp hok
    rw [Except.pure_eq_ok] at hok
    exact hok ▸ h
  | serve e =>
    cases e with
    | accept fd addr =>
      obtain rfl := Except.ok.inj hok
      exact counted_of_proxys h rfl
    | close fd =>
      change s.offlineConn fd = .ok s' at hok
      unfold offlineConn at hok
      split at hok
      · cases hok
      · obtain rfl := Except.ok.inj hok
        exact counted_of_proxys h rfl
    | handshake puts fd q =>
      obtain ⟨⟨t, ms⟩, ht, hok⟩ := Except.bind_eq_ok.mp hok
      rw [Except.pure_eq_ok] at hok
      obtain rfl : t = s' := hok
      rcases handshakeQ_cases ht with ⟨_, rfl, _⟩ | ⟨_, rfl, _⟩ | ⟨_, ⟨_, _, hret⟩, _⟩ |
        ⟨_, _, ⟨_, _, hwel⟩, _⟩
      · exact h
      · exact h
      · exact hret.counted h
      · exact hwel.counted h
    | reply puts fd r =>
      rcases appendEntriesR_cases hok with ⟨_, rfl⟩ | ⟨hle, b, hb⟩
      · exact counted_of_proxys h rfl
      · obtain ⟨k, rfl⟩ := changeCommitIndex_frame hb
        exact counted_of_proxys (h.countReply (hC hle)) rfl

/-- The server on which an event broadcasts has not wrapped either. -/
theorem counted_broadCaster (h : s.Counted) (ht : s.broadCaster e = some t) : t.Counted := by
  cases e with
  | broadCast => exact Option.some.inj ht ▸ h
  | serve e =>
    cases e with
    | handshake puts fd q =>
      obtain ⟨c, hc, ht⟩ := Option.bind_eq_some_iff.mp ht
      rw [Option.ite_none_right_eq_some, Except.toOption_eq_some] at ht
      exact (welcome_eq_ok hc ht.2).counted h
    | accept | close | reply => cases ht

/-- **The broadcasts.** Where an event broadcasts, it leaves `broadCaster` behind and fails as the
broadcast fails. -/
theorem actAsLeader_of_broadCaster (ht : s.broadCaster e = some t) :
    s.actAsLeader e = t.broadCastAppendEntries >>= fun _ => pure t := by
  cases e with
  | broadCast => exact Option.some.inj ht ▸ rfl
  | serve e =>
    cases e with
    | handshake puts fd q =>
      obtain ⟨c, hc, ht⟩ := Option.bind_eq_some_iff.mp ht
      rw [Option.ite_none_right_eq_some, Except.toOption_eq_some] at ht
      obtain ⟨⟨hlead, hnone⟩, ht⟩ := ht
      have hnum : (s.setRaftPort fd q.raftport).proxyConnFd q.nodeid = none := hnone
      show (s.handshakeQ puts fd q >>= fun x => pure x.1) = _
      unfold handshakeQ
      rw [hc]
      dsimp only
      rw [if_neg (not_not.mpr hlead), hnum]
      dsimp only
      rw [handshakeNew_eq, ht, Except.ok_bind]
      simp only [bind_assoc, pure_bind]
    | accept | close | reply => cases ht

/-- The handshake of a known node ties its connection to a proxy that is there. -/
theorem handshakeKnown_ne_nullProxy {fd old : ℕ} {dwID : UInt32}
    (hold : s.proxyConnFd dwID = some old) :
    s.handshakeKnown fd old dwID ≠ .error .nullProxy := by
  intro h
  by_cases hgone : old ≠ fd ∧ s.conns.find? old = none
  · rw [(handshakeKnown_eraseEnd_iff fd hold).mpr hgone] at h
    cases h
  · have hfound : old ≠ fd → (s.conns.find? old).isSome := fun hne =>
      Option.isSome_iff_ne_none.mpr fun hnone => hgone ⟨hne, hnone⟩
    obtain ⟨s', hs'⟩ := handshakeKnown_of_found hold hfound
    rw [hs'] at h
    cases h

theorem handshakeQ_ne_nullProxy (puts : Puts) (s : RaftServer) (fd : ℕ) (q : HandshakeQ) :
    s.handshakeQ puts fd q ≠ .error .nullProxy := by
  intro h
  unfold handshakeQ at h
  split at h
  · cases h
  · split at h
    · cases h
    · dsimp only at h
      split at h
      · next old hold =>
        rcases Except.bind_eq_error.mp h with h | ⟨_, _, h⟩
        · exact handshakeKnown_ne_nullProxy hold h
        · cases h
      · rcases Except.bind_eq_error.mp h with h | ⟨_, _, h⟩
        · cases handshakeNew_error h
        · cases h

theorem changeCommitIndex_error {f : Fault} (h : s.changeCommitIndex = .error f) :
    f = .outOfRange := by
  unfold changeCommitIndex at h
  split_ifs at h
  split at h
  · exact (Except.error.inj h).symm
  · split_ifs at h

/-- `GetProxyByID` is asked for proxies that are there. -/
theorem actAsLeader_ne_nullProxy (s : RaftServer) (e : LeaderEvent) :
    s.actAsLeader e ≠ .error .nullProxy := by
  intro h
  cases e with
  | broadCast =>
    rcases Except.bind_eq_error.mp h with h | ⟨_, _, h⟩
    · cases broadCastAppendEntries_error h
    · cases h
  | serve e =>
    cases e with
    | accept fd addr => cases h
    | close fd =>
      change s.offlineConn fd = .error .nullProxy at h
      unfold offlineConn at h
      split at h <;> cases h
    | handshake puts fd q =>
      rcases Except.bind_eq_error.mp h with h | ⟨_, _, h⟩
      · exact handshakeQ_ne_nullProxy puts s fd q h
      · cases h
    | reply puts fd r =>
      change s.appendEntriesR puts fd r = .error .nullProxy at h
      unfold appendEntriesR setAndPersistTerm at h
      split_ifs at h
      · cases h
      · cases h
      · rcases Except.bind_eq_error.mp h with h | ⟨_, _, h⟩
        · cases changeCommitIndex_error h
        · cases h

/-! ## Runs -/

/-- The leader starts without proxies. -/
theorem counted_of_launchStart {put : PutResult} {disk : Disk} {iRaftPort iNodeID : Int32}
    (h : launchStart put disk iRaftPort iNodeID = .ok s) : s.Counted := by
  obtain ⟨db, happ, _⟩ := appendCfgLog_frame put ({ new disk with role := .Leader })
    startHost iRaftPort iNodeID
  rw [← launchStart_eq_ok h] at happ
  intro x p hp
  rw [happ] at hp
  cases hp

theorem counted_of_reachable (h : building.Reachable CountsOn s) : s.Counted := by
  apply h.invariant
  · rintro s ⟨put, disk, port, id, hs⟩
    exact counted_of_launchStart hs
  · exact fun _ _ _ _ hs hC hn => counted_next hs hC hn

/-- **Building inside the log.** In every state of a leader whose counters have not wrapped, and
on every server on which its next event broadcasts, messages are built from entries of the log,
and no event makes a null proxy. -/
theorem builds_inside (h : building.Reachable CountsOn s) :
    s.BuildsInside ∧ ∀ e, s.actAsLeader e ≠ .error .nullProxy ∧
      ∀ t, s.broadCaster e = some t → t.BuildsInside ∧
        s.actAsLeader e = t.broadCastAppendEntries >>= fun _ => pure t := by
  have hs := counted_of_reachable h
  refine ⟨hs.buildsInside, fun e => ⟨actAsLeader_ne_nullProxy s e, fun t ht => ⟨?_, ?_⟩⟩⟩
  · exact (counted_broadCaster hs ht).buildsInside
  · exact actAsLeader_of_broadCaster ht

/-- Node 2 has joined and has acknowledged the first message; node 3 is about to join. -/
def joins : List LeaderEvent :=
  (comes .allOk 5 2).map .serve ++ [.broadCast, .serve (.reply .allOk 5 ⟨0, true, false⟩),
    .serve (.accept 6 [])]

theorem builds_inside_joins : ∃ s t : RaftServer, building.run alone joins = some s ∧
    s.BuildsInside ∧ s.broadCaster (.serve (.handshake .allOk 6 ⟨7779, 3⟩)) = some t ∧
      t.entries.length = 3 ∧ t.BuildsInside := by
  have hrun : ((building.run alone joins).any fun s : RaftServer =>
      (s.broadCaster (.serve (.handshake .allOk 6 ⟨7779, 3⟩))).any fun t : RaftServer =>
        decide (t.entries.length = 3)) = true := by decide +kernel
  obtain ⟨s, hs, hany⟩ := (Option.any_eq_true _ _).mp hrun
  obtain ⟨t, ht, hlen⟩ := (Option.any_eq_true _ _).mp hany
  have hstart : building.init alone := ⟨_, _, _, _, launchStart_alone⟩
  have hreach : building.Reachable CountsOn s :=
    System.reachable_of_run (System.reachable_init hstart) (by decide +kernel) hs
  obtain ⟨hbuilds, hall⟩ := builds_inside hreach
  exact ⟨s, t, hs, hbuilds, ht, of_decide_eq_true hlen, ((hall _).2 t ht).1⟩

end RaftServer
end NanoRaft
