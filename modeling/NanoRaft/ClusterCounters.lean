import NanoRaft.ClusterCopies

/-!
# The start node's counters

`MatchIndex()` is counted up by one for every reply to an accepted message with entries,
whatever the reply acknowledges. The counters mean what they should

* inside the log (`counters_in_log`), in the runs in which no follower acknowledges the same
  entries twice;
* in the followers' logs, so that a committed entry is on a majority (`commit_replicated`),
  in the runs in which followers store all they acknowledge and do not start anew.

Each comes with a run of the unrestricted cluster that breaks the property.
-/

namespace NanoRaft
namespace Cluster

open RaftServer (SentBy LeaderStep BuiltFor stored)

variable {c c' : Cluster} {i j k : ℕ} {s t t' : RaftServer} {P P' : Peer} {puts : Puts}
  {q : AppendEntriesQ} {r : AppendEntriesR}

/-! ## Counters inside the log -/

/-- The runs in which no follower acknowledges the same entries twice: what its connection's
counter has counted and will count is at most the index the message builds on. -/
def AckedOnce (c : Cluster) : Event → Prop
  | .toLeader i _ => c.RoomFor i
  | .toPeer i _ => c.WhenStored i fun P q =>
    ∀ a ∈ c.leader.ackedOn i, a.toNat + acks P.toLeader ≤ q.prelogindex.toNat
  | _ => True

theorem AckedOnce.room {e : Event} (h : AckedOnce c e) : Room c e := by
  cases e with
  | toLeader i puts => exact h
  | _ => trivial

/-- The counters, with the replies that are still on their way, stay inside the log. -/
structure Counted (c : Cluster) : Prop where
  proxys : ∀ (id : UInt32) (p : RaftProxy), c.leader.proxys.find? id = some p →
    p.matchIndex.toNat ≤ c.leader.entries.length - 1
  peers : ∀ (j : ℕ) (P : Peer) (a : UInt64), c.peers[j]? = some P →
    c.leader.ackedOn j = some a → a.toNat + acks P.toLeader ≤ c.leader.entries.length - 1
  /-- No counter had wrapped when a message was built. -/
  sent : ∀ (j : ℕ) (P : Peer) (q : AppendEntriesQ), c.peers[j]? = some P →
    .appendentries_q q ∈ P.toPeer → q.prelogindex ≠ 0xFFFFFFFF

/-- A counter that counts at most one reply, against the replies that were on the way. -/
theorem counted_le {a a' : UInt64} {n m bound : ℕ} (hb : bound < 2 ^ 32) {b : Bool}
    (ha : a' = a ∨ (b = true ∧ a' = a + 1)) (hm : m = n + if b then 1 else 0)
    (hle : a.toNat + m ≤ bound) : a'.toNat + n ≤ bound := by
  rcases ha with rfl | ⟨hbt, rfl⟩
  · omega
  · rw [if_pos hbt] at hm
    have hsucc : (a + 1).toNat = a.toNat + 1 := UInt.toNat_succ64 (by omega)
    omega

theorem counted_peers_step (hwf : Wf c) (hcount : Counted c) {e : Event} (hC : AckedOnce c e)
    (h : c.next e = some c') (hP' : c'.peers[j]? = some P') {a' : UInt64}
    (ha' : c'.leader.ackedOn j = some a') :
    a'.toNat + acks P'.toLeader ≤ c'.leader.entries.length - 1 := by
  have hle := (leader_grows hwf h).1.length_le
  have hshort := hwf.log.short
  cases peerStep_of_event hwf h hP' with
  | joined _ hacked =>
    rw [hacked] at ha'
    cases ha'
  | kept P hP _ hreplies hacked =>
    have hold := hcount.peers j P a' hP (hacked a' ha')
    rw [hreplies]
    omega
  | shaken P hP _ hreplies hacked =>
    have hzero : a'.toNat = 0 := by rw [hacked a' ha']; rfl
    rw [hreplies, acks_nil]
    omega
  | acknowledged P hP r _ hreplies hacked =>
    obtain ⟨a, ha, hcases⟩ := hacked a' ha'
    have hold := hcount.peers j P a hP ha
    have hacks := acks_reply r P'.toLeader
    rw [← hreplies] at hacks
    -- the reply leaves the connection as it enters the counter
    have hbound := counted_le (by omega) hcases hacks hold
    omega
  | handled P hP puts q rest r he hm hsent hq hreplies hlead =>
    subst he
    rw [hlead] at ha' ⊢
    rw [hreplies, acks_snoc]
    by_cases hr : r.counts = true
    · -- the new reply is for entries up to the index after the one the message names
      obtain ⟨hacc, hne⟩ := (RaftServer.counts_iff hq).mp hr
      have hroom := hC.head hP hm hacc hne a' ha'
      have hwrap := hcount.sent j P q hP (by rw [hm]; exact List.mem_cons_self)
      rw [if_pos hr]
      rcases hsent.entries with hnil | hlast | ⟨hlen, _⟩
      · exact absurd hnil hne
      · exact absurd hlast hwrap
      · omega
    · rw [if_neg hr]
      exact hcount.peers j P a' hP ha'

theorem counted_step (hwf : Wf c) (hwf' : Wf c') (hcount : Counted c) {e : Event}
    (hC : AckedOnce c e) (h : c.next e = some c') : Counted c' := by
  have hle := (leader_grows hwf h).1.length_le
  have hpeers : ∀ (j : ℕ) (P' : Peer) (a' : UInt64), c'.peers[j]? = some P' →
      c'.leader.ackedOn j = some a' →
      a'.toNat + acks P'.toLeader ≤ c'.leader.entries.length - 1 :=
    fun j P' a' hP' ha' => counted_peers_step hwf hcount hC h hP' ha'
  have hproxys : ∀ (id : UInt32) (p' : RaftProxy), c'.leader.proxys.find? id = some p' →
      p'.matchIndex.toNat ≤ c'.leader.entries.length - 1 := by
    intro id p' hp'
    rcases matchIndex_of_event hwf h hp' with hzero | ⟨p, hp, hsame⟩ | ⟨j, P', hP', hacked⟩
    · rw [hzero]
      exact Nat.zero_le _
    · have hold := hcount.proxys id p hp
      rw [← hsame]
      omega
    · have hnew := hpeers j P' _ hP' hacked
      omega
  refine ⟨hproxys, hpeers, fun j P' q hP' hq => ?_⟩
  rcases appendEntriesQ_of_event hwf h hP' hq with ⟨P, hP, hqP⟩ | ⟨id, p, q', _, hp, hbuild, heq⟩
  · exact hcount.sent j P q hP hqP
  · -- a message that has just been built names the counter, which is inside the log
    obtain rfl := Message.appendentries_q.inj heq
    obtain ⟨_, hpre⟩ :=
      RaftServer.buildAppendEntries_sentBy hwf'.log (hwf'.proxys.counters id p hp) hbuild
    have hmatch := hproxys id p hp
    have hshort := hwf'.log.short
    intro hwrap
    have hnat : p.matchIndex.toUInt32.toNat = 2 ^ 32 - 1 := by
      rw [← hpre, hwrap]
      rfl
    rw [UInt.toNat_toUInt32 (by omega)] at hnat
    omega

theorem counted_of_reachable (h : system.Reachable AckedOnce c) : Counted c := by
  have hroom : ∀ c e, AckedOnce c e → Room c e := fun _ _ => AckedOnce.room
  apply h.invariant (I := Counted)
  · intro c hc
    obtain ⟨hproxys, hpeers⟩ := launched_proxys hc
    refine ⟨fun id p hp => ?_, fun j P a hP => ?_, fun j P q hP => ?_⟩
    · rw [hproxys] at hp
      cases hp
    · rw [hpeers] at hP
      cases hP
    · rw [hpeers] at hP
      cases hP
  · intro c e c' hreach hcount hallowed hn
    exact counted_step (wf_of_reachable hroom hreach)
      (wf_of_reachable hroom (hreach.step hallowed hn)) hcount hallowed hn

/-- A bound on a counter with the replies on their way bounds the counter after the reply
that is read next. -/
theorem acked_after_reply (hwf : Wf c) (hP : c.peers[i]? = some P) {rest : List Message}
    (hm : P.toLeader = .appendentries_r r :: rest) (hP' : c.peers[j]? = some P') {a' : UInt64}
    (ha' : (c.leader.countReply i r).ackedOn j = some a') {bound : ℕ} (hb : bound < 2 ^ 32)
    (hold : ∀ a, c.leader.ackedOn j = some a → a.toNat + acks P'.toLeader ≤ bound) :
    a'.toNat ≤ bound := by
  obtain ⟨a, ha, hcase⟩ := RaftServer.ackedOn_countReply hwf.proxys ha'
  have hle := hold a ha
  split at hcase
  · next hcond =>
    obtain ⟨hji, hr⟩ := hcond
    rw [hji, hP] at hP'
    obtain rfl := Option.some.inj hP'
    have hacks := acks_reply r rest
    rw [← hm] at hacks
    have hbound := counted_le hb (Or.inr ⟨hr, hcase⟩) hacks hle
    omega
  · rw [hcase]
    omega

/-- Counting the reply that is read next keeps every counter inside the log. -/
theorem Counted.countReply (hwf : Wf c) (hcount : Counted c) (hP : c.peers[i]? = some P)
    {rest : List Message} (hm : P.toLeader = .appendentries_r r :: rest)
    (hl : c.listens i = true) :
    ∀ p ∈ (c.leader.countReply i r).proxys.values,
      p.matchIndex.toNat ≤ c.leader.entries.length - 1 := by
  intro p' hp'
  obtain ⟨id, hid⟩ := OrdMap.mem_values_iff.mp hp'
  obtain ⟨cn, hcn, hread⟩ := listens_iff.mp hl
  rcases RaftServer.countReply_matchIndex hcn hread hid with hold | hacked
  · exact hcount.proxys id p' hold
  · have hshort := hwf.log.short
    exact acked_after_reply hwf hP hm hP hacked (by omega)
      fun a ha => hcount.peers i P a hP ha

/-- With the counters inside the log, so is the index that `ChangeCommitIndex` reads. -/
theorem changeCommitIndex_ne_outOfRange (hl : s.LogWf)
    (hcount : ∀ p ∈ s.proxys.values, p.matchIndex.toNat ≤ s.entries.length - 1) :
    s.changeCommitIndex ≠ .error .outOfRange := by
  intro h
  unfold RaftServer.changeCommitIndex at h
  split at h
  · next hmost =>
    split at h
    · next hnone =>
      -- the majority is not empty, so some counter has reached the index
      have hpos : 0 < s.replicaCount := by omega
      obtain ⟨p, hp, hreach⟩ := List.countP_pos_iff.mp hpos
      rw [decide_eq_true_iff, UInt64.le_iff_toNat_le, UInt32.toNat_toUInt64] at hreach
      have hle := hcount p hp
      have hcommit := hl.commit
      have hshort := hl.short
      have hsucc : (s.commitIndex + 1).toNat = s.commitIndex.toNat + 1 :=
        UInt.toNat_succ32 (by omega)
      rw [List.getElem?_eq_none_iff] at hnone
      omega
    · split at h
      · cases h
      · cases h
  · cases h

/-- **Counters stay inside the log**, in every run in which no follower acknowledges the same
entries twice; a reply then never makes the start node read outside its log. -/
theorem counters_in_log (h : system.Reachable AckedOnce c) :
    (∀ p ∈ c.leader.proxys.values, p.matchIndex.toNat ≤ c.leader.lastEntryIndex) ∧
    ∀ i puts P r rest, c.peers[i]? = some P → P.toLeader = .appendentries_r r :: rest →
      c.listens i = true → c.leader.appendEntriesR puts i r ≠ .error .outOfRange := by
  have hwf := wf_of_reachable (fun _ _ => AckedOnce.room) h
  have hcount := counted_of_reachable h
  constructor
  · intro p hp
    obtain ⟨id, hid⟩ := OrdMap.mem_values_iff.mp hp
    rw [RaftServer.lastEntryIndex_eq]
    exact hcount.proxys id p hid
  · intro i puts P r rest hP hm hl herr
    have hentries : (c.leader.countReply i r).entries = c.leader.entries := by
      rw [RaftServer.countReply_frame]
    have hsafe := changeCommitIndex_ne_outOfRange (hwf.log.countReply i r)
      (by rw [hentries]; exact hcount.countReply hwf hP hm hl)
    unfold RaftServer.appendEntriesR at herr
    split at herr
    · unfold RaftServer.setAndPersistTerm at herr
      split at herr
      · cases herr
      · cases herr
    · cases hres : (c.leader.countReply i r).changeCommitIndex with
      | error f =>
        rw [hres] at herr hsafe
        injection herr with herr
        rw [herr] at hsafe
        exact hsafe rfl
      | ok x =>
        rw [hres] at herr
        cases herr

/-- Two copies of the first two entries are acknowledged: with two followers a counter passes
the end of the log, with one follower the second reply makes `ChangeCommitIndex` read there. -/
theorem counter_passes_log :
    (¬ ∀ c, system.Reachable System.anyStep c →
      ∀ p ∈ c.leader.proxys.values, p.matchIndex.toNat ≤ c.leader.lastEntryIndex) ∧
    (¬ ∀ c, system.Reachable System.anyStep c → ∀ i puts P r rest, c.peers[i]? = some P →
      P.toLeader = .appendentries_r r :: rest → c.listens i = true →
      c.leader.appendEntriesR puts i r ≠ .error .outOfRange) := by
  constructor
  · intro hall
    obtain ⟨c, hreach, htest⟩ := System.exists_of_run
      [joins 2, leaderReads 0, joins 3, leaderReads 1, .tick, peerReads 0, peerReads 0,
        peerReads 0, peerReads 0, leaderReads 0, leaderReads 0, leaderReads 0]
      (fun c => ∃ p ∈ c.leader.proxys.values, ¬ p.matchIndex.toNat ≤ c.leader.lastEntryIndex)
      reachable_started (System.allowed_anyStep _ _) (by decide +kernel)
    obtain ⟨p, hp, hnot⟩ := of_decide_eq_true htest
    exact hnot (hall c hreach p hp)
  · intro hall
    let r : AppendEntriesR := ⟨0, true, false⟩
    obtain ⟨c, hreach, htest⟩ := System.exists_of_run
      [joins 2, leaderReads 0, .tick, peerReads 0, peerReads 0, peerReads 0, leaderReads 0]
      (fun c : Cluster => decide (c.listens 0 = true ∧
          ∃ P ∈ c.peers[0]?, P.toLeader = [.appendentries_r r]) &&
        match c.leader.appendEntriesR .allOk 0 r with
        | .error .outOfRange => true
        | _ => false)
      reachable_started (System.allowed_anyStep _ _) (by decide +kernel)
    obtain ⟨hstate, herr⟩ := Bool.and_eq_true_iff.mp htest
    obtain ⟨hl, P, hP, hm⟩ := of_decide_eq_true hstate
    have hne := hall c hreach 0 .allOk P r [] hP hm hl
    split at herr
    · next heq => exact hne heq
    · cases herr

instance : ∀ (c : Cluster) (e : Event), Decidable (AckedOnce c e)
  | c, .toLeader i _ => inferInstanceAs (Decidable (c.RoomFor i))
  | c, .toPeer i _ =>
    -- not by trying every 64-bit number
    have : ∀ (P : Peer) (q : AppendEntriesQ), Decidable (∀ a ∈ c.leader.ackedOn i,
        a.toNat + acks P.toLeader ≤ q.prelogindex.toNat) := fun _ _ => Option.decidableForallMem _
    inferInstanceAs (Decidable (c.WhenStored i fun P q =>
      ∀ a ∈ c.leader.ackedOn i, a.toNat + acks P.toLeader ≤ q.prelogindex.toNat))
  | _, .join .. | _, .tick | _, .timeout _ => isTrue trivial

/-- A follower has acknowledged the first two entries once. -/
theorem counters_in_log_acked :
    ∃ c, system.Reachable AckedOnce c ∧ ∃ p ∈ c.leader.proxys.values,
      p.matchIndex = 1 ∧ p.matchIndex.toNat ≤ c.leader.lastEntryIndex := by
  have hinit : system.Reachable AckedOnce started := reachable_started
  obtain ⟨c, hreach, htest⟩ := System.exists_of_run
    [joins 2, leaderReads 0, peerReads 0, leaderReads 0]
    (fun c => ∃ p ∈ c.leader.proxys.values, p.matchIndex = 1)
    hinit (by decide +kernel) (by decide +kernel)
  obtain ⟨p, hp, hone⟩ := of_decide_eq_true htest
  exact ⟨c, hreach, p, hp, hone, (counters_in_log hreach).1 p hp⟩

/-! ## Committed entries are on a majority -/

/-- All entries of the message are pushed, behind a log that ends where the message begins. -/
def StoresAll (puts : Puts) (s : RaftServer) (q : AppendEntriesQ) : Prop :=
  s.entries.length ≤ q.firstIndex ∧ ∀ k < q.entries.length, (puts.entry k).ok = true

/-- A handshake that is read next is not that of a node which has acknowledged entries on
another connection: such a node has started anew, with an empty log. -/
def NotReplaced (c : Cluster) (i : ℕ) : Prop :=
  ∀ P ∈ c.peers[i]?, ∀ m ∈ P.toLeader.head?, match m with
    | .handshake_q q => ∀ p ∈ c.leader.proxys.find? q.nodeid, p.matchIndex = 0
    | _ => True

/-- The runs in which followers store what they acknowledge and keep it. -/
def Replicating (c : Cluster) : Event → Prop
  | .toLeader i _ => c.RoomFor i ∧ c.NotReplaced i
  | .toPeer i puts => c.WhenStored i fun P q => StoresAll puts P.server q
  | _ => True

theorem Replicating.inPlace {e : Event} (h : Replicating c e) : InPlace c e := by
  cases e with
  | toLeader i puts => exact h.1
  | toPeer i puts =>
    intro P hP m hm
    have hhead := h P hP m hm
    cases m with
    | appendentries_q q =>
      intro hacc hne k hk _
      obtain ⟨hlen, hok⟩ := hhead hacc hne
      exact ⟨hlen, fun i hi => hok i (lt_trans hi hk)⟩
    | _ => trivial
  | _ => trivial

/-- What a counter has counted and will count, the follower holds. -/
structure Held (c : Cluster) : Prop where
  peers : ∀ (j : ℕ) (P : Peer) (a : UInt64), c.peers[j]? = some P →
    c.leader.ackedOn j = some a → a.toNat + acks P.toLeader ≤ P.server.entries.length - 1
  live : c.leader.Live

/-- An accepted message that is stored as a whole takes a log that ends where it begins two
indices past the one it names. -/
theorem length_of_storesAll (hl : s.LogWf) (hcopy : CopyOf s t) (hlogs : t.logs = [])
    (hsent : SentBy s q) (hq : t.appendEntriesQ puts q = .ok (t', r)) (hacc : t.Accepts q)
    (hne : q.entries ≠ []) (hall : StoresAll puts t q) :
    t.entries.length = q.firstIndex ∧ t'.entries.length = q.prelogindex.toNat + 2 := by
  have hent := (RaftServer.appendEntriesQ_of_logs hlogs hq).1
  rw [if_pos ((RaftServer.appendEntriesQ_success hq).mpr hacc)] at hent
  have hstored : (stored puts.entry q.term q.entries).length = q.entries.length :=
    RaftServer.length_stored_of_all (isCfg_of_accepts hl hcopy hsent hacc) hall.2
  obtain ⟨hlen, hes⟩ := entries_of_accepts hl hcopy hsent hacc hne
  have hfirst := firstIndex_le_of_accepts hacc
  have hle := hall.1
  have hbegin : q.firstIndex ≤ q.prelogindex.toNat + 1 := by
    rcases Nat.eq_zero_or_pos q.prelogindex.toNat with hzero | hpos
    · rw [q.firstIndex_of_zero hzero]
      exact Nat.zero_le _
    · exact (q.firstIndex_of_pos hpos).le
  have hcount : q.entries.length = q.prelogindex.toNat + 2 - q.firstIndex := by
    rw [hes, List.length_drop, List.length_take]
    omega
  refine ⟨by omega, ?_⟩
  rw [hent, List.length_append, hstored, hcount]
  omega

theorem held_peers_step (hwf : Wf c) (hcopies : Copies c) (hheld : Held c) {e : Event}
    (hC : Replicating c e) (h : c.next e = some c') (hP' : c'.peers[j]? = some P')
    {a' : UInt64} (ha' : c'.leader.ackedOn j = some a') :
    a'.toNat + acks P'.toLeader ≤ P'.server.entries.length - 1 := by
  have hshort := hwf.log.short
  cases peerStep_of_event hwf h hP' with
  | joined _ hacked =>
    rw [hacked] at ha'
    cases ha'
  | kept P hP hentries hreplies hacked =>
    rw [hentries, hreplies]
    exact hheld.peers j P a' hP (hacked a' ha')
  | shaken P hP _ hreplies hacked =>
    have hzero : a'.toNat = 0 := by rw [hacked a' ha']; rfl
    rw [hreplies, acks_nil]
    omega
  | acknowledged P hP r hentries hreplies hacked =>
    obtain ⟨a, ha, hcases⟩ := hacked a' ha'
    have hold := hheld.peers j P a hP ha
    have hle := (hcopies j P hP).length_le
    have hacks := acks_reply r P'.toLeader
    rw [← hreplies] at hacks
    rw [hentries]
    exact counted_le (by omega) hcases hacks hold
  | handled P hP puts q rest r he hm hsent hq hreplies hlead =>
    subst he
    rw [hlead] at ha'
    have hold := hheld.peers j P a' hP ha'
    rw [hreplies, acks_snoc]
    by_cases hr : r.counts = true
    · -- the log has grown to the index after the one the message names, past all counted before
      obtain ⟨hacc, hne⟩ := (RaftServer.counts_iff hq).mp hr
      obtain ⟨hlen, hlen'⟩ := length_of_storesAll hwf.log (hcopies j P hP)
        (hwf.peers j P hP).logs hsent hq hacc hne (hC.head hP hm hacc hne)
      rw [if_pos hr, hlen']
      rcases Nat.eq_zero_or_pos q.prelogindex.toNat with hzero | hpos
      · rw [q.firstIndex_of_zero hzero] at hlen
        omega
      · rw [q.firstIndex_of_pos hpos] at hlen
        omega
    · rw [if_neg hr]
      have hgrow := (RaftServer.appendEntriesQ_entries hq).length_le
      omega

theorem live_step (hwf : Wf c) (hlive : c.leader.Live) {e : Event} (hC : Replicating c e)
    (h : c.next e = some c') : c'.leader.Live := by
  rcases next_leader h with hlead | ⟨addr, hlead⟩ | ⟨i, puts, rfl⟩
  · rw [hlead]
    exact hlive
  · -- the accepted connection is a new one
    intro id p hp hne
    rw [hlead] at hp ⊢
    obtain ⟨k, cn, hk, hcn, hread⟩ := hlive id p hp hne
    refine ⟨k, cn, hk, ?_, hread⟩
    show (c.leader.conns.insert _ _).find? k = some cn
    rw [OrdMap.find?_insert, if_neg (OrdMap.ne_of_find? hcn hwf.unregistered), hcn]
  · obtain ⟨P, m, rest, ms, cn, hP, hm, hcn, hread, hstep, hhand, _⟩ := leaderStep_of_next hwf h
    apply hstep.live hwf.proxys hcn hread (fun q hq => (hhand q hq).1.untied) _ hlive
    intro q hq p hp
    have hhead := hC.2 P hP m (by rw [hm]; rfl)
    rw [hq] at hhead
    exact hhead p hp

theorem held_of_reachable (h : system.Reachable Replicating c) : Held c := by
  have hin : ∀ c e, Replicating c e → InPlace c e := fun _ _ => Replicating.inPlace
  have hroom : ∀ c e, Replicating c e → Room c e := fun c e he => (hin c e he).room
  apply h.invariant (I := Held)
  · intro c hc
    obtain ⟨hproxys, hpeers⟩ := launched_proxys hc
    refine ⟨fun j P a hP => ?_, fun id p hp => ?_⟩
    · rw [hpeers] at hP
      cases hP
    · rw [hproxys] at hp
      cases hp
  · intro c e c' hreach hheld hallowed hn
    have hwf := wf_of_reachable hroom hreach
    have hcopies := copies_of_reachable hin hreach
    exact ⟨fun j P' a' hP' ha' => held_peers_step hwf hcopies hheld hallowed hn hP' ha',
      live_step hwf hheld.live hallowed hn⟩

/-- The start node reads a reply on connection `i` for which `ChangeCommitIndex` returns true
and leaves it as `s`. -/
def Commits (c : Cluster) (i : ℕ) (s : RaftServer) : Prop :=
  ∃ (P : Peer) (r : AppendEntriesR) (rest : List Message), c.peers[i]? = some P ∧
    P.toLeader = .appendentries_r r :: rest ∧ c.listens i = true ∧
    r.term ≤ c.leader.currentTerm ∧
    (c.leader.countReply i r).changeCommitIndex = .ok (s, true)

/-- The node behind proxy `p` holds the start node's entry at index `k`. -/
def HasEntry (c : Cluster) (k : ℕ) (p : RaftProxy) : Prop :=
  ∃ P ∈ p.connFd.bind (c.peers[·]?), ∃ e ∈ c.leader.entries[k]?, P.server.entries[k]? = some e

instance (c : Cluster) (k : ℕ) : DecidablePred (c.HasEntry k) := fun p =>
  inferInstanceAs (Decidable (∃ P ∈ p.connFd.bind (c.peers[·]?),
    ∃ e ∈ c.leader.entries[k]?, P.server.entries[k]? = some e))

/-- A follower that has acknowledged index `k` holds the start node's entry there, if that
entry is of the current term. -/
theorem hasEntry_of_acked (hwf : Wf c) (hcopies : Copies c) {p : RaftProxy} {x : Entry}
    (hfd : p.connFd = some j) (hP : c.peers[j]? = some P) (hx : c.leader.entries[k]? = some x)
    (hterm : x.term = c.leader.currentTerm) (hlen : k < P.server.entries.length) :
    c.HasEntry k p := by
  obtain ⟨y, u, hy, hu, hey⟩ := hcopies j P hP k _ (List.getElem?_eq_getElem hlen)
  rw [hx] at hy
  obtain rfl := Option.some.inj hy
  -- both terms are 0, so the entry was not changed when it was rebuilt
  have hu0 : u = 0 := by
    rw [← hterm, hwf.log.term_eq_zero hx] at hu
    exact UInt.eq_zero_of_le hu
  rw [hu0, hwf.log.own x (List.mem_of_getElem? hx)] at hey
  refine ⟨P, ?_, x, hx, ?_⟩
  · rw [hfd]
    exact hP
  · rw [List.getElem?_eq_getElem hlen, hey]

/-- Whoever has acknowledged index `k` when the next reply is counted holds the start node's
entry there. -/
theorem hasEntry_of_counted (hwf : Wf c) (hcopies : Copies c) (hheld : Held c)
    (hP : c.peers[i]? = some P) {rest : List Message} (hm : P.toLeader = .appendentries_r r :: rest)
    (hl : c.listens i = true) {x : Entry} (hx : c.leader.entries[k]? = some x)
    (hterm : x.term = c.leader.currentTerm) {p : RaftProxy}
    (hp : p ∈ (c.leader.countReply i r).proxys.values) (hpos : 0 < k)
    (hreach : k ≤ p.matchIndex.toNat) : c.HasEntry k p := by
  obtain ⟨id, hid⟩ := OrdMap.mem_values_iff.mp hp
  obtain ⟨cn, hcn, hread⟩ := listens_iff.mp hl
  have hne : p.matchIndex ≠ 0 := by
    intro hzero
    have hz : p.matchIndex.toNat = 0 := by rw [hzero]; rfl
    omega
  -- the proxy has a connection that is read, so its counter is bounded by the follower's log
  have hlive := hheld.live.countReply hwf.proxys hcn hread r
  obtain ⟨j, hfd, hacked⟩ := hlive.ackedOn (hwf.proxys.countReply i r) hid hne
  obtain ⟨cn', _, _, hcn', _⟩ := RaftServer.ackedOn_eq_some.mp hacked
  rw [RaftServer.countReply_conns] at hcn'
  obtain ⟨P', hP'⟩ := hwf.registered j cn' hcn'
  have hle := (hcopies j P' hP').length_le
  have hshort := hwf.log.short
  have hlen := acked_after_reply hwf hP hm hP' hacked (by omega)
    fun a ha => hheld.peers j P' a hP' ha
  exact hasEntry_of_acked hwf hcopies hfd hP' hx hterm (by omega)

/-- **A committed entry is on a majority**, in every run in which followers store what they
acknowledge: with the start node, they are more than half. -/
theorem commit_replicated (h : system.Reachable Replicating c) (hc : c.Commits i s) :
    (s.proxys.size + 1) / 2 ≤ s.proxys.values.countP (c.HasEntry s.commitIndex.toNat) := by
  have hin : ∀ c e, Replicating c e → InPlace c e := fun _ _ => Replicating.inPlace
  have hwf := wf_of_reachable (fun c e he => (hin c e he).room) h
  have hcopies := copies_of_reachable hin h
  have hheld := held_of_reachable h
  obtain ⟨P, r, rest, hP, hm, hl, _, hcommit⟩ := hc
  have hentries : (c.leader.countReply i r).entries = c.leader.entries := by
    rw [RaftServer.countReply_frame]
  have hcurrent : (c.leader.countReply i r).currentTerm = c.leader.currentTerm := by
    rw [RaftServer.countReply_frame]
  rcases RaftServer.changeCommitIndex_cases hcommit with ⟨_, hb⟩ | ⟨hmost, ⟨x, hx, hterm⟩, rfl, _⟩
  · cases hb
  · rw [hentries] at hx
    rw [hcurrent] at hterm
    have hsame : (c.leader.countReply i r).commitIndex = c.leader.commitIndex := by
      rw [RaftServer.countReply_frame]
    have hcommit := hwf.log.commit
    have hshort := hwf.log.short
    have hsucc : ((c.leader.countReply i r).commitIndex + 1).toNat = c.leader.commitIndex.toNat + 1 := by
      rw [hsame]
      exact UInt.toNat_succ32 (by omega)
    -- whoever is counted for the majority holds the entry
    have hcounted : (c.leader.countReply i r).replicaCount
        ≤ (c.leader.countReply i r).proxys.values.countP
          (c.HasEntry ((c.leader.countReply i r).commitIndex + 1).toNat) := by
      apply List.countP_mono_left
      intro p hp hreach
      rw [decide_eq_true_iff, UInt64.le_iff_toNat_le, UInt32.toNat_toUInt64] at hreach
      rw [decide_eq_true_iff]
      exact hasEntry_of_counted hwf hcopies hheld hP hm hl hx hterm hp (by omega) hreach
    show ((c.leader.countReply i r).proxys.size + 1) / 2
      ≤ (c.leader.countReply i r).proxys.values.countP _
    have hmajority : ((c.leader.countReply i r).proxys.size + 1) / 2
        ≤ (c.leader.countReply i r).proxys.size / 2 + 1 := by omega
    exact le_trans (le_trans hmajority hmost) hcounted

/-- A test of `Commits`, for the reply `r`, and of what the server is then. -/
def commitsTo (i : ℕ) (r : AppendEntriesR) (p : RaftServer → Bool) (c : Cluster) : Bool :=
  decide (c.listens i = true ∧ r.term ≤ c.leader.currentTerm ∧
      ∃ P ∈ c.peers[i]?, P.toLeader.head? = some (.appendentries_r r)) &&
    match (c.leader.countReply i r).changeCommitIndex with
    | .ok (s, true) => p s
    | _ => false

theorem commits_of_commitsTo {p : RaftServer → Bool} (h : commitsTo i r p c = true) :
    ∃ s, c.Commits i s ∧ p s = true := by
  obtain ⟨hstate, hcommit⟩ := Bool.and_eq_true_iff.mp h
  obtain ⟨hl, hterm, P, hP, hm⟩ := of_decide_eq_true hstate
  obtain ⟨rest, hrest⟩ := List.head?_eq_some_iff.mp hm
  split at hcommit
  · next s hs => exact ⟨s, ⟨P, r, rest, hP, hrest, hl, hterm, hs⟩, hcommit⟩
  · cases hcommit

/-- With three followers, of which one acknowledges three copies of the first two entries and
another two copies, entry 2 is committed while only the start node holds it. -/
theorem committed_on_no_majority :
    ¬ ∀ c i s, system.Reachable System.anyStep c → c.Commits i s →
      (s.proxys.size + 1) / 2 ≤ s.proxys.values.countP (c.HasEntry s.commitIndex.toNat) := by
  intro hall
  obtain ⟨c, hreach, htest⟩ := System.exists_of_run
    [joins 2, leaderReads 0, joins 3, leaderReads 1, joins 4, leaderReads 2, peerReads 0,
      peerReads 0, peerReads 0, peerReads 0, peerReads 1, peerReads 1, peerReads 1, leaderReads 0,
      leaderReads 0, leaderReads 0, leaderReads 1]
    (fun c => commitsTo 1 ⟨0, true, false⟩ (fun s =>
      s.proxys.values.countP (c.HasEntry s.commitIndex.toNat) < (s.proxys.size + 1) / 2) c)
    reachable_started (System.allowed_anyStep _ _) (by decide +kernel)
  obtain ⟨s, hcommits, hfew⟩ := commits_of_commitsTo htest
  exact absurd (hall c 1 s hreach hcommits) (not_le.mpr (of_decide_eq_true hfew))

instance : Decidable (StoresAll puts s q) :=
  inferInstanceAs (Decidable (_ ∧ ∀ k < q.entries.length, (puts.entry k).ok = true))

instance : Decidable (c.NotReplaced i) :=
  have : ∀ m : Message, Decidable (match m with
      | .handshake_q q => ∀ p ∈ c.leader.proxys.find? q.nodeid, p.matchIndex = 0
      | _ => True) := fun m =>
    match m with
    | .handshake_q _ => Option.decidableForallMem _
    | .handshake_r _ | .appendentries_q _ | .appendentries_r _ => isTrue trivial
  Option.decidableForallMem _

instance : ∀ (c : Cluster) (e : Event), Decidable (Replicating c e)
  | c, .toLeader i _ => inferInstanceAs (Decidable (c.RoomFor i ∧ c.NotReplaced i))
  | c, .toPeer i puts =>
    inferInstanceAs (Decidable (c.WhenStored i fun P q => StoresAll puts P.server q))
  | _, .join .. | _, .tick | _, .timeout _ => isTrue trivial

/-- The only follower has stored and acknowledged entry 1, which its reply commits. -/
theorem commit_replicated_acked :
    ∃ c s, system.Reachable Replicating c ∧ c.Commits 0 s ∧
      (s.proxys.size + 1) / 2 ≤ s.proxys.values.countP (c.HasEntry s.commitIndex.toNat) := by
  have hinit : system.Reachable Replicating started := reachable_started
  obtain ⟨c, hreach, htest⟩ := System.exists_of_run [joins 2, leaderReads 0, peerReads 0]
    (commitsTo 0 ⟨0, true, false⟩ fun _ => true) hinit (by decide +kernel) (by decide +kernel)
  obtain ⟨s, hcommits, _⟩ := commits_of_commitsTo htest
  exact ⟨c, s, hreach, hcommits, commit_replicated hreach hcommits⟩

end Cluster
end NanoRaft
