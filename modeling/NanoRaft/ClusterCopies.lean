import NanoRaft.ClusterInvariant
import NanoRaft.FollowerLog

/-!
# Followers' logs as copies

The start node sends the entry at `NextIndex()` again with every broadcast until it has read
the reply, and no node notices that it has the entries of a message already. So the results
are about the runs in which a follower that stores a message stores it `InPlace`, behind its
log and without a gap: then

* the followers' logs are prefixes of the log of a start node that stays leader
  (`followers_are_prefixes`);
* all nodes agree on what they have committed (`state_machine_safety`), if entries travel in
  their own term.

Each comes with a run of the unrestricted cluster that breaks the property.
-/

namespace NanoRaft
namespace Cluster

open RaftServer (SentBy LeaderStep BuiltFor stored)

variable {c c' : Cluster} {i j k : ℕ} {s t t' : RaftServer} {P P' : Peer} {puts : Puts}
  {q : AppendEntriesQ} {r : AppendEntriesR}

/-! ## Restrictions on deliveries -/

/-- Condition `C` on peer `i` and its next message, if that is one with entries that the
peer is going to accept. -/
def WhenStored (c : Cluster) (i : ℕ) (C : Peer → AppendEntriesQ → Prop) : Prop :=
  ∀ P ∈ c.peers[i]?, ∀ m ∈ P.toPeer.head?, match m with
    | .appendentries_q q => P.server.Accepts q → q.entries ≠ [] → C P q
    | _ => True

theorem WhenStored.head {C : Peer → AppendEntriesQ → Prop} (h : c.WhenStored i C)
    (hP : c.peers[i]? = some P) {rest : List Message}
    (hm : P.toPeer = .appendentries_q q :: rest) (hacc : P.server.Accepts q)
    (hne : q.entries ≠ []) : C P q := by
  have hhead := h P hP (.appendentries_q q) (by rw [hm]; rfl)
  exact hhead hacc hne

instance {C : Peer → AppendEntriesQ → Prop} [∀ P q, Decidable (C P q)] :
    Decidable (c.WhenStored i C) :=
  have : ∀ (P : Peer) (m : Message), Decidable (match m with
      | .appendentries_q q => P.server.Accepts q → q.entries ≠ [] → C P q
      | _ => True) := fun P m =>
    match m with
    | .appendentries_q q =>
      (inferInstance : Decidable (P.server.Accepts q → q.entries ≠ [] → C P q))
    | .handshake_q _ | .handshake_r _ | .appendentries_r _ => isTrue trivial
  Option.decidableForallMem _

/-- Whatever is pushed is pushed behind the log, which ends where the message begins, and
nothing before it is left out. -/
def FillsIn (puts : Puts) (s : RaftServer) (q : AppendEntriesQ) : Prop :=
  ∀ k < q.entries.length, (puts.entry k).ok = true →
    s.entries.length ≤ q.firstIndex ∧ ∀ i < k, (puts.entry i).ok = true

/-- The runs in which followers store every message in its place. -/
def InPlace (c : Cluster) : Event → Prop
  | .toLeader i _ => c.RoomFor i
  | .toPeer i puts => c.WhenStored i fun P q => FillsIn puts P.server q
  | _ => True

instance : Decidable (FillsIn puts s q) := Nat.decidableBallLT _ _

instance : ∀ (c : Cluster) (e : Event), Decidable (InPlace c e)
  | c, .toLeader i _ => inferInstanceAs (Decidable (c.RoomFor i))
  | c, .toPeer i puts =>
    inferInstanceAs (Decidable (c.WhenStored i fun P q => FillsIn puts P.server q))
  | _, .join .. | _, .tick | _, .timeout _ => isTrue trivial

theorem InPlace.room {e : Event} (h : InPlace c e) : Room c e := by
  cases e with
  | toLeader i puts => exact h
  | _ => trivial

/-! ## Copies of the start node's log -/

/-- Each entry of `t` is the entry of `s` at the same index, in a term that `s` has seen. -/
def CopyOf (s t : RaftServer) : Prop :=
  ∀ (k : ℕ) (e : Entry), t.entries[k]? = some e →
    ∃ (x : Entry) (u : UInt32), s.entries[k]? = some x ∧ u ≤ s.currentTerm ∧ e = x.restamp u

theorem CopyOf.mono {s' : RaftServer} (h : CopyOf s t) (hext : s.entries <+: s'.entries)
    (hterm : s.currentTerm ≤ s'.currentTerm) (hsame : t'.entries = t.entries) : CopyOf s' t' := by
  intro k e he
  rw [hsame] at he
  obtain ⟨x, u, hx, hu, hex⟩ := h k e he
  exact ⟨x, u, Log.getElem?_of_isPrefix hext hx, le_trans hu hterm, hex⟩

/-- A copy is not longer than the log. -/
theorem CopyOf.length_le (h : CopyOf s t) : t.entries.length ≤ s.entries.length := by
  by_contra hgt
  have hlt : s.entries.length < t.entries.length := not_le.mp hgt
  obtain ⟨x, u, hx, _⟩ := h s.entries.length _ (List.getElem?_eq_getElem hlt)
  have hin := (List.getElem?_eq_some_iff.mp hx).1
  omega

/-- A message that is accepted begins inside the log or right behind it. -/
theorem firstIndex_le_of_accepts (hacc : t.Accepts q) : q.firstIndex ≤ t.entries.length := by
  rcases Nat.eq_zero_or_pos q.prelogindex.toNat with hzero | hpos
  · rw [q.firstIndex_of_zero hzero]
    exact Nat.zero_le _
  · obtain ⟨e, he, _⟩ := hacc.prev (UInt32.lt_iff_toNat_lt.mpr hpos)
    rw [q.firstIndex_of_pos hpos]
    exact (List.getElem?_eq_some_iff.mp he).1

/-- The entries of an accepted message are those of the start node's log from the message's
first index on. -/
theorem entries_of_accepts (hl : s.LogWf) (hcopy : CopyOf s t) (hsent : SentBy s q)
    (hacc : t.Accepts q) (hne : q.entries ≠ []) :
    q.prelogindex.toNat + 2 ≤ s.entries.length ∧
      q.entries = (s.entries.take (q.prelogindex.toNat + 2)).drop q.firstIndex := by
  rcases hsent.entries with hnil | hwrap | hes
  · exact absurd hnil hne
  · -- no log has an entry at the last index of all
    have hfirst := firstIndex_le_of_accepts hacc
    have hle := hcopy.length_le
    have hshort := hl.short
    have hlast : q.firstIndex = 2 ^ 32 := by
      rw [AppendEntriesQ.firstIndex, hwrap]
      decide
    omega
  · exact hes

theorem getElem?_of_accepts (hl : s.LogWf) (hcopy : CopyOf s t) (hsent : SentBy s q)
    (hacc : t.Accepts q) {x : Entry} (hx : q.entries[k]? = some x) :
    s.entries[q.firstIndex + k]? = some x := by
  have hne : q.entries ≠ [] := List.ne_nil_of_mem (List.mem_of_getElem? hx)
  obtain ⟨hlen, hes⟩ := entries_of_accepts hl hcopy hsent hacc hne
  rw [hes, List.getElem?_drop] at hx
  exact Log.getElem?_of_isPrefix (List.take_prefix _ _) hx

/-- The start node sends configuration changes only. -/
theorem isCfg_of_accepts (hl : s.LogWf) (hcopy : CopyOf s t) (hsent : SentBy s q)
    (hacc : t.Accepts q) : ∀ x ∈ q.entries, x.IsCfg := by
  intro x hx
  obtain ⟨k, hk⟩ := List.mem_iff_getElem?.mp hx
  have hmem := List.mem_of_getElem? (getElem?_of_accepts hl hcopy hsent hacc hk)
  exact Or.inl (Entry.restamp_eq_self.mp (hl.own x hmem)).1

/-- What an accepted message adds to a follower's log: entries of the message, at the places
they have in the start node's log, in the message's term. -/
theorem added_of_fillsIn (hl : s.LogWf) (hcopy : CopyOf s t) (hlogs : t.logs = [])
    (hsent : SentBy s q) (hq : t.appendEntriesQ puts q = .ok (t', r))
    (hfill : t.Accepts q → q.entries ≠ [] → FillsIn puts t q) {e : Entry}
    (he : t'.entries[k]? = some e) :
    t.entries[k]? = some e ∨
      ∃ (i : ℕ) (x : Entry), q.entries[i]? = some x ∧ (puts.entry i).ok = true ∧ s.entries[k]? = some x ∧
        t.Accepts q ∧ e = x.restamp q.term := by
  have hent := (RaftServer.appendEntriesQ_of_logs hlogs hq).1
  by_cases hr : r.success = true
  · rw [if_pos hr] at hent
    have hacc := (RaftServer.appendEntriesQ_success hq).mp hr
    rw [hent, List.getElem?_append] at he
    split at he
    · exact Or.inl he
    · next hge =>
      right
      have hinit : ∀ k < q.entries.length, (puts.entry k).ok = true →
          ∀ i < k, (puts.entry i).ok = true := by
        intro k hk hok
        have hne : q.entries ≠ [] := List.ne_nil_of_length_pos (by omega)
        exact (hfill hacc hne k hk hok).2
      obtain ⟨x, hx, hok, hex⟩ :=
        RaftServer.getElem?_stored (isCfg_of_accepts hl hcopy hsent hacc) hinit he
      have hlt := (List.getElem?_eq_some_iff.mp hx).1
      have hne : q.entries ≠ [] := List.ne_nil_of_mem (List.mem_of_getElem? hx)
      -- the message begins where the log ends
      have hle := (hfill hacc hne _ hlt hok).1
      have hfirst := firstIndex_le_of_accepts hacc
      have hidx : q.firstIndex + (k - t.entries.length) = k := by omega
      have hsx := getElem?_of_accepts hl hcopy hsent hacc hx
      rw [hidx] at hsx
      exact ⟨_, x, hx, hok, hsx, hacc, hex⟩
  · rw [if_neg hr, List.append_nil] at hent
    rw [hent] at he
    exact Or.inl he

theorem CopyOf.handled (hl : s.LogWf) (hcopy : CopyOf s t) (hlogs : t.logs = [])
    (hsent : SentBy s q) (hq : t.appendEntriesQ puts q = .ok (t', r))
    (hfill : t.Accepts q → q.entries ≠ [] → FillsIn puts t q) : CopyOf s t' := by
  intro k e he
  rcases added_of_fillsIn hl hcopy hlogs hsent hq hfill he with hold | ⟨i, x, _, _, hx, _, hex⟩
  · exact hcopy k e hold
  · exact ⟨x, q.term, hx, hsent.term, hex⟩

/-- Every follower's log is a copy of the start node's. -/
def Copies (c : Cluster) : Prop :=
  ∀ (i : ℕ) (P : Peer), c.peers[i]? = some P → CopyOf c.leader P.server

theorem copies_step (hwf : Wf c) (hcopies : Copies c) {e : Event} (hC : InPlace c e)
    (h : c.next e = some c') : Copies c' := by
  obtain ⟨hext, hterm⟩ := leader_grows hwf h
  intro j P' hP'
  -- a peer's log changes only when it handles a message
  cases peerStep_of_event hwf h hP' with
  | joined hentries _ =>
    intro k e he
    rw [hentries] at he
    cases he
  | kept P hP hentries _ _ => exact (hcopies j P hP).mono hext hterm hentries
  | shaken P hP hentries _ _ => exact (hcopies j P hP).mono hext hterm hentries
  | acknowledged P hP r hentries _ _ => exact (hcopies j P hP).mono hext hterm hentries
  | handled P hP puts q rest r he hm hsent hq _ hlead =>
    subst he
    rw [hlead]
    apply (hcopies j P hP).handled hwf.log (hwf.peers j P hP).logs hsent hq
    intro hacc hne
    exact hC.head hP hm hacc hne

theorem copies_of_reachable {C : Cluster → Event → Prop} (hC : ∀ c e, C c e → InPlace c e)
    (h : system.Reachable C c) : Copies c := by
  have hroom : ∀ c e, C c e → Room c e := fun c e hce => (hC c e hce).room
  apply h.invariant (I := Copies)
  · intro c hc i P hP
    rw [(launched_proxys hc).2] at hP
    cases hP
  · intro c e c' hreach hcopies hallowed hn
    exact copies_step (wf_of_reachable hroom hreach) hcopies (hC c e hallowed) hn

/-- A copy of a log of term 0 that holds term-0 entries only is a prefix of it. -/
theorem CopyOf.isPrefix (hl : s.LogWf) (hcopy : CopyOf s t)
    (hzero : ∀ e ∈ t.entries, e.term = 0) : t.entries <+: s.entries := by
  rw [List.prefix_iff_getElem?]
  intro k hk
  -- rebuilt in term 0, the start node's entry is itself
  obtain ⟨x, u, hx, _, hex⟩ := hcopy k _ (List.getElem?_eq_getElem hk)
  have hterm := hzero _ (List.getElem_mem hk)
  rw [hex, Entry.restamp_term] at hterm
  rw [hx, hex, hterm, hl.own x (List.mem_of_getElem? hx)]

/-! ## No lost and no duplicated entry -/

/-- **Followers' logs are prefixes** of the log of a start node that stays leader, in every
run in which followers store in place. -/
theorem followers_are_prefixes (h : system.Reachable InPlace c) (hlead : c.leader.role = .Leader)
    (hP : P ∈ c.peers) : P.server.entries <+: c.leader.entries := by
  have hwf := wf_of_reachable (fun _ _ => InPlace.room) h
  obtain ⟨i, hi⟩ := List.mem_iff_getElem?.mp hP
  have hcopy := copies_of_reachable (fun _ _ h => h) h i P hi
  apply hcopy.isPrefix hwf.log
  intro e he
  -- a leader has seen no other term than 0
  obtain ⟨k, hk⟩ := List.mem_iff_getElem?.mp he
  obtain ⟨x, u, _, hu, rfl⟩ := hcopy k e hk
  rw [hwf.log.term hlead] at hu
  exact UInt.eq_zero_of_le hu

/-! ### Runs by example -/

/-- A start node that took its own entry into the log. -/
def started : Cluster where
  leader := ({ RaftServer.fresh with role := .Leader } : RaftServer).appendCfgLog ⟨true, []⟩
    RaftServer.startHost 7777 1
  peers := []

theorem reachable_started {C : Cluster → Event → Prop} : system.Reachable C started :=
  System.reachable_init ⟨⟨true, []⟩, ⟨none, .empty⟩, 7777, 1, rfl, rfl⟩

/-- Node `nodeID` starts on empty directories. -/
def joins (nodeID : UInt32) : Event := .join ⟨none, .empty⟩ RaftServer.startHost 7778 nodeID

/-- The start node, or peer `i`, handles a message, and the databases refuse nothing. -/
def leaderReads (i : ℕ) : Event := .toLeader i .allOk

def peerReads (i : ℕ) : Event := .toPeer i .allOk

/-- A broadcast before the first reply is read makes the follower store two entries twice. -/
theorem follower_duplicates :
    ¬ ∀ c, system.Reachable System.anyStep c → c.leader.role = .Leader →
      ∀ P ∈ c.peers, P.server.entries <+: c.leader.entries := by
  intro hall
  obtain ⟨c, hreach, htest⟩ := System.exists_of_run
    [joins 2, leaderReads 0, peerReads 0, peerReads 0, .tick, peerReads 0]
    (fun c => c.leader.role = .Leader ∧
      ∃ P ∈ c.peers, ¬ P.server.entries <+: c.leader.entries)
    reachable_started (System.allowed_anyStep _ _) (by decide +kernel)
  obtain ⟨hlead, P, hP, hnot⟩ := of_decide_eq_true htest
  exact hnot (hall c hreach hlead P hP)

theorem followers_are_prefixes_joined :
    ∃ c, system.Reachable InPlace c ∧ ∃ P ∈ c.peers, P.server.entries.length = 2 ∧
      P.server.entries <+: c.leader.entries := by
  have hinit : system.Reachable InPlace started := reachable_started
  obtain ⟨c, hreach, htest⟩ := System.exists_of_run [joins 2, leaderReads 0, peerReads 0]
    (fun c => c.leader.role = .Leader ∧ ∃ P ∈ c.peers, P.server.entries.length = 2)
    hinit (by decide +kernel) (by decide +kernel)
  obtain ⟨hlead, P, hP, hlen⟩ := of_decide_eq_true htest
  exact ⟨c, hreach, P, hP, hlen, followers_are_prefixes hreach hlead hP⟩

/-! ## State-machine safety -/

/-- Two nodes that both hold an entry at an index both have committed hold the same one. -/
def Safe (c : Cluster) : Prop :=
  ∀ A ∈ c.nodes, ∀ B ∈ c.nodes, ∀ k : ℕ, k ≤ A.commitIndex.toNat → k ≤ B.commitIndex.toNat →
    ∀ a b : Entry, A.entries[k]? = some a → B.entries[k]? = some b →
      a.type = b.type ∧ a.term = b.term ∧ a.nodeid = b.nodeid ∧ a.port = b.port ∧ a.host = b.host

/-- What is pushed was made in the term of the message that brings it. -/
def OfItsTerm (puts : Puts) (q : AppendEntriesQ) : Prop :=
  ∀ k < q.entries.length, (puts.entry k).ok = true → ∀ x ∈ q.entries[k]?, x.term = q.term

/-- The runs in which, besides, entries are sent in their own term only: followers rebuild
them in the term of the message. -/
def InPlaceOfItsTerm (c : Cluster) : Event → Prop
  | .toLeader i _ => c.RoomFor i
  | .toPeer i puts => c.WhenStored i fun P q => FillsIn puts P.server q ∧ OfItsTerm puts q
  | _ => True

theorem InPlaceOfItsTerm.inPlace {e : Event} (h : InPlaceOfItsTerm c e) : InPlace c e := by
  cases e with
  | toLeader i puts => exact h
  | toPeer i puts =>
    intro P hP m hm
    have hhead := h P hP m hm
    cases m with
    | appendentries_q q => exact fun hacc hne => (hhead hacc hne).1
    | _ => trivial
  | _ => trivial

/-- Followers hold entries of term 0 only. -/
def TermZero (c : Cluster) : Prop :=
  ∀ (i : ℕ) (P : Peer), c.peers[i]? = some P → ∀ e ∈ P.server.entries, e.term = 0

theorem termZero_step (hwf : Wf c) (hcopies : Copies c) (hzero : TermZero c) {e : Event}
    (hC : InPlaceOfItsTerm c e) (h : c.next e = some c') : TermZero c' := by
  intro j P' hP'
  cases peerStep_of_event hwf h hP' with
  | joined hentries _ =>
    intro e he
    rw [hentries] at he
    cases he
  | kept P hP hentries _ _ =>
    rw [hentries]
    exact hzero j P hP
  | shaken P hP hentries _ _ =>
    rw [hentries]
    exact hzero j P hP
  | acknowledged P hP r hentries _ _ =>
    rw [hentries]
    exact hzero j P hP
  | handled P hP puts q rest r he hm hsent hq _ _ =>
    subst he
    intro e he
    obtain ⟨k, hk⟩ := List.mem_iff_getElem?.mp he
    have hfill : P.server.Accepts q → q.entries ≠ [] → FillsIn puts P.server q :=
      fun hacc hne => (hC.head hP hm hacc hne).1
    rcases added_of_fillsIn hwf.log (hcopies j P hP) (hwf.peers j P hP).logs hsent hq hfill hk with
      hold | ⟨i, x, hx, hok, hsx, hacc, rfl⟩
    · exact hzero j P hP e (List.mem_of_getElem? hold)
    · -- the start node's entry is of term 0, so the message is
      have hlt := (List.getElem?_eq_some_iff.mp hx).1
      have hne : q.entries ≠ [] := List.ne_nil_of_mem (List.mem_of_getElem? hx)
      have hterm := (hC.head hP hm hacc hne).2 i hlt hok x hx
      rw [Entry.restamp_term, ← hterm]
      exact hwf.log.term_eq_zero hsx

theorem termZero_of_reachable (h : system.Reachable InPlaceOfItsTerm c) : TermZero c := by
  have hin : ∀ c e, InPlaceOfItsTerm c e → InPlace c e := fun _ _ => InPlaceOfItsTerm.inPlace
  have hroom : ∀ c e, InPlaceOfItsTerm c e → Room c e := fun c e he => (hin c e he).room
  apply h.invariant (I := TermZero)
  · intro c hc i P hP
    rw [(launched_proxys hc).2] at hP
    cases hP
  · intro c e c' hreach hzero hallowed hn
    exact termZero_step (wf_of_reachable hroom hreach) (copies_of_reachable hin hreach) hzero
      hallowed hn

/-- **State-machine safety**, in every run in which followers store in place and entries
travel in their own term. -/
theorem state_machine_safety (h : system.Reachable InPlaceOfItsTerm c) : c.Safe := by
  have hin : ∀ c e, InPlaceOfItsTerm c e → InPlace c e := fun _ _ => InPlaceOfItsTerm.inPlace
  have hwf := wf_of_reachable (fun c e he => (hin c e he).room) h
  have hcopies := copies_of_reachable hin h
  have hzero := termZero_of_reachable h
  -- every node's log is a prefix of the start node's
  have hpre : ∀ A ∈ c.nodes, A.entries <+: c.leader.entries := by
    intro A hA
    rcases List.mem_cons.mp hA with rfl | hA
    · exact List.prefix_refl _
    · obtain ⟨P, hP, rfl⟩ := List.mem_map.mp hA
      obtain ⟨i, hi⟩ := List.mem_iff_getElem?.mp hP
      exact (hcopies i P hi).isPrefix hwf.log (hzero i P hi)
  intro A hA B hB k _ _ a b ha hb
  have heq : a = b := Log.prefix_agree (hpre A hA) (hpre B hB) ha hb
  rw [heq]
  exact ⟨rfl, rfl, rfl, rfl, rfl⟩

/-- With a second copy of the first two entries, a follower holds its own entry 1 at the index
at which the start node has committed the next node's. -/
theorem committed_entries_differ :
    ¬ ∀ c, system.Reachable System.anyStep c → c.Safe := by
  intro hall
  obtain ⟨c, hreach, htest⟩ := System.exists_of_run
    [joins 2, leaderReads 0, joins 3, leaderReads 1, peerReads 0, peerReads 0, peerReads 0,
      peerReads 1, peerReads 1, leaderReads 0, leaderReads 0, leaderReads 1, .tick, peerReads 0,
      peerReads 1, leaderReads 1, leaderReads 0, .tick, peerReads 0]
    (fun c => ∃ P ∈ c.peers, ∃ a ∈ c.leader.entries[2]?, ∃ b ∈ P.server.entries[2]?,
      2 ≤ c.leader.commitIndex.toNat ∧ 2 ≤ P.server.commitIndex.toNat ∧ a.nodeid ≠ b.nodeid)
    reachable_started (System.allowed_anyStep _ _) (by decide +kernel)
  obtain ⟨P, hP, a, ha, b, hb, hlead, hpeer, hne⟩ := of_decide_eq_true htest
  have hnode : P.server ∈ c.nodes := List.mem_cons_of_mem _ (List.mem_map.mpr ⟨P, hP, rfl⟩)
  have hsame := hall c hreach c.leader List.mem_cons_self P.server hnode 2 hlead hpeer a b ha hb
  exact hne hsame.2.2.1

instance : Decidable (OfItsTerm puts q) := Nat.decidableBallLT _ _

instance : ∀ (c : Cluster) (e : Event), Decidable (InPlaceOfItsTerm c e)
  | c, .toLeader i _ => inferInstanceAs (Decidable (c.RoomFor i))
  | c, .toPeer i puts => inferInstanceAs
    (Decidable (c.WhenStored i fun P q => FillsIn puts P.server q ∧ OfItsTerm puts q))
  | _, .join .. | _, .tick | _, .timeout _ => isTrue trivial

/-- The start node and a follower have both committed entry 1. -/
theorem state_machine_safety_committed :
    ∃ c, system.Reachable InPlaceOfItsTerm c ∧ c.leader.commitIndex = 1 ∧
      (∃ P ∈ c.peers, P.server.commitIndex = 1 ∧ P.server.entries.length = 2) ∧ c.Safe := by
  have hinit : system.Reachable InPlaceOfItsTerm started := reachable_started
  obtain ⟨c, hreach, htest⟩ := System.exists_of_run
    [joins 2, leaderReads 0, peerReads 0, peerReads 0, leaderReads 0, .tick, peerReads 0]
    (fun c => c.leader.commitIndex = 1 ∧
      ∃ P ∈ c.peers, P.server.commitIndex = 1 ∧ P.server.entries.length = 2)
    hinit (by decide +kernel) (by decide +kernel)
  obtain ⟨hlead, hpeer⟩ := of_decide_eq_true htest
  exact ⟨c, hreach, hlead, hpeer, state_machine_safety hreach⟩

end Cluster
end NanoRaft
