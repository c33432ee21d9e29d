import NanoRaft.CatchUp
import NanoRaft.ClusterCounters

/-!
# A cluster at its own pace

The leader timer is slow against the network. In a `Paced` run it expires, or a process joins, only
when all that was sent before has been answered; no `Put` is refused and no follower times out.

* `Cluster.Orderly`: how far each follower is, message by message;
* `Cluster.paced_in_order`: the conditions of the safety results hold in every paced run.
-/

namespace NanoRaft

/-- No `Put` of an entry is refused. A handler makes two at most. -/
def Puts.Taken (puts : Puts) : Prop := (puts.entry 0).ok = true ∧ (puts.entry 1).ok = true

/-- How long the log of a follower is whose `MatchIndex()` is `m`: the first message brings two
entries, and is counted once. -/
def heldUpTo (m : ℕ) : ℕ := if m = 0 then 0 else m + 1

theorem heldUpTo_le (m : ℕ) : heldUpTo m ≤ m + 1 := by
  unfold heldUpTo
  split_ifs
  · exact Nat.zero_le _
  · exact le_refl _

theorem heldUpTo_succ (m : ℕ) : heldUpTo (m + 1) = m + 2 := if_neg m.succ_ne_zero

theorem heldUpTo_of_pos {m : ℕ} (h : 0 < m) : heldUpTo m = m + 1 := if_neg h.ne'

/-- The message for a follower whose `MatchIndex()` is `m`. -/
structure Asks (L : List Entry) (m : ℕ) (q : AppendEntriesQ) : Prop where
  term : q.term = 0
  prelogindex : q.prelogindex.toNat = m
  prelogterm : ∀ e, L[m]? = some e → q.prelogterm = e.term
  entries : q.entries = if m + 1 < L.length then (L.take (m + 2)).drop (heldUpTo m) else []

namespace Asks

variable {L : List Entry} {m : ℕ} {q : AppendEntriesQ}

theorem length_le (h : Asks L m q) : q.entries.length ≤ 2 := by
  rw [h.entries]
  split_ifs
  · rw [List.length_drop, List.length_take]
    unfold heldUpTo
    split_ifs <;> omega
  · exact Nat.zero_le _

theorem entries_ne_nil (h : Asks L m q) : q.entries ≠ [] ↔ m + 1 < L.length := by
  rw [h.entries]
  constructor
  · intro hne
    by_contra hge
    exact hne (if_neg hge)
  · intro hlt
    rw [if_pos hlt]
    apply List.ne_nil_of_length_pos
    rw [List.length_drop, List.length_take]
    have hle := heldUpTo_le m
    omega

theorem mem (h : Asks L m q) {e : Entry} (he : e ∈ q.entries) : e ∈ L := by
  rw [h.entries] at he
  split_ifs at he
  · exact List.mem_of_mem_take (List.mem_of_mem_drop he)
  · exact absurd he List.not_mem_nil

end Asks

namespace RaftServer

variable {s s' t t' : RaftServer} {p : RaftProxy} {puts : Puts} {q : AppendEntriesQ}
  {r : AppendEntriesR} {L : List Entry} {m : ℕ} {ms : Sends} {j : ℕ}

/-! ## What is sent -/

/-- A start node in term 0 builds the message for each of its followers. -/
theorem buildAppendEntries_asks (hs : s.LogWf) (hterm : s.currentTerm = 0)
    (hcount : p.nextIndex = p.matchIndex + 1) (hm : p.matchIndex.toNat < s.entries.length) :
    ∃ q, s.buildAppendEntries p = .ok q ∧ Asks s.entries p.matchIndex.toNat q := by
  have hshort := hs.short
  have hnext : p.nextIndex.toNat = p.matchIndex.toNat + 1 := by
    rw [hcount]
    exact UInt.toNat_succ64 (by omega)
  have hmod : (p.nextIndex.toNat - 1) % 2 ^ 32 = p.matchIndex.toNat := by omega
  obtain ⟨q, hq, hpre, hpreterm, hes⟩ :=
    buildAppendEntries_of_le (s := s) (p := p) (by omega) (by omega)
  rw [hmod] at hpre hpreterm
  have hqterm : q.term = 0 := by rw [(buildAppendEntries_cases hq).1, hterm]
  refine ⟨q, hq, hqterm, hpre, fun e he => hpreterm e he ?_, ?_⟩
  · rw [hs.term_eq_zero he]
    exact fun h => absurd h (by decide)
  · rw [hnext] at hes
    split_ifs at hes ⊢ with hlt
    · rcases (buildAppendEntries_sentBy hs hcount hq).1.entries with hnil | hwrap | ⟨_, hdrop⟩
      · -- there is an entry at `NextIndex()`
        have hin : s.entries[(p.matchIndex.toNat + 1) % 2 ^ 32]? =
            some s.entries[p.matchIndex.toNat + 1] := by
          rw [Nat.mod_eq_of_lt (by omega), List.getElem?_eq_getElem hlt]
        rw [hes, Link.sentAt, hin] at hnil
        exact absurd (List.append_eq_nil_iff.mp hnil).2 (List.cons_ne_nil _ _)
      · rw [hwrap] at hpre
        have hlast : (0xFFFFFFFF : UInt32).toNat = 2 ^ 32 - 1 := rfl
        omega
      · have hfirst : q.firstIndex = heldUpTo p.matchIndex.toNat := by
          rcases Nat.eq_zero_or_pos q.prelogindex.toNat with hzero | hpos
          · rw [q.firstIndex_of_zero hzero, ← hpre, hzero]
            rfl
          · rw [q.firstIndex_of_pos hpos, hpre, heldUpTo_of_pos (by omega)]
        rw [hdrop, hfirst, hpre]
    · exact hes

/-- A proxy that a broadcast writes to. -/
def Served (s : RaftServer) (p : RaftProxy) : Prop :=
  p.state ≠ .InActive ∧ ∃ fd id q, p.connFd = some fd ∧ s.tiedTo fd = some id ∧
    s.proxys.find? id = some p ∧ s.buildAppendEntries p = .ok q

/-- Each proxy that is served gets one message. -/
theorem broadCastLoop_of_served {ps : List RaftProxy} (h : ∀ p ∈ ps, s.Served p) :
    ∃ ms, s.broadCastLoop ps = .ok ms ∧ ∀ j, (Cluster.sentTo ms j).length =
      ps.countP fun p => p.connFd = some j := by
  induction ps with
  | nil => exact ⟨[], rfl, fun _ => rfl⟩
  | cons p ps ih =>
    obtain ⟨hp, hps⟩ := List.forall_mem_cons.mp h
    obtain ⟨rest, hrest, hcount⟩ := ih hps
    obtain ⟨hactive, fd, id, q, hfd, htied, hfind, hq⟩ := hp
    have hsend : s.proxySendAppendEntries p = .ok [(fd, .appendentries_q q)] := by
      have hid : (s.conns.find? fd).bind Conn.proxy = some id := htied
      rw [proxySendAppendEntries, hfd]
      dsimp only
      rw [connSendAppendEntries, hid]
      dsimp only
      rw [hfind]
      dsimp only
      rw [hq]
      rfl
    refine ⟨[(fd, .appendentries_q q)] ++ rest, ?_, fun j => ?_⟩
    · rw [broadCastLoop, if_neg hactive, hsend, Except.ok_bind, hrest]
      rfl
    · rw [List.countP_cons, ← hcount j, hfd]
      unfold Cluster.sentTo
      by_cases hj : fd = j
      · rw [List.singleton_append, List.filter_cons_of_pos (by simpa using hj),
          if_pos (by simpa using hj)]
        rfl
      · rw [List.singleton_append, List.filter_cons_of_neg (by simpa using hj),
          if_neg (by simpa using hj)]
        rfl

/-- The proxies of a start node that leads: each is written to, and none is counted outside the
log. -/
def Steady (s : RaftServer) : Prop :=
  ∀ id p, s.proxys.find? id = some p →
    p.state ≠ .InActive ∧ p.matchIndex.toNat < s.entries.length

theorem Steady.served (h : s.Steady) (hp : s.ProxysWf) (hs : s.LogWf) (hterm : s.currentTerm = 0)
    {id : UInt32} (hfind : s.proxys.find? id = some p) : s.Served p := by
  obtain ⟨hactive, hm⟩ := h id p hfind
  obtain ⟨fd, hfd, htied⟩ := hp.proxyTied id p hfind
  obtain ⟨q, hq, _⟩ := buildAppendEntries_asks hs hterm (hp.counters id p hfind) hm
  exact ⟨hactive, fd, id, q, hfd, htied, hfind, hq⟩

/-- **A broadcast** puts one message on each connection that is served: the one for its
follower. -/
theorem Steady.broadCast_asks (h : s.Steady) (hp : s.ProxysWf) (hs : s.LogWf)
    (hterm : s.currentTerm = 0) :
    ∃ ms, s.broadCastAppendEntries = .ok ms ∧ ∀ j a, s.ackedOn j = some a →
      ∃ q, Cluster.sentTo ms j = [.appendentries_q q] ∧ Asks s.entries a.toNat q ∧
        q.leadercommit = s.commitIndex := by
  have hserved : ∀ p ∈ s.proxys.values, s.Served p := by
    intro p hmem
    obtain ⟨id, hfind⟩ := OrdMap.mem_values_iff.mp hmem
    exact h.served hp hs hterm hfind
  obtain ⟨ms, hms, hcount⟩ := broadCastLoop_of_served hserved
  refine ⟨ms, hms, fun j a ha => ?_⟩
  obtain ⟨cn, id, p, hcn, _, hid, hfind, rfl⟩ := ackedOn_eq_some.mp ha
  have htied : s.tiedTo j = some id := tiedTo_eq_some.mpr ⟨cn, hcn, hid⟩
  obtain ⟨fd, hfd, hfdtied⟩ := hp.proxyTied id p hfind
  obtain rfl := hp.tiedTo_inj htied hfdtied
  -- no other proxy has this connection
  have hone : (Cluster.sentTo ms j).length = 1 := by
    rw [hcount]
    refine OrdMap.countP_values_eq_one hfind fun id' p' hfind' => ?_
    rw [decide_eq_true_iff]
    constructor
    · intro hfd'
      by_contra hne
      exact hp.connFd_ne hfind' hfd' hne (Or.inl htied) rfl
    · rintro rfl
      rw [← Option.some.inj (hfind.symm.trans hfind'), hfd]
  obtain ⟨m, hm⟩ := List.length_eq_one_iff.mp hone
  have hmem : (j, m) ∈ ms := by
    rw [← Cluster.mem_sentTo, hm]
    exact List.mem_singleton_self m
  obtain ⟨id', p', q', htied', hfind', hq', rfl⟩ := builtFor_of_broadCast hms hmem
  obtain rfl := Option.some.inj (htied.symm.trans htied')
  obtain rfl := Option.some.inj (hfind.symm.trans hfind')
  obtain ⟨q, hq, hasks⟩ :=
    buildAppendEntries_asks hs hterm (hp.counters id p hfind) (h id p hfind).2
  obtain rfl := Except.ok.inj (hq.symm.trans hq')
  exact ⟨q, hm, hasks, (buildAppendEntries_cases hq).2.2.1⟩

/-! ## What a follower makes of it -/

/-- Entries of the term they are rebuilt in are stored as they are. -/
theorem stored_eq_self {put : ℕ → PutResult} {term : UInt32} {es : List Entry}
    (hown : ∀ e ∈ es, e.restamp term = e) (hok : ∀ k < es.length, (put k).ok = true) :
    stored put term es = es := by
  induction es generalizing put with
  | nil => rfl
  | cons e es ih =>
    obtain ⟨he, hes⟩ := List.forall_mem_cons.mp hown
    have hhead : e.IsCfg ∧ (put 0).ok = true :=
      ⟨Or.inl (Entry.restamp_eq_self.mp he).1, hok 0 (Nat.succ_pos _)⟩
    rw [stored, if_pos hhead, ih hes fun k hk => hok (k + 1) (Nat.succ_lt_succ hk), he]
    rfl

/-- A follower whose log is as long as its counter says. -/
structure Follows (L : List Entry) (m : ℕ) (t : RaftServer) : Prop where
  entries : t.entries = L.take (heldUpTo m)
  term : t.currentTerm = 0
  logs : t.logs = []

/-- A longer log begins with what the follower has. -/
theorem Follows.mono {L' : List Entry} (h : Follows L m t) (hm : m < L.length) (hext : L <+: L') :
    Follows L' m t := by
  obtain ⟨es, rfl⟩ := hext
  refine ⟨?_, h.term, h.logs⟩
  have hle := heldUpTo_le m
  rw [h.entries, List.take_append_of_le_length (by omega)]

theorem Follows.accepts (h : Follows L m t) (hm : m < L.length) (hq : Asks L m q)
    (hown : ∀ e ∈ L, e.restamp 0 = e) : t.Accepts q := by
  constructor
  · rw [h.term, hq.term]
  · intro hpos
    rw [UInt32.lt_iff_toNat_lt, hq.prelogindex] at hpos
    have he := List.getElem?_eq_getElem hm
    have hzero := (Entry.restamp_eq_self.mp (hown _ (List.getElem_mem hm))).2.1
    refine ⟨L[m], ?_, (hq.prelogterm _ he).symm, ?_⟩
    · rw [Option.mem_def, hq.prelogindex, h.entries, heldUpTo_of_pos hpos,
        List.getElem?_take_of_lt (Nat.lt_succ_self m), he]
    · rw [hzero]
      decide

/-- **A follower** that is asked what it is to be asked stores the entries, if there are any, and
acknowledges them. -/
theorem Follows.answers (h : Follows L m t) (hm : m < L.length) (hq : Asks L m q)
    (hown : ∀ e ∈ L, e.restamp 0 = e) (hputs : puts.Taken)
    (hr : t.appendEntriesQ puts q = .ok (t', r)) :
    r.term = 0 ∧ (r.counts = true ↔ m + 1 < L.length) ∧
      Follows L (m + if r.counts then 1 else 0) t' := by
  have hacc := h.accepts hm hq hown
  have hterm : t'.currentTerm = 0 := by
    rw [appendEntriesQ_currentTerm hr, h.term, hq.term]
    exact max_self 0
  have hcounts : r.counts = true ↔ m + 1 < L.length := by
    rw [counts_iff hr, hq.entries_ne_nil]
    exact and_iff_right hacc
  refine ⟨by rw [(appendEntriesQ_reply hr).1, hterm], hcounts, ?_, hterm,
    (appendEntriesQ_of_logs h.logs hr).2⟩
  have hstored : stored puts.entry q.term q.entries = q.entries := by
    apply stored_eq_self
    · intro e he
      rw [hq.term]
      exact hown e (hq.mem he)
    · intro k hk
      have hlen := hq.length_le
      rcases Nat.eq_zero_or_pos k with rfl | hpos
      · exact hputs.1
      · obtain rfl : k = 1 := by omega
        exact hputs.2
  rw [(appendEntriesQ_of_logs h.logs hr).1, if_pos ((appendEntriesQ_success hr).mpr hacc), hstored,
    h.entries, hq.entries]
  by_cases hlt : m + 1 < L.length
  · -- the entries from where the log ends
    have htake : L.take (heldUpTo m) = (L.take (m + 2)).take (heldUpTo m) := by
      have hle := heldUpTo_le m
      rw [List.take_take, min_eq_left (by omega)]
    rw [if_pos hlt, if_pos (hcounts.mpr hlt), heldUpTo_succ, htake, List.take_append_drop]
  · rw [if_neg hlt, if_neg fun hc => hlt (hcounts.mp hc), List.append_nil]
    rfl

/-- It does answer. -/
theorem Follows.answered (h : Follows L m t) (hm : m < L.length) (hq : Asks L m q)
    (hown : ∀ e ∈ L, e.restamp 0 = e) (hshort : L.length < 2 ^ 32) (puts : Puts) :
    ∃ t' r, t.appendEntriesQ puts q = .ok (t', r) := by
  have hacc := h.accepts hm hq hown
  have hput : t.currentTerm < q.term → puts.term = true := by
    intro hlt
    rw [h.term, hq.term] at hlt
    exact absurd hlt (lt_irrefl 0)
  by_cases hlt : m + 1 < L.length
  · have hpre := hq.prelogindex
    apply appendEntriesQ_of_prevMatches hacc.term hput h.logs hacc.prev
    rw [UInt.toNat_succ32 (by omega)]
    omega
  · have hnil : q.entries = [] := by rw [hq.entries, if_neg hlt]
    have hprev : (t.adoptTerm q).PrevMatches q := hacc.prev
    unfold appendEntriesQ
    rw [checkTerm_of_le hacc.term hput, Except.ok_bind]
    dsimp only
    rw [checkPrev_of_matches hprev, Except.ok_bind, if_pos rfl, hnil]
    exact ⟨_, _, rfl⟩

end RaftServer

/-- The questions among the messages on the way to a peer. -/
def questions (ms : List Message) : List AppendEntriesQ :=
  ms.filterMap fun m => match m with
    | .appendentries_q q => some q
    | _ => none

namespace Cluster

open RaftServer (Follows)

variable {c c' : Cluster} {i j : ℕ} {s : RaftServer} {P P' : Peer} {puts : Puts} {e : Event}
  {L : List Entry} {m : ℕ}

/-! ## The pace -/

/-- Nothing is on its way. -/
def AtRest (c : Cluster) : Prop := ∀ P ∈ c.peers, P.toPeer = [] ∧ P.toLeader = []

/-- The runs in which the timer expires, or a node with a new id joins, when nothing is on its
way, no `Put` of an entry is refused, and no follower's timer expires. -/
def Paced (c : Cluster) : Event → Prop
  | .join _ _ _ nodeID => c.AtRest ∧ c.leader.proxys.find? nodeID = none
  | .toLeader i puts => c.RoomFor i ∧ puts.Taken
  | .toPeer _ puts => puts.Taken
  | .tick => c.AtRest
  | .timeout _ => False

theorem Paced.room (h : Paced c e) : Room c e := by
  cases e with
  | toLeader i puts => exact h.1
  | _ => trivial

theorem AtRest.peer (h : c.AtRest) (hP : c.peers[i]? = some P) : P.toPeer = [] ∧ P.toLeader = [] :=
  h P (List.mem_of_getElem? hP)

theorem sentTo_append (ms ms' : Sends) (j : ℕ) :
    sentTo (ms ++ ms') j = sentTo ms j ++ sentTo ms' j := by
  unfold sentTo
  rw [List.filter_append, List.map_append]

/-! ## How far a follower is -/

/-- A peer whose handshake has not been read. -/
structure Arriving (s : RaftServer) (i : ℕ) (P : Peer) : Prop where
  toPeer : P.toPeer = []
  toLeader : ∃ q, P.toLeader = [.handshake_q q] ∧ s.proxys.find? q.nodeid = none
  registered : ∃ cn, s.conns.find? i = some cn ∧ cn.reading = true
  follows : Follows s.entries 0 P.server

/-- A peer that has no question to answer, and no answer of which is to be counted. -/
structure Idle (L : List Entry) (m : ℕ) (P : Peer) : Prop where
  questions : questions P.toPeer = []
  toLeader : P.toLeader = []
  follows : Follows L m P.server

structure Asked (L : List Entry) (m : ℕ) (P : Peer) (q : AppendEntriesQ) : Prop where
  questions : questions P.toPeer = [q]
  toLeader : P.toLeader = []
  asks : Asks L m q
  follows : Follows L m P.server

structure Answered (L : List Entry) (m : ℕ) (P : Peer) (r : AppendEntriesR) : Prop where
  questions : questions P.toPeer = []
  toLeader : P.toLeader = [.appendentries_r r]
  term : r.term = 0
  counts : r.counts = true ↔ m + 1 < L.length
  follows : Follows L (m + if r.counts then 1 else 0) P.server

/-- Where a peer is whose `MatchIndex()` is `m`. -/
inductive Stage (L : List Entry) (m : ℕ) (P : Peer) : Prop where
  | idle (h : Idle L m P)
  | asked (q : AppendEntriesQ) (h : Asked L m P q)
  | answered (r : AppendEntriesR) (h : Answered L m P r)

/-- No peer has more than one question to answer or to be answered for, and while a handshake is
to be read, nothing else is. -/
structure Orderly (c : Cluster) : Prop where
  leads : c.leader.role = .Leader
  steady : c.leader.Steady
  peers : ∀ (i : ℕ) (P : Peer), c.peers[i]? = some P →
    Arriving c.leader i P ∨ ∃ a, c.leader.ackedOn i = some a ∧ Stage c.leader.entries a.toNat P
  alone : ∀ (i : ℕ) (P : Peer) (q : HandshakeQ), c.peers[i]? = some P →
    .handshake_q q ∈ P.toLeader → ∀ (j : ℕ) (P' : Peer), c.peers[j]? = some P' → j ≠ i →
      P'.toPeer = [] ∧ P'.toLeader = []

theorem Stage.idle_of_rest (h : Stage L m P) (htoPeer : P.toPeer = [])
    (htoLeader : P.toLeader = []) :
    Idle L m P := by
  cases h with
  | idle h => exact h
  | asked q h =>
    have hone := h.questions
    rw [htoPeer] at hone
    cases hone
  | answered r h =>
    have hone := h.toLeader
    rw [htoLeader] at hone
    cases hone

theorem Stage.asked_of_question (h : Stage L m P) {q : AppendEntriesQ} {rest : List Message}
    (hm : P.toPeer = .appendentries_q q :: rest) : Asked L m P q ∧ questions rest = [] := by
  have hquestions : questions P.toPeer = q :: questions rest := by rw [hm]; rfl
  cases h with
  | idle h =>
    have hnil := h.questions
    rw [hquestions] at hnil
    cases hnil
  | asked q' h =>
    have hone := h.questions
    rw [hquestions] at hone
    obtain ⟨rfl, hnil⟩ := List.cons.inj hone
    exact ⟨h, hnil⟩
  | answered r h =>
    have hnil := h.questions
    rw [hquestions] at hnil
    cases hnil

theorem Stage.answered_of_reply (h : Stage L m P) {r : AppendEntriesR} {rest : List Message}
    (hm : P.toLeader = .appendentries_r r :: rest) : Answered L m P r ∧ rest = [] := by
  cases h with
  | idle h =>
    have hnil := h.toLeader
    rw [hm] at hnil
    cases hnil
  | asked q h =>
    have hnil := h.toLeader
    rw [hm] at hnil
    cases hnil
  | answered r' h =>
    have hone := h.toLeader
    rw [hm] at hone
    obtain ⟨hr, hnil⟩ := List.cons.inj hone
    obtain rfl := Message.appendentries_r.inj hr
    exact ⟨h, hnil⟩

/-- A welcome makes no difference. -/
theorem Stage.of_welcome (h : Stage L m P) (hserver : P'.server = P.server)
    (hquestions : questions P'.toPeer = questions P.toPeer) (htoLeader : P'.toLeader = P.toLeader) :
    Stage L m P' := by
  cases h with
  | idle h =>
    exact .idle ⟨hquestions.trans h.questions, htoLeader.trans h.toLeader, hserver ▸ h.follows⟩
  | asked q h =>
    exact .asked q ⟨hquestions.trans h.questions, htoLeader.trans h.toLeader, h.asks,
      hserver ▸ h.follows⟩
  | answered r h =>
    exact .answered r ⟨hquestions.trans h.questions, htoLeader.trans h.toLeader, h.term, h.counts,
      hserver ▸ h.follows⟩

theorem Stage.no_handshake (h : Stage L m P) (q : HandshakeQ) : .handshake_q q ∉ P.toLeader := by
  intro hmem
  cases h with
  | idle h =>
    rw [h.toLeader] at hmem
    cases hmem
  | asked _ h =>
    rw [h.toLeader] at hmem
    cases hmem
  | answered r h =>
    rw [h.toLeader, List.mem_singleton] at hmem
    cases hmem

/-- A peer that does not shake hands is being served. -/
theorem Orderly.served (h : Orderly c) (hP : c.peers[i]? = some P)
    (hno : ∀ q, .handshake_q q ∉ P.toLeader) :
    ∃ a, c.leader.ackedOn i = some a ∧ Stage c.leader.entries a.toNat P := by
  rcases h.peers i P hP with harr | hserved
  · obtain ⟨q, hq, _⟩ := harr.toLeader
    refine absurd ?_ (hno q)
    rw [hq]
    exact List.mem_singleton_self _
  · exact hserved

theorem Orderly.at_rest (h : Orderly c) (hP : c.peers[i]? = some P) (htoPeer : P.toPeer = [])
    (htoLeader : P.toLeader = []) :
    ∃ a, c.leader.ackedOn i = some a ∧ Follows c.leader.entries a.toNat P.server := by
  obtain ⟨a, ha, hstage⟩ := h.served hP fun q hq => by rw [htoLeader] at hq; cases hq
  exact ⟨a, ha, (hstage.idle_of_rest htoPeer htoLeader).follows⟩

theorem Orderly.lt_length (h : Orderly c) {a : UInt64} (ha : c.leader.ackedOn i = some a) :
    a.toNat < c.leader.entries.length := by
  obtain ⟨_, id, p, _, _, _, hfind, rfl⟩ := RaftServer.ackedOn_eq_some.mp ha
  exact (h.steady id p hfind).2

/-- Where one peer has something to read or to say, nobody shakes hands. -/
theorem Orderly.no_handshake (h : Orderly c) (hP : c.peers[i]? = some P)
    (hno : ∀ q, .handshake_q q ∉ P.toLeader) (hbusy : P.toPeer ≠ [] ∨ P.toLeader ≠ [])
    (hP' : c.peers[j]? = some P') (q : HandshakeQ) : .handshake_q q ∉ P'.toLeader := by
  intro hq
  by_cases hij : i = j
  · rw [hij, hP'] at hP
    obtain rfl := Option.some.inj hP
    exact hno q hq
  · obtain ⟨htoPeer, htoLeader⟩ := h.alone j P' q hP' hq i P hP hij
    exact hbusy.elim (fun hne => hne htoPeer) fun hne => hne htoLeader

/-! ## What a paced event does -/

/-- The timer asks everybody. -/
theorem tick_cases (hwf : Wf c) (h : Orderly c) (hrest : c.AtRest) (hn : c.next .tick = some c') :
    c'.leader = c.leader ∧ ∀ j P', c'.peers[j]? = some P' → ∃ P a q, c.peers[j]? = some P ∧
      P'.server = P.server ∧ c.leader.ackedOn j = some a ∧ Asked c.leader.entries a.toNat P' q ∧
      q.leadercommit = c.leader.commitIndex := by
  obtain ⟨ms, hms, hlead, hpeers⟩ := next_tick hn
  obtain ⟨ms', hms', hasks⟩ := h.steady.broadCast_asks hwf.proxys hwf.log (hwf.log.term h.leads)
  obtain rfl := Except.ok.inj (hms.symm.trans hms')
  refine ⟨hlead, fun j P' hP' => ?_⟩
  obtain ⟨P, hP, rfl⟩ := peer_of_tick (hpeers j) hP'
  obtain ⟨htoPeer, htoLeader⟩ := hrest.peer hP
  obtain ⟨a, ha, hfollows⟩ := h.at_rest hP htoPeer htoLeader
  obtain ⟨q, hq, hask, hcommit⟩ := hasks j a ha
  refine ⟨P, a, q, hP, rfl, ha, ⟨?_, htoLeader, hask, hfollows⟩, hcommit⟩
  show questions (P.toPeer ++ sentTo ms j) = [q]
  rw [htoPeer, hq]
  rfl

/-- What a peer with counter `m` does with its next message. -/
inductive Hears (L : List Entry) (m : ℕ) (puts : Puts) (P P' : Peer) : Prop where
  | welcome (hserver : P'.server = P.server) (hquestions : questions P'.toPeer = questions P.toPeer)
    (htoLeader : P'.toLeader = P.toLeader)
  | question (q : AppendEntriesQ) (r : AppendEntriesR) (hasked : Asked L m P q)
    (hq : P.server.appendEntriesQ puts q = .ok (P'.server, r)) (hanswered : Answered L m P' r)

theorem toPeer_cases (hwf : Wf c) (h : Orderly c) (hputs : puts.Taken)
    (hn : c.next (.toPeer i puts) = some c') :
    ∃ P P₁ a, c.peers[i]? = some P ∧ P.toPeer ≠ [] ∧ c.leader.ackedOn i = some a ∧
      Stage c.leader.entries a.toNat P ∧ Hears c.leader.entries a.toNat puts P P₁ ∧
      c'.leader = c.leader ∧ ∀ j, c'.peers[j]? = if j = i then some P₁ else c.peers[j]? := by
  obtain ⟨P, rest, hP, hlead, hcases⟩ := peerStep_of_next hwf hn
  have hsome : ∃ m, P.toPeer = m :: rest := by
    rcases hcases with ⟨r, hm, _⟩ | ⟨q, _, _, hm, _⟩
    · exact ⟨_, hm⟩
    · exact ⟨_, hm⟩
  obtain ⟨m, hm⟩ := hsome
  have hne : P.toPeer ≠ [] := by rw [hm]; exact List.cons_ne_nil _ _
  have hno : ∀ q, .handshake_q q ∉ P.toLeader := by
    intro q hq
    obtain ⟨r, hr⟩ := (hwf.peers i P hP).replies hm _ hq
    cases hr
  obtain ⟨a, ha, hstage⟩ := h.served hP hno
  rcases hcases with ⟨r, hm, hpeers⟩ | ⟨q, t, r, hm, _, hq, hpeers⟩
  · refine ⟨P, { P with toPeer := rest }, a, hP, hne, ha, hstage, .welcome rfl ?_ rfl, hlead,
      hpeers⟩
    rw [hm]
    rfl
  · obtain ⟨hasked, hnil⟩ := hstage.asked_of_question hm
    obtain ⟨hterm, hcounts, hfollows⟩ :=
      hasked.follows.answers (h.lt_length ha) hasked.asks hwf.log.own hputs hq
    refine ⟨P, _, a, hP, hne, ha, hstage,
      .question q r hasked hq ⟨hnil, ?_, hterm, hcounts, hfollows⟩, hlead, hpeers⟩
    rw [hasked.toLeader]
    rfl

/-- An answer is counted. -/
theorem reply_cases (hwf : Wf c) (h : Orderly c) (hP : c.peers[i]? = some P)
    (hno : ∀ q, .handshake_q q ∉ P.toLeader) (hn : c.next (.toLeader i puts) = some c') :
    ∃ r a b, c.leader.ackedOn i = some a ∧ Answered c.leader.entries a.toNat P r ∧
      (c.leader.countReply i r).changeCommitIndex = .ok (c'.leader, b) ∧
      ∀ j, c'.peers[j]? = if j = i then some { P with toLeader := [] } else c.peers[j]? := by
  obtain ⟨P₀, m, rest, ms, hP₀, hm, _, hproc, hpeers⟩ := next_toLeader hn
  obtain rfl := Option.some.inj (hP.symm.trans hP₀)
  obtain ⟨a, ha, hstage⟩ := h.served hP hno
  rcases (hwf.peers i P hP).toLeader with hjoin | hreplies
  · obtain ⟨q, hq⟩ := hjoin.toLeader
    refine absurd ?_ (hno q)
    rw [hq]
    exact List.mem_singleton_self _
  · obtain ⟨r, rfl⟩ := hreplies m (by rw [hm]; exact List.mem_cons_self)
    obtain ⟨hanswered, rfl⟩ := hstage.answered_of_reply hm
    obtain ⟨hR, rfl⟩ := RaftServer.proc_appendEntriesR hproc
    -- and nothing is sent
    have hsame : ∀ (P₁ : Peer) (j : ℕ),
        ({ P₁ with toPeer := P₁.toPeer ++ sentTo [] j } : Peer) = P₁ := by
      intro P₁ j
      have hnil : P₁.toPeer ++ sentTo [] j = P₁.toPeer := List.append_nil _
      rw [hnil]
    rcases RaftServer.appendEntriesR_cases hR with ⟨hlt, _⟩ | ⟨_, b, hb⟩
    · rw [hanswered.term, hwf.log.term h.leads] at hlt
      exact absurd hlt (lt_irrefl 0)
    · refine ⟨r, a, b, ha, hanswered, hb, fun j => ?_⟩
      rw [hpeers]
      split_ifs
      · exact congrArg some (hsame { P with toLeader := [] } i)
      · cases c.peers[j]? with
        | none => rfl
        | some P₁ => exact congrArg some (hsame P₁ j)

/-- A counter after a reply has been counted. -/
theorem ackedOn_of_countReply {a : UInt64} (hp : s.ProxysWf) (ha : s.ackedOn j = some a)
    (r : AppendEntriesR) :
    (s.countReply i r).ackedOn j = some (if j = i ∧ r.counts = true then a + 1 else a) := by
  obtain ⟨cn, id, p, hcn, hread, hid, hfind, rfl⟩ := RaftServer.ackedOn_eq_some.mp ha
  have htied : s.tiedTo j = some id := RaftServer.tiedTo_eq_some.mpr ⟨cn, hcn, hid⟩
  have hiff : (r.counts = true ∧ s.tiedTo i = some id) ↔ (j = i ∧ r.counts = true) := by
    constructor
    · rintro ⟨hr, hi⟩
      exact ⟨hp.tiedTo_inj htied hi, hr⟩
    · rintro ⟨rfl, hr⟩
      exact ⟨hr, htied⟩
  have hproxy : (s.countReply i r).proxys.find? id =
      some (if j = i ∧ r.counts = true then p.counted else p) := by
    rw [RaftServer.countReply_proxys, hfind]
    simp only [hiff]
    split_ifs <;> rfl
  refine RaftServer.ackedOn_eq_some.mpr
    ⟨cn, id, _, by rw [RaftServer.countReply_conns, hcn], hread, hid, hproxy, ?_⟩
  split_ifs <;> rfl

/-- Counting an answer to a question that had entries leaves the counter inside the log. -/
theorem steady_of_countReply {a : UInt64} {r : AppendEntriesR} (h : s.Steady)
    (ha : s.ackedOn i = some a) (hcounts : r.counts = true → a.toNat + 1 < s.entries.length)
    (hshort : s.entries.length < 2 ^ 32) :
    (s.countReply i r).Steady := by
  intro id p' hp'
  rw [RaftServer.countReply_proxys] at hp'
  have hentries : (s.countReply i r).entries = s.entries := by rw [RaftServer.countReply_frame]
  rw [hentries]
  split_ifs at hp' with hcond
  · obtain ⟨p, hp, rfl⟩ := Option.map_eq_some_iff.mp hp'
    -- the connection is tied to this proxy
    obtain ⟨cn, id', p₁, hcn, _, hid', hp₁, rfl⟩ := RaftServer.ackedOn_eq_some.mp ha
    obtain rfl := Option.some.inj
      ((RaftServer.tiedTo_eq_some.mpr ⟨cn, hcn, hid'⟩).symm.trans hcond.2)
    obtain rfl := Option.some.inj (hp.symm.trans hp₁)
    have hmore := hcounts hcond.1
    refine ⟨(h _ p hp).1, ?_⟩
    show (p.matchIndex + 1).toNat < _
    rw [UInt.toNat_succ64 (by omega)]
    exact hmore
  · exact h id p' hp'

/-! ## Every paced event keeps the order -/

theorem orderly_join {disk : Disk} {addr : Bytes} {raftPort nodeID : UInt32} (hwf : Wf c)
    (h : Orderly c) (hC : Paced c (.join disk addr raftPort nodeID))
    (hn : c.next (.join disk addr raftPort nodeID) = some c') : Orderly c' := by
  obtain ⟨hrest, hfresh⟩ := hC
  obtain ⟨hlead, hpeers⟩ := next_join hn
  have hproxys : c'.leader.proxys = c.leader.proxys := by rw [hlead]; rfl
  have hentries : c'.leader.entries = c.leader.entries := by rw [hlead]; rfl
  refine ⟨by rw [hlead]; exact h.leads, ?_, ?_, ?_⟩
  · intro id p hp
    rw [hproxys] at hp
    rw [hentries]
    exact h.steady id p hp
  · intro j P' hP'
    rcases peer_of_join hn hP' with hP | ⟨hj, rfl⟩
    · obtain ⟨htoPeer, htoLeader⟩ := hrest.peer hP
      obtain ⟨a, ha, hfollows⟩ := h.at_rest hP htoPeer htoLeader
      refine Or.inr
        ⟨a, ?_, .idle ⟨by rw [htoPeer]; rfl, htoLeader, by rw [hentries]; exact hfollows⟩⟩
      rw [hlead, accept_ackedOn addr hwf.unregistered, ha]
    · refine Or.inl ⟨rfl, ⟨_, rfl, by rw [hproxys]; exact hfresh⟩, ⟨⟨addr, 0, none, true⟩, ?_, rfl⟩,
        ⟨rfl, rfl, rfl⟩⟩
      rw [hlead, hj]
      exact (OrdMap.find?_insert _ _ _ _).trans (if_pos rfl)
  · intro i P q hP hq j P' hP' hne
    rcases peer_of_join hn hP with hP | ⟨hi, rfl⟩
    · rw [(hrest.peer hP).2] at hq
      cases hq
    · rcases peer_of_join hn hP' with hP' | ⟨hj, rfl⟩
      · exact hrest.peer hP'
      · exact absurd (hj.trans hi.symm) hne

theorem orderly_tick (hwf : Wf c) (h : Orderly c) (hrest : c.AtRest) (hn : c.next .tick = some c') :
    Orderly c' := by
  obtain ⟨hlead, hpeers⟩ := tick_cases hwf h hrest hn
  refine ⟨by rw [hlead]; exact h.leads, by rw [hlead]; exact h.steady, ?_, ?_⟩
  · intro j P' hP'
    obtain ⟨_, a, q, _, _, ha, hasked, _⟩ := hpeers j P' hP'
    rw [hlead]
    exact Or.inr ⟨a, ha, .asked q hasked⟩
  · intro i P q hP hq
    obtain ⟨_, a, q', _, _, _, hasked, _⟩ := hpeers i P hP
    rw [hasked.toLeader] at hq
    cases hq

/-- A peer was replaced that had something to read or to say, and nobody shakes hands. -/
theorem orderly_of_replaced {P₁ : Peer} (h : Orderly c) (hP : c.peers[i]? = some P)
    (hno : ∀ q, .handshake_q q ∉ P.toLeader) (hbusy : P.toPeer ≠ [] ∨ P.toLeader ≠ [])
    (hpeers : ∀ j, c'.peers[j]? = if j = i then some P₁ else c.peers[j]?)
    (hleads : c'.leader.role = .Leader) (hsteady : c'.leader.Steady)
    (hentries : c'.leader.entries = c.leader.entries)
    (hP₁ : ∃ a, c'.leader.ackedOn i = some a ∧ Stage c.leader.entries a.toNat P₁)
    (hothers : ∀ j a, j ≠ i → c.leader.ackedOn j = some a → c'.leader.ackedOn j = some a) :
    Orderly c' := by
  have hall : ∀ (j : ℕ) (P' : Peer), c'.peers[j]? = some P' →
      ∃ a, c'.leader.ackedOn j = some a ∧ Stage c'.leader.entries a.toNat P' := by
    intro j P' hP'
    rw [hentries]
    rcases peer_of_replaced (hpeers j) hP' with ⟨rfl, rfl⟩ | ⟨hji, hold⟩
    · exact hP₁
    · obtain ⟨a, ha, hstage⟩ := h.served hold (h.no_handshake hP hno hbusy hold)
      exact ⟨a, hothers j a hji ha, hstage⟩
  refine ⟨hleads, hsteady, fun j P' hP' => Or.inr (hall j P' hP'), fun j P' q hP' hq => ?_⟩
  obtain ⟨_, _, hstage⟩ := hall j P' hP'
  exact absurd hq (hstage.no_handshake q)

theorem orderly_toPeer (hwf : Wf c) (h : Orderly c) (hputs : puts.Taken)
    (hn : c.next (.toPeer i puts) = some c') : Orderly c' := by
  obtain ⟨P, P₁, a, hP, hne, ha, hstage, hhears, hlead, hpeers⟩ := toPeer_cases hwf h hputs hn
  refine orderly_of_replaced h hP hstage.no_handshake (Or.inl hne) hpeers
    (by rw [hlead]; exact h.leads) (by rw [hlead]; exact h.steady) (by rw [hlead])
    ⟨a, by rw [hlead, ha], ?_⟩
    (fun j a _ ha => by rw [hlead, ha])
  cases hhears with
  | welcome hserver hquestions htoLeader => exact hstage.of_welcome hserver hquestions htoLeader
  | question q r _ _ hanswered => exact .answered r hanswered

theorem orderly_reply (hwf : Wf c) (h : Orderly c) (hP : c.peers[i]? = some P)
    (hno : ∀ q, .handshake_q q ∉ P.toLeader) (hn : c.next (.toLeader i puts) = some c') :
    Orderly c' := by
  obtain ⟨r, a, b, ha, hanswered, hb, hpeers⟩ := reply_cases hwf h hP hno hn
  obtain ⟨k, hs'⟩ := RaftServer.changeCommitIndex_frame hb
  have hacked : ∀ j a, c.leader.ackedOn j = some a →
      c'.leader.ackedOn j = some (if j = i ∧ r.counts = true then a + 1 else a) := by
    intro j a ha
    rw [← ackedOn_of_countReply hwf.proxys ha, hs']
    rfl
  have hentries : (c.leader.countReply i r).entries = c.leader.entries := by
    rw [RaftServer.countReply_frame]
  refine orderly_of_replaced h hP hno (Or.inr ?_) hpeers ?_ ?_ (by rw [hs']; exact hentries) ?_ ?_
  · rw [hanswered.toLeader]
    exact List.cons_ne_nil _ _
  · rw [hs', RaftServer.countReply_frame]
    exact h.leads
  · rw [hs']
    exact steady_of_countReply h.steady ha hanswered.counts.mp hwf.log.short
  · refine ⟨_, hacked i a ha, .idle ⟨hanswered.questions, rfl, ?_⟩⟩
    have hlt := h.lt_length ha
    have hshort := hwf.log.short
    have hnat : (if i = i ∧ r.counts = true then a + 1 else a).toNat =
        a.toNat + if r.counts then 1 else 0 := by
      simp only [true_and]
      split_ifs
      · exact UInt.toNat_succ64 (by omega)
      · rfl
    rw [hnat]
    exact hanswered.follows
  · intro j a hji ha
    rw [hacked j a ha, if_neg fun hand => hji hand.1]

/-- The proxies after a node has been welcomed. -/
theorem steady_of_welcomed {put : PutResult} {cn : Conn} {q : HandshakeQ} {s' : RaftServer}
    (h : s.Steady) (hwel : s.Welcomed put i cn q s') (hfresh : s.proxys.find? q.nodeid = none)
    (hok : put.ok = true) : s'.Steady := by
  have hlen : s'.entries.length = s.entries.length + 1 := by
    rw [hwel.entries, if_pos hok, List.length_append]
    rfl
  intro id p hp
  rw [hwel.proxys] at hp
  split_ifs at hp
  · obtain rfl := Option.some.inj hp
    rw [hfresh, hlen]
    exact ⟨(fun hne => by cases hne), Nat.succ_pos _⟩
  · obtain ⟨hactive, hlt⟩ := h id p hp
    exact ⟨hactive, by omega⟩

/-- The counter of a node that has been welcomed is 0, and the others' are as they were. -/
theorem ackedOn_of_welcomed {put : PutResult} {cn : Conn} {q : HandshakeQ} {s' : RaftServer}
    (hwel : s.Welcomed put i cn q s') (hread : cn.reading = true)
    (hfresh : s.proxys.find? q.nodeid = none) :
    s'.ackedOn i = some 0 ∧ ∀ j a, j ≠ i → s.ackedOn j = some a → s'.ackedOn j = some a := by
  constructor
  · refine RaftServer.ackedOn_eq_some.mpr
      ⟨{ cn with raftPort := q.raftport, proxy := some q.nodeid }, q.nodeid, _,
        by rw [hwel.conns, if_pos rfl], hread, rfl, by rw [hwel.proxys, if_pos rfl], ?_⟩
    rw [hfresh]
    rfl
  · intro j a hji ha
    obtain ⟨cn', id, p, hcn', hread', hid, hfind, rfl⟩ := RaftServer.ackedOn_eq_some.mp ha
    refine RaftServer.ackedOn_eq_some.mpr ⟨cn', id, p, ?_, hread', hid, ?_, rfl⟩
    · rw [hwel.conns, if_neg hji, hcn']
    · rw [hwel.proxys, if_neg (OrdMap.ne_of_find? hfind hfresh), hfind]

/-- A new node is welcomed. -/
theorem orderly_handshake (hwf' : Wf c') (h : Orderly c) {m : Message}
    {rest : List Message} {ms : Sends} (hputs : puts.Taken) (hP : c.peers[i]? = some P)
    (hm : P.toLeader = m :: rest) (harr : Arriving c.leader i P)
    (hproc : c.leader.proc puts i m = .ok (c'.leader, ms))
    (hpeers : ∀ j, c'.peers[j]? = if j = i
      then some { P with toLeader := rest, toPeer := P.toPeer ++ sentTo ms i }
      else (c.peers[j]?).map fun P => { P with toPeer := P.toPeer ++ sentTo ms j }) :
    Orderly c' := by
  obtain ⟨q, hq, hfresh⟩ := harr.toLeader
  obtain ⟨cn, hcn, hread⟩ := harr.registered
  rw [hq] at hm
  obtain ⟨rfl, rfl⟩ := List.cons.inj hm
  obtain ⟨put, bs, hput, hwel, hbs, rfl⟩ : ∃ put bs, put.ok = true ∧
      c.leader.Welcomed put i cn q c'.leader ∧ c'.leader.broadCastAppendEntries = .ok bs ∧
      ms = bs ++ [(i, .handshake_r ⟨true⟩)] := by
    rcases RaftServer.handshakeQ_cases hproc with ⟨hnone, _⟩ | ⟨hrole, _⟩ |
      ⟨_, ⟨old, hold, _⟩, _⟩ | ⟨_, _, ⟨c₁, hc₁, hwel⟩, bs, hbs, hms⟩
    · rw [hcn] at hnone
      cases hnone
    · exact absurd h.leads hrole
    · obtain ⟨p, hp, _⟩ := RaftServer.proxyConnFd_eq_some.mp hold
      rw [hfresh] at hp
      cases hp
    · obtain rfl := Option.some.inj (hcn.symm.trans hc₁)
      exact ⟨puts.entry 0, bs, hputs.1, hwel, hbs, hms⟩
  have hleads : c'.leader.role = .Leader := by
    rw [hwel.frame]
    exact h.leads
  have hsteady := steady_of_welcomed h.steady hwel hfresh hput
  have hext : c.leader.entries <+: c'.leader.entries := by
    rw [hwel.entries]
    exact List.prefix_append _ _
  obtain ⟨bs', hbs', hasks⟩ :=
    hsteady.broadCast_asks hwf'.proxys hwf'.log (hwf'.log.term hleads)
  obtain rfl := Except.ok.inj (hbs.symm.trans hbs')
  obtain ⟨hzero, hothers⟩ := ackedOn_of_welcomed hwel hread hfresh
  -- nobody else has anything to read or to say
  have halone := h.alone i P q hP (by rw [hq]; exact List.mem_singleton_self _)
  refine ⟨hleads, hsteady, ?_, ?_⟩
  · intro j P' hP'
    rw [hpeers] at hP'
    split_ifs at hP' with hji
    · obtain rfl := Option.some.inj hP'
      rw [hji]
      obtain ⟨q₀, hq₀, hask, _⟩ := hasks i 0 hzero
      refine Or.inr ⟨0, hzero, .asked q₀ ⟨?_, rfl, hask, ?_, harr.follows.term, harr.follows.logs⟩⟩
      · show questions (P.toPeer ++ sentTo (bs ++ [(i, .handshake_r ⟨true⟩)]) i) = [q₀]
        rw [harr.toPeer, List.nil_append, sentTo_append, hq₀]
        have hown : sentTo [(i, .handshake_r ⟨true⟩)] i = [.handshake_r ⟨true⟩] := by
          simp [sentTo]
        rw [hown]
        rfl
      · rw [harr.follows.entries]
        rfl
    · obtain ⟨P₀, hP₀, rfl⟩ := Option.map_eq_some_iff.mp hP'
      obtain ⟨htoPeer, htoLeader⟩ := halone j P₀ hP₀ hji
      obtain ⟨a, ha, hfollows⟩ := h.at_rest hP₀ htoPeer htoLeader
      have ha' := hothers j a hji ha
      obtain ⟨q₀, hq₀, hask, _⟩ := hasks j a ha'
      refine Or.inr ⟨a, ha', .asked q₀ ⟨?_, htoLeader, hask, hfollows.mono (h.lt_length ha) hext⟩⟩
      show questions (P₀.toPeer ++ sentTo (bs ++ [(i, .handshake_r ⟨true⟩)]) j) = [q₀]
      have hnone : sentTo [(i, Message.handshake_r ⟨true⟩)] j = [] := by
        simp [sentTo, Ne.symm hji]
      rw [htoPeer, List.nil_append, sentTo_append, hq₀, hnone]
      rfl
  · intro k Pk q' hPk hq'
    rw [hpeers] at hPk
    split_ifs at hPk with hki
    · obtain rfl := Option.some.inj hPk
      cases hq'
    · obtain ⟨P₀, hP₀, rfl⟩ := Option.map_eq_some_iff.mp hPk
      have hnil := (halone k P₀ hP₀ hki).2
      rw [hnil] at hq'
      cases hq'

theorem orderly_step (hwf : Wf c) (hwf' : Wf c') (h : Orderly c) (hC : Paced c e)
    (hn : c.next e = some c') : Orderly c' := by
  cases e with
  | join disk addr raftPort nodeID => exact orderly_join hwf h hC hn
  | toLeader i puts =>
    obtain ⟨P, m, rest, ms, hP, hm, _, hproc, hpeers⟩ := next_toLeader hn
    rcases h.peers i P hP with harr | ⟨_, _, hstage⟩
    · exact orderly_handshake hwf' h hC.2 hP hm harr hproc hpeers
    · exact orderly_reply hwf h hP hstage.no_handshake hn
  | toPeer i puts => exact orderly_toPeer hwf h hC hn
  | tick => exact orderly_tick hwf h hC hn
  | timeout i => exact hC.elim

theorem orderly_launched (h : Launched c) : Orderly c := by
  obtain ⟨hproxys, hpeers⟩ := launched_proxys h
  obtain ⟨put, disk, port, id, hstart, _⟩ := h
  obtain ⟨db, happ, _⟩ := RaftServer.appendCfgLog_frame put
    ({ RaftServer.new disk with role := .Leader } : RaftServer) RaftServer.startHost port id
  refine ⟨by rw [RaftServer.launchStart_eq_ok hstart, happ], fun id p hp => ?_, fun i P hP => ?_,
    fun i P q hP => ?_⟩
  · rw [hproxys] at hp
    cases hp
  · rw [hpeers] at hP
    cases hP
  · rw [hpeers] at hP
    cases hP

theorem orderly_of_reachable (h : system.Reachable Paced c) : Orderly c := by
  have hroom : ∀ c e, Paced c e → Room c e := fun _ _ => Paced.room
  apply h.invariant (I := Orderly) fun c => orderly_launched
  intro c e c' hreach hI hC hn
  exact orderly_step (wf_of_reachable hroom hreach)
    (wf_of_reachable hroom (hreach.step hC hn)) hI hC hn

/-! ## The safety results apply -/

/-- The conditions of the results on followers' logs, on the counters and on commits. -/
def InOrder (c : Cluster) (e : Event) : Prop :=
  InPlaceOfItsTerm c e ∧ Replicating c e ∧ AckedOnce c e

/-- What is said of a question that is about to be accepted. -/
theorem whenStored_of_paced {C : Peer → AppendEntriesQ → Prop} (h : Orderly c) (hwf : Wf c)
    (hC : ∀ P q a, c.leader.ackedOn i = some a → Asked c.leader.entries a.toNat P q → C P q) :
    c.WhenStored i C := by
  intro P hP m hm
  obtain ⟨rest, hrest⟩ := List.head?_eq_some_iff.mp hm
  cases m with
  | appendentries_q q =>
    intro _ _
    have hno : ∀ q, .handshake_q q ∉ P.toLeader := by
      intro q' hq'
      obtain ⟨r, hr⟩ := (hwf.peers i P hP).replies hrest _ hq'
      cases hr
    obtain ⟨a, ha, hstage⟩ := h.served hP hno
    have hasked := (hstage.asked_of_question hrest).1
    exact hC P q a ha hasked
  | _ => trivial

theorem storesAll_of_paced {q : AppendEntriesQ} {t : RaftServer} (hq : Asks L m q)
    (hf : Follows L m t) (hm : m < L.length) (hputs : puts.Taken) : StoresAll puts t q := by
  constructor
  · have hle := heldUpTo_le m
    rw [hf.entries, List.length_take, min_eq_left (by omega)]
    rcases Nat.eq_zero_or_pos m with rfl | hpos
    · exact Nat.zero_le _
    · have hpre := hq.prelogindex
      rw [q.firstIndex_of_pos (by omega), hpre]
      exact hle
  · intro k hk
    have hlen := hq.length_le
    rcases Nat.eq_zero_or_pos k with rfl | hpos
    · exact hputs.1
    · obtain rfl : k = 1 := by omega
      exact hputs.2

theorem inOrder_of_paced (hwf : Wf c) (h : Orderly c) (hC : Paced c e) : InOrder c e := by
  cases e with
  | toLeader i puts =>
    refine ⟨hC.1, ⟨hC.1, ?_⟩, hC.1⟩
    intro P hP m hm
    obtain ⟨rest, hrest⟩ := List.head?_eq_some_iff.mp hm
    cases m with
    | handshake_q q =>
      -- its id is new
      intro p hp
      rcases h.peers i P hP with harr | ⟨a, _, hstage⟩
      · obtain ⟨q', hq', hfresh⟩ := harr.toLeader
        rw [hrest] at hq'
        obtain rfl := Message.handshake_q.inj (List.cons.inj hq').1
        rw [hfresh] at hp
        cases hp
      · refine absurd ?_ (hstage.no_handshake q)
        rw [hrest]
        exact List.mem_cons_self
    | _ => trivial
  | toPeer i puts =>
    refine ⟨whenStored_of_paced h hwf ?_, whenStored_of_paced h hwf ?_,
      whenStored_of_paced h hwf ?_⟩
    · intro P q a ha hasked
      obtain ⟨hlen, hok⟩ := storesAll_of_paced hasked.asks hasked.follows (h.lt_length ha) hC
      refine ⟨fun k hk _ => ⟨hlen, fun i hi => hok i (lt_trans hi hk)⟩, fun k hk _ x hx => ?_⟩
      have hown := hwf.log.own x (hasked.asks.mem (List.mem_of_getElem? hx))
      rw [hasked.asks.term]
      exact (Entry.restamp_eq_self.mp hown).2.1
    · intro P q a ha hasked
      exact storesAll_of_paced hasked.asks hasked.follows (h.lt_length ha) hC
    · intro P q a ha hasked b hb
      rw [ha] at hb
      obtain rfl := Option.some.inj hb
      rw [hasked.toLeader, acks_nil, hasked.asks.prelogindex, Nat.add_zero]
  | join disk addr raftPort nodeID => exact ⟨trivial, trivial, trivial⟩
  | tick => exact ⟨trivial, trivial, trivial⟩
  | timeout i => exact hC.elim

/-- A follower has the first entries of the start node's log. -/
theorem Orderly.isPrefix (h : Orderly c) (hP : c.peers[i]? = some P) :
    P.server.entries <+: c.leader.entries := by
  have hall : ∃ m, Follows c.leader.entries m P.server := by
    rcases h.peers i P hP with harr | ⟨a, _, hstage⟩
    · exact ⟨0, harr.follows⟩
    · cases hstage with
      | idle h => exact ⟨_, h.follows⟩
      | asked _ h => exact ⟨_, h.follows⟩
      | answered _ h => exact ⟨_, h.follows⟩
  obtain ⟨m, hfollows⟩ := hall
  rw [hfollows.entries]
  exact List.take_prefix _ _

/-- **A paced cluster is in order.** In every paced run followers store each entry once, in its
place and in its term, and acknowledge it once; so their logs are the first entries of the start
node's log, and the nodes agree on what they have committed. -/
theorem paced_in_order (h : system.Reachable Paced c) :
    system.Reachable InOrder c ∧ (∀ P ∈ c.peers, P.server.entries <+: c.leader.entries) ∧
      c.Safe := by
  have hroom : ∀ c e, Paced c e → Room c e := fun _ _ => Paced.room
  have horderly := orderly_of_reachable h
  have hprefix : ∀ P ∈ c.peers, P.server.entries <+: c.leader.entries := by
    intro P hP
    obtain ⟨i, hi⟩ := List.mem_iff_getElem?.mp hP
    exact horderly.isPrefix hi
  refine ⟨?_, hprefix, ?_⟩
  · apply h.invariant (I := fun c => system.Reachable InOrder c) fun c => System.reachable_init
    intro c e c' hreach hI hC hn
    exact hI.step
      (inOrder_of_paced (wf_of_reachable hroom hreach) (orderly_of_reachable hreach) hC) hn
  · have hnode : ∀ A ∈ c.nodes, A.entries <+: c.leader.entries := by
      intro A hA
      rcases List.mem_cons.mp hA with rfl | hA
      · exact List.prefix_refl _
      · obtain ⟨P, hP, rfl⟩ := List.mem_map.mp hA
        exact hprefix P hP
    intro A hA B hB k _ _ a b ha hb
    obtain rfl := Log.prefix_agree (hnode A hA) (hnode B hB) ha hb
    exact ⟨rfl, rfl, rfl, rfl, rfl⟩

instance : Decidable c.AtRest :=
  inferInstanceAs (Decidable (∀ P ∈ c.peers, P.toPeer = [] ∧ P.toLeader = []))

instance : Decidable puts.Taken :=
  inferInstanceAs (Decidable (_ ∧ _))

instance : ∀ (c : Cluster) (e : Event), Decidable (Paced c e)
  | c, .join _ _ _ nodeID =>
    inferInstanceAs (Decidable (c.AtRest ∧ c.leader.proxys.find? nodeID = none))
  | c, .toLeader i puts => inferInstanceAs (Decidable (c.RoomFor i ∧ puts.Taken))
  | _, .toPeer _ puts => inferInstanceAs (Decidable puts.Taken)
  | c, .tick => inferInstanceAs (Decidable c.AtRest)
  | _, .timeout _ => isFalse id

/-- Two nodes join one after the other, and the timer expires. -/
theorem paced_in_order_joined : ∃ c : Cluster, (∃ P ∈ c.peers, P.server.entries.length = 3) ∧
    system.Reachable InOrder c ∧ c.Safe := by
  obtain ⟨c, hc, htest⟩ := System.exists_of_run (C := Paced)
    [joins 2, leaderReads 0, peerReads 0, peerReads 0, leaderReads 0, joins 3, leaderReads 1,
      peerReads 1, peerReads 0, peerReads 1, leaderReads 1, leaderReads 0]
    (fun c => decide (∃ P ∈ c.peers, P.server.entries.length = 3))
    reachable_started (by decide +kernel) (by decide +kernel)
  obtain ⟨horder, _, hsafe⟩ := paced_in_order hc
  exact ⟨c, of_decide_eq_true htest, horder, hsafe⟩

end Cluster
end NanoRaft
