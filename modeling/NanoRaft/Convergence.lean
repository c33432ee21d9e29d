import NanoRaft.Exchange
import NanoRaft.FollowerCommit
import NanoRaft.Pacing

/-!
# How a paced cluster converges

From a state in which nothing is on its way, while nobody joins. Each expiry of the leader timer
brings every follower one entry further, until all have the start node's log; from then on each
brings the commit index one further, until it is at the last entry; and the expiry after that tells
the followers.

* `Cluster.Progress`: what so many expiries have brought about at least;
* `Cluster.converges`: all nodes have the same log, and have committed it, after twice as many
  expiries as it has entries.
-/

namespace NanoRaft

/-- How often the leader timer expires in an event. -/
def Event.ticks : Event → ℕ
  | .tick => 1
  | _ => 0

namespace Cluster

open RaftServer (Follows)

variable {c c' : Cluster} {i j k n : ℕ} {s s' : RaftServer} {P P' P₁ : Peer} {puts : Puts}
  {e : Event} {L : List Entry} {m : ℕ}

def ticks (es : List Event) : ℕ := (es.map Event.ticks).sum

/-- The paced runs in which nobody joins. -/
def Quiet (c : Cluster) : Event → Prop
  | .join .. => False
  | e => Paced c e

theorem Quiet.paced (h : Quiet c e) : Paced c e := by
  cases e with
  | join disk addr raftPort nodeID => exact h.elim
  | _ => exact h

/-- Every handshake has been read. -/
def Greeted (c : Cluster) : Prop :=
  ∀ (i : ℕ) (P : Peer) (q : HandshakeQ), c.peers[i]? = some P → .handshake_q q ∉ P.toLeader

/-- A state of a paced run in which all who have joined are served. -/
structure Serving (c : Cluster) : Prop where
  reachable : system.Reachable Paced c
  greeted : c.Greeted

namespace Serving

theorem wf (h : Serving c) : Wf c := wf_of_reachable (fun _ _ => Paced.room) h.reachable

theorem orderly (h : Serving c) : Orderly c := orderly_of_reachable h.reachable

theorem behind (h : Serving c) : Behind c :=
  behind_of_reachable (h.reachable.mono fun _ _ => Paced.room)

theorem of_rest (h : system.Reachable Paced c) (hrest : c.AtRest) : Serving c := by
  refine ⟨h, fun i P q hP hq => ?_⟩
  rw [(hrest.peer hP).2] at hq
  cases hq

theorem stage (h : Serving c) (hP : c.peers[i]? = some P) :
    ∃ a, c.leader.ackedOn i = some a ∧ Stage c.leader.entries a.toNat P :=
  h.orderly.served hP fun q => h.greeted i P q hP

theorem step (h : Serving c) (hC : Quiet c e) (hn : c.next e = some c') : Serving c' := by
  refine ⟨h.reachable.step hC.paced hn, fun j P' q hP' hq => ?_⟩
  cases e with
  | join disk addr raftPort nodeID => exact hC.elim
  | toLeader i puts =>
    obtain ⟨P, _, _, _, hP, _⟩ := next_toLeader hn
    obtain ⟨_, _, _, _, _, _, hpeers⟩ :=
      reply_cases h.wf h.orderly hP (fun q => h.greeted i P q hP) hn
    rcases peer_of_replaced (hpeers j) hP' with ⟨_, rfl⟩ | ⟨_, hold⟩
    · cases hq
    · exact h.greeted j P' q hold hq
  | toPeer i puts =>
    obtain ⟨P, P₁, a, hP, _, _, hstage, hhears, _, hpeers⟩ := toPeer_cases h.wf h.orderly hC hn
    rcases peer_of_replaced (hpeers j) hP' with ⟨_, rfl⟩ | ⟨_, hold⟩
    · cases hhears with
      | welcome _ _ htoLeader =>
        rw [htoLeader] at hq
        exact h.greeted i P q hP hq
      | question _ _ _ _ hanswered => exact (Stage.answered _ hanswered).no_handshake q hq
    · exact h.greeted j P' q hold hq
  | tick =>
    obtain ⟨_, hpeers⟩ := tick_cases h.wf h.orderly hC hn
    obtain ⟨_, _, q', _, _, _, hasked, _⟩ := hpeers j P' hP'
    exact (Stage.asked q' hasked).no_handshake q hq
  | timeout i => exact hC.elim

/-! ## Every question is answered -/

/-- A follower comes back from every message. -/
theorem toPeer_enabled (h : Serving c) (hP : c.peers[i]? = some P) (hne : P.toPeer ≠ []) :
    c.next (.toPeer i .allOk) ≠ none := by
  obtain ⟨a, ha, hstage⟩ := h.stage hP
  obtain ⟨m, rest, hm⟩ := List.exists_cons_of_ne_nil hne
  have hproc : ∃ s ms, P.server.proc .allOk 0 m = .ok (s, ms) := by
    rcases (h.wf.peers i P hP).toPeer m (by rw [hm]; exact List.mem_cons_self) with
      ⟨r, rfl⟩ | ⟨q, rfl, _⟩
    · exact ⟨_, _, rfl⟩
    · obtain ⟨hasked, _⟩ := hstage.asked_of_question hm
      obtain ⟨t, r, hr⟩ := hasked.follows.answered (h.orderly.lt_length ha) hasked.asks h.wf.log.own
        h.wf.log.short .allOk
      refine ⟨t, [(0, .appendentries_r r)], ?_⟩
      rw [RaftServer.proc, hr]
      rfl
  obtain ⟨s, ms, hproc⟩ := hproc
  rw [next_toPeer_of hP hm hproc]
  exact Option.some_ne_none _

/-- The start node comes back from every answer. -/
theorem toLeader_enabled (h : Serving c) (hP : c.peers[i]? = some P) (hne : P.toLeader ≠ []) :
    c.next (.toLeader i .allOk) ≠ none := by
  obtain ⟨a, ha, hstage⟩ := h.stage hP
  obtain ⟨m, rest, hm⟩ := List.exists_cons_of_ne_nil hne
  obtain ⟨r, rfl⟩ : ∃ r, m = .appendentries_r r := by
    rcases (h.wf.peers i P hP).toLeader with hjoin | hreplies
    · obtain ⟨q, hq⟩ := hjoin.toLeader
      refine absurd ?_ (h.greeted i P q hP)
      rw [hq]
      exact List.mem_singleton_self _
    · exact hreplies m (by rw [hm]; exact List.mem_cons_self)
  obtain ⟨hanswered, _⟩ := hstage.answered_of_reply hm
  have hsteady := steady_of_countReply h.orderly.steady ha hanswered.counts.mp h.wf.log.short
  obtain ⟨s, b, hb⟩ := RaftServer.changeCommitIndex_of_counters
    (s := c.leader.countReply i r) fun p hp => by
      obtain ⟨id, hfind⟩ := OrdMap.mem_values_iff.mp hp
      exact (hsteady id p hfind).2
  have hR : c.leader.appendEntriesR .allOk i r = .ok s := by
    rw [RaftServer.appendEntriesR, if_neg, hb]
    · rfl
    · rw [hanswered.term, h.wf.log.term h.orderly.leads]
      exact lt_irrefl 0
  have hproc : c.leader.proc .allOk i (.appendentries_r r) = .ok (s, []) := by
    rw [RaftServer.proc, hR]
    rfl
  obtain ⟨cn, _, _, hcn, hread, _⟩ := RaftServer.ackedOn_eq_some.mp ha
  rw [next_toLeader_of hP hm (listens_iff.mpr ⟨cn, hcn, hread⟩) hproc]
  exact Option.some_ne_none _

/-- No handshake is to be read, so the log has room. -/
theorem roomFor (h : Serving c) (i : ℕ) : c.RoomFor i := by
  intro P hP m hm
  obtain ⟨rest, hrest⟩ := List.head?_eq_some_iff.mp hm
  cases m with
  | handshake_q q =>
    refine absurd ?_ (h.greeted i P q hP)
    rw [hrest]
    exact List.mem_cons_self
  | _ => trivial

theorem tick_enabled (h : Serving c) : c.next .tick ≠ none := by
  obtain ⟨ms, hms, _⟩ := h.orderly.steady.broadCast_asks h.wf.proxys h.wf.log
    (h.wf.log.term h.orderly.leads)
  have hn : c.next .tick = some (c.send ms) := by simp only [next, hms]
  rw [hn]
  exact Option.some_ne_none _

end Serving

/-! ## Rounds -/

/-- The handling of a message in a quiet run. -/
def Answers (c : Cluster) (e : Event) : Prop := Handles c e ∧ Quiet c e

theorem answers_lowers : system.Lowers Answers Serving traffic := by
  intro c e c' h hC hn
  exact ⟨h.step hC.2 hn, (handles_lowers c e c' (answering_of_reachable h.reachable) hC.1 hn).2⟩

/-- Where nothing can be handled, nothing is on its way. -/
theorem rest_of_stuck (h : Serving c) (hstuck : ∀ e, Answers c e → c.next e = none) : c.AtRest := by
  have htaken : Puts.Taken .allOk := ⟨rfl, rfl⟩
  intro P hP
  obtain ⟨i, hi⟩ := List.mem_iff_getElem?.mp hP
  constructor
  · by_contra hne
    exact h.toPeer_enabled hi hne (hstuck (.toPeer i .allOk) ⟨trivial, htaken⟩)
  · by_contra hne
    exact h.toLeader_enabled hi hne (hstuck (.toLeader i .allOk) ⟨trivial, h.roomFor i, htaken⟩)

theorem ticks_of_answers {as : List Event} {t : Cluster} (hC : system.Allowed Answers c as)
    (hrun : system.run c as = some t) : ticks as = 0 := by
  have htimed := System.timed_of_run (I := fun n _ => n = 0) (w := Event.ticks) ?_ as rfl hC hrun
  · rwa [Nat.zero_add] at htimed
  · rintro _ s e s' rfl hC _
    cases e with
    | tick => exact hC.1.elim
    | _ => rfl

/-- An expiry of the timer, and what follows from it until nothing is on its way any more. -/
theorem exists_round (h : Serving c) (hrest : c.AtRest) :
    ∃ es t, system.Allowed Quiet c es ∧ system.run c es = some t ∧ t.AtRest ∧ ticks es = 1 := by
  obtain ⟨c₁, hc₁⟩ := Option.ne_none_iff_exists'.mp h.tick_enabled
  obtain ⟨as, t, hC, hrun, hstuck⟩ := answers_lowers.exists_final (h.step (e := .tick) hrest hc₁)
  have hserving : Serving t :=
    System.invariant_of_run (fun _ _ _ hs hC hn => hs.step hC.2 hn) as
      (h.step (e := .tick) hrest hc₁) hC hrun
  have hquiet : system.Allowed Quiet c₁ as :=
    System.allowed_mono (I := fun _ => True) (fun _ _ _ _ hC _ => ⟨hC.2, trivial⟩) as trivial hrun
      hC
  refine ⟨.tick :: as, t, ⟨hrest, fun c₂ hc₂ => ?_⟩, ?_, rest_of_stuck hserving hstuck, ?_⟩
  · obtain rfl := Option.some.inj (hc₁.symm.trans hc₂)
    exact hquiet
  · exact Option.bind_eq_some_iff.mpr ⟨c₁, hc₁, hrun⟩
  · have hzero := ticks_of_answers hC hrun
    show 1 + ticks as = 1
    omega

theorem serving_of_run {es : List Event} {t : Cluster} (h : Serving c)
    (hC : system.Allowed Quiet c es) (hrun : system.run c es = some t) : Serving t :=
  System.invariant_of_run (fun _ _ _ hs hC hn => hs.step hC hn) es h hC hrun

/-- As many rounds as one likes. -/
theorem exists_rounds (h : Serving c) (hrest : c.AtRest) (n : ℕ) :
    ∃ es t, system.Allowed Quiet c es ∧ system.run c es = some t ∧ t.AtRest ∧ ticks es = n := by
  induction n with
  | zero => exact ⟨[], c, trivial, rfl, hrest, rfl⟩
  | succ n ih =>
    obtain ⟨es, t, hC, hrun, hrest', hticks⟩ := ih
    obtain ⟨es', t', hC', hrun', hrest'', hticks'⟩ :=
      exists_round (serving_of_run h hC hrun) hrest'
    refine ⟨es ++ es', t', System.allowed_append hC hrun hC', ?_, hrest'', ?_⟩
    · rw [System.run_append, hrun]
      exact hrun'
    · show ((es ++ es').map Event.ticks).sum = n + 1
      rw [List.map_append, List.sum_append]
      show ticks es + ticks es' = n + 1
      rw [hticks, hticks']

/-! ## What the expiries bring about -/

/-- How many questions and answers of a peer are on their way. -/
def pending (P : Option Peer) : ℕ :=
  P.elim 0 fun P => (questions P.toPeer).length + P.toLeader.length

def inflight (c : Cluster) : ℕ := ∑ j ∈ Finset.range c.peers.length, pending c.peers[j]?

/-- After `n` expiries of the timer, with log `L`. -/
structure Progress (L : List Entry) (n : ℕ) (c : Cluster) : Prop where
  entries : c.leader.entries = L
  /-- Each expiry brings a follower one entry further. -/
  ahead : ∀ (j : ℕ) (P : Peer) (a : UInt64), c.peers[j]? = some P → c.leader.ackedOn j = some a →
    min n (L.length - 1) ≤ a.toNat + pending (some P)
  full : L.length ≤ n → ∀ (j : ℕ) (P : Peer) (a : UInt64), c.peers[j]? = some P →
    c.leader.ackedOn j = some a → a.toNat = L.length - 1
  /-- Each expiry thereafter brings the commit index one further. -/
  commits : L.length ≤ n →
    min (n - (L.length - 1)) (L.length - 1) ≤ c.leader.commitIndex.toNat + c.inflight
  /-- One more, and every follower has been told. -/
  told : 2 * L.length ≤ n + 1 → c.leader.commitIndex.toNat = L.length - 1 ∧
    ∀ (j : ℕ) (P : Peer), c.peers[j]? = some P → P.server.commitIndex = c.leader.commitIndex ∨
      ∃ q, questions P.toPeer = [q] ∧ q.leadercommit = c.leader.commitIndex

theorem pending_of_asked {q : AppendEntriesQ} (h : Asked L m P q) : pending (some P) = 1 := by
  show (questions P.toPeer).length + P.toLeader.length = 1
  rw [h.questions, h.toLeader]
  rfl

theorem pending_of_answered {r : AppendEntriesR} (h : Answered L m P r) : pending (some P) = 1 := by
  show (questions P.toPeer).length + P.toLeader.length = 1
  rw [h.questions, h.toLeader]
  rfl

theorem pending_of_rest (h : c.AtRest) (hP : c.peers[j]? = some P) : pending (some P) = 0 := by
  obtain ⟨htoPeer, htoLeader⟩ := h.peer hP
  show (questions P.toPeer).length + P.toLeader.length = 0
  rw [htoPeer, htoLeader]
  rfl

theorem AtRest.inflight (h : c.AtRest) : c.inflight = 0 := by
  refine Finset.sum_eq_zero fun j _ => ?_
  cases hP : c.peers[j]? with
  | none => rfl
  | some P => exact pending_of_rest h hP

/-- Replacing a peer changes what is on its way by what the peer has. -/
theorem inflight_of_replaced (hP : c.peers[i]? = some P)
    (hpeers : ∀ j, c'.peers[j]? = if j = i then some P₁ else c.peers[j]?) :
    c'.inflight + pending (some P) = c.inflight + pending (some P₁) := by
  have hi : i ∈ Finset.range c.peers.length :=
    Finset.mem_range.mpr (List.getElem?_eq_some_iff.mp hP).1
  have hlen : c'.peers.length = c.peers.length := by
    apply length_peers_eq
    intro j
    rw [hpeers]
    split_ifs with hj
    · rw [hj, hP]
      rfl
    · rfl
  have hsame : ∑ j ∈ (Finset.range c.peers.length).erase i, pending c'.peers[j]? =
      ∑ j ∈ (Finset.range c.peers.length).erase i, pending c.peers[j]? := by
    refine Finset.sum_congr rfl fun j hj => ?_
    rw [hpeers, if_neg (Finset.ne_of_mem_erase hj)]
  rw [inflight, inflight, hlen, ← Finset.add_sum_erase _ _ hi, ← Finset.add_sum_erase _ _ hi, hsame,
    hpeers, if_pos rfl, hP]
  omega

theorem progress_tick (h : Serving c) (hrest : c.AtRest) (hne : c.peers ≠ []) (hlen : 2 ≤ L.length)
    (hp : Progress L n c) (hn : c.next .tick = some c') : Progress L (n + 1) c' := by
  obtain ⟨hlead, hpeers⟩ := tick_cases h.wf h.orderly hrest hn
  obtain ⟨ms, _, _, hsent⟩ := next_tick hn
  -- at rest the counter is all that a follower has
  have hcounted : ∀ (j : ℕ) (P : Peer) (a : UInt64), c.peers[j]? = some P →
      c.leader.ackedOn j = some a → min n (L.length - 1) ≤ a.toNat ∧ a.toNat < L.length := by
    intro j P a hP ha
    have hahead := hp.ahead j P a hP ha
    have hlt := h.orderly.lt_length ha
    rw [pending_of_rest hrest hP] at hahead
    rw [hp.entries] at hlt
    exact ⟨hahead, hlt⟩
  have hcommit := h.wf.log.commit
  rw [hp.entries] at hcommit
  refine ⟨by rw [hlead, hp.entries], ?_, ?_, ?_, ?_⟩
  · intro j P' a hP' ha
    obtain ⟨P, b, q, hP, _, hb, hasked, _⟩ := hpeers j P' hP'
    rw [hlead] at ha
    obtain ⟨hle, _⟩ := hcounted j P a hP ha
    rw [pending_of_asked hasked]
    omega
  · intro hn j P' a hP' ha
    obtain ⟨P, b, q, hP, _⟩ := hpeers j P' hP'
    rw [hlead] at ha
    obtain ⟨hle, hlt⟩ := hcounted j P a hP ha
    omega
  · intro hn
    -- everybody has been asked
    have hlen' : c'.peers.length = c.peers.length := by
      apply length_peers_eq
      intro j
      rw [hsent]
      exact Option.isSome_map
    have hall : c'.inflight = c'.peers.length := by
      rw [inflight, Finset.sum_congr rfl (g := fun _ => 1), Finset.sum_const, Finset.card_range,
        smul_eq_mul, Nat.mul_one]
      intro j hj
      obtain ⟨P', hP'⟩ : ∃ P', c'.peers[j]? = some P' :=
        ⟨_, List.getElem?_eq_getElem (Finset.mem_range.mp hj)⟩
      obtain ⟨_, _, _, _, _, _, hasked, _⟩ := hpeers j P' hP'
      rw [hP', pending_of_asked hasked]
    have hpos : 0 < c.peers.length := List.length_pos_iff.mpr hne
    rw [hlead, hall, hlen']
    by_cases hfull : L.length ≤ n
    · have hcommits := hp.commits hfull
      rw [hrest.inflight] at hcommits
      omega
    · omega
  · intro hn
    have hfull : L.length ≤ n := by omega
    have hcommits := hp.commits hfull
    rw [hrest.inflight] at hcommits
    refine ⟨by rw [hlead]; omega, fun j P' hP' => ?_⟩
    obtain ⟨_, _, q, _, _, _, hasked, hq⟩ := hpeers j P' hP'
    rw [hlead]
    exact Or.inr ⟨q, hasked.questions, hq⟩

/-- A follower whose log is full takes over the commit index it is told. -/
theorem told_of_question (h : Serving c) (hP : c.peers[i]? = some P) {q : AppendEntriesQ}
    {r : AppendEntriesR} (hasked : Asked L m P q) (hm : m = L.length - 1)
    (hcommit : c.leader.commitIndex.toNat = L.length - 1)
    (htold : P.server.commitIndex = c.leader.commitIndex ∨ q.leadercommit = c.leader.commitIndex)
    (hq : P.server.appendEntriesQ puts q = .ok (P₁.server, r)) :
    P₁.server.commitIndex = c.leader.commitIndex := by
  obtain ⟨htoPeer, hbehind⟩ : q.leadercommit ≤ c.leader.commitIndex ∧
      P.server.commitIndex ≤ c.leader.commitIndex := by
    refine ⟨?_, h.behind.peers i P hP⟩
    have hmem : .appendentries_q q ∈ P.toPeer := by
      have hone : q ∈ questions P.toPeer := by
        rw [hasked.questions]
        exact List.mem_singleton_self q
      obtain ⟨m', hm', heq⟩ := List.mem_filterMap.mp hone
      cases m' with
      | appendentries_q q' =>
        obtain rfl := Option.some.inj heq
        exact hm'
      | _ => cases heq
    exact h.behind.toPeer i P hP _ hmem
  rw [RaftServer.appendEntriesQ_commitIndex hq]
  unfold RaftServer.followIndex
  split_ifs with hlt
  · -- the message names the last entry
    have hnil : q.entries = [] := by
      rw [hasked.asks.entries, if_neg (by omega)]
    have hpre : q.prelogindex = c.leader.commitIndex := by
      rw [← UInt32.toNat_inj, hasked.asks.prelogindex, hm, hcommit]
    have hlast : q.prelogindex + UInt32.ofNat q.entries.length = c.leader.commitIndex := by
      rw [hnil, hpre]
      exact UInt32.add_zero _
    have hall : q.leadercommit = c.leader.commitIndex := by
      rcases htold with heq | heq
      · rw [heq] at hlt
        exact absurd hlt (not_lt.mpr htoPeer)
      · exact heq
    rw [hlast, hall, min_self]
  · rcases htold with heq | heq
    · exact heq
    · rw [heq] at hlt
      exact le_antisymm hbehind (not_lt.mp hlt)

theorem progress_toPeer (h : Serving c) (hputs : puts.Taken) (hp : Progress L n c)
    (hlen : 2 ≤ L.length) (hn : c.next (.toPeer i puts) = some c') : Progress L n c' := by
  obtain ⟨P, P₁, a, hP, _, ha, _, hhears, hlead, hpeers⟩ := toPeer_cases h.wf h.orderly hputs hn
  have hpending : pending (some P₁) = pending (some P) := by
    cases hhears with
    | welcome _ hquestions htoLeader =>
      show (questions P₁.toPeer).length + P₁.toLeader.length = _
      rw [hquestions, htoLeader]
      rfl
    | question q r hasked _ hanswered => rw [pending_of_asked hasked, pending_of_answered hanswered]
  have hinflight := inflight_of_replaced hP hpeers
  refine ⟨by rw [hlead, hp.entries], ?_, ?_, ?_, ?_⟩
  · intro j P' b hP' hb
    rw [hlead] at hb
    rcases peer_of_replaced (hpeers j) hP' with ⟨rfl, rfl⟩ | ⟨_, hold⟩
    · rw [hpending]
      exact hp.ahead j P b hP hb
    · exact hp.ahead j P' b hold hb
  · intro hfull j P' b hP' hb
    rw [hlead] at hb
    rcases peer_of_replaced (hpeers j) hP' with ⟨rfl, rfl⟩ | ⟨_, hold⟩
    · exact hp.full hfull j P b hP hb
    · exact hp.full hfull j P' b hold hb
  · intro hfull
    have hcommits := hp.commits hfull
    rw [hlead]
    omega
  · intro htold
    obtain ⟨hcommit, htolds⟩ := hp.told htold
    rw [hlead]
    refine ⟨hcommit, fun j P' hP' => ?_⟩
    rcases peer_of_replaced (hpeers j) hP' with ⟨rfl, rfl⟩ | ⟨_, hold⟩
    · cases hhears with
      | welcome hserver hquestions _ =>
        rw [hserver, hquestions]
        exact htolds j P hP
      | question q r hasked hq _ =>
        rw [hp.entries] at hasked
        refine Or.inl (told_of_question h hP hasked (hp.full (by omega) j P a hP ha) hcommit ?_ hq)
        rcases htolds j P hP with heq | ⟨q', hq', heq⟩
        · exact Or.inl heq
        · rw [hasked.questions] at hq'
          obtain ⟨rfl, _⟩ := List.cons.inj hq'
          exact Or.inr heq
    · exact htolds j P' hold

/-- Where every follower is counted at index `k`, which is in the log and not committed, the commit
rule commits one entry more. -/
theorem commits_of_full {b : Bool} (hs : s.LogWf) (hterm : s.currentTerm = 0)
    (hall : ∀ id p, s.proxys.find? id = some p → p.matchIndex.toNat = k) (hsome : s.proxys.size ≠ 0)
    (hk : k < s.entries.length) (hlt : s.commitIndex.toNat < k)
    (h : s.changeCommitIndex = .ok (s', b)) :
    s'.commitIndex.toNat = s.commitIndex.toNat + 1 := by
  have hshort := hs.short
  have hsucc : (s.commitIndex + 1).toNat = s.commitIndex.toNat + 1 := UInt.toNat_succ32 (by omega)
  have hcount : s.replicaCount = s.proxys.size := by
    rw [← OrdMap.length_values]
    refine List.countP_eq_length.mpr fun p hp => ?_
    obtain ⟨id, hfind⟩ := OrdMap.mem_values_iff.mp hp
    have hmatch := hall id p hfind
    rw [decide_eq_true_iff, UInt64.le_iff_toNat_le, UInt32.toNat_toUInt64]
    omega
  obtain ⟨x, hx⟩ : ∃ x, s.entries[(s.commitIndex + 1).toNat]? = some x :=
    ⟨_, List.getElem?_eq_getElem (by omega)⟩
  have hmost : s.proxys.size / 2 + 1 ≤ s.replicaCount := by omega
  rw [RaftServer.changeCommitIndex_of_most hmost hx,
    if_pos ((hs.term_eq_zero hx).trans hterm.symm)] at h
  obtain ⟨rfl, _⟩ := Prod.mk.inj (Except.ok.inj h)
  exact hsucc

/-- Where every follower's counter is `k`, every proxy's is. -/
theorem Serving.proxys_of_full (h : Serving c)
    (hfull : ∀ (j : ℕ) (P : Peer) (a : UInt64), c.peers[j]? = some P →
      c.leader.ackedOn j = some a → a.toNat = k) :
    ∀ id p, c.leader.proxys.find? id = some p → p.matchIndex.toNat = k := by
  intro id p hfind
  obtain ⟨fd, _, htied⟩ := h.wf.proxys.proxyTied id p hfind
  obtain ⟨cn, hcn, hid⟩ := RaftServer.tiedTo_eq_some.mp htied
  obtain ⟨P, hP⟩ := h.wf.registered fd cn hcn
  obtain ⟨a, ha, _⟩ := h.stage hP
  obtain ⟨cn', id', p', hcn', _, hid', hfind', rfl⟩ := RaftServer.ackedOn_eq_some.mp ha
  obtain rfl := Option.some.inj (hcn.symm.trans hcn')
  obtain rfl := Option.some.inj (hid.symm.trans hid')
  obtain rfl := Option.some.inj (hfind.symm.trans hfind')
  exact hfull fd P _ hP ha

theorem progress_reply (h : Serving c) (hC : Quiet c (.toLeader i puts)) (hp : Progress L n c)
    (hlen : 2 ≤ L.length) (hn : c.next (.toLeader i puts) = some c') : Progress L n c' := by
  obtain ⟨P, _, _, _, hP, _⟩ := next_toLeader hn
  obtain ⟨r, a, b, ha, hanswered, hb, hpeers⟩ :=
    reply_cases h.wf h.orderly hP (fun q => h.greeted i P q hP) hn
  obtain ⟨k, hs'⟩ := RaftServer.changeCommitIndex_frame hb
  have hframe : c.leader.countReply i r =
      { c.leader with proxys := (c.leader.countReply i r).proxys } :=
    RaftServer.countReply_frame _ _ _
  have hentries : c'.leader.entries = L := by
    rw [hs', hframe]
    exact hp.entries
  have hacked : ∀ j a', c'.leader.ackedOn j = some a' → ∃ a, c.leader.ackedOn j = some a ∧
      a' = if j = i ∧ r.counts = true then a + 1 else a := by
    intro j a' ha'
    rw [hs'] at ha'
    exact RaftServer.ackedOn_countReply h.wf.proxys ha'
  have hlt := h.orderly.lt_length ha
  have hshort := h.wf.log.short
  rw [hp.entries] at hlt hshort hanswered
  have hidle : pending (some { P with toLeader := [] }) = 0 := by
    show (questions P.toPeer).length + 0 = 0
    rw [hanswered.questions]
    rfl
  have hone := pending_of_answered hanswered
  have hinflight := inflight_of_replaced hP hpeers
  have hserving := h.step hC hn
  have hcommit' := hserving.wf.log.commit
  have hmono : c.leader.commitIndex ≤ c'.leader.commitIndex :=
    (RaftServer.LeaderStep.counted r c'.leader b hb).commit_le h.wf.log
  rw [UInt32.le_iff_toNat_le] at hmono
  rw [hentries] at hcommit'
  refine ⟨hentries, ?_, ?_, ?_, ?_⟩
  · intro j P' a' hP' ha'
    obtain ⟨a₀, ha₀, rfl⟩ := hacked j a' ha'
    rcases peer_of_replaced (hpeers j) hP' with ⟨rfl, rfl⟩ | ⟨hji, hold⟩
    · obtain rfl := Option.some.inj (ha.symm.trans ha₀)
      have hahead := hp.ahead j P a hP ha
      rw [hidle]
      split_ifs with hcond
      · rw [UInt.toNat_succ64 (by omega)]
        omega
      · have hlast : ¬ a.toNat + 1 < L.length := fun hlt => hcond ⟨rfl, hanswered.counts.mpr hlt⟩
        omega
    · rw [if_neg fun hand => hji hand.1]
      exact hp.ahead j P' a₀ hold ha₀
  · intro hfull j P' a' hP' ha'
    obtain ⟨a₀, ha₀, rfl⟩ := hacked j a' ha'
    rcases peer_of_replaced (hpeers j) hP' with ⟨rfl, rfl⟩ | ⟨hji, hold⟩
    · obtain rfl := Option.some.inj (ha.symm.trans ha₀)
      have hlast := hp.full hfull j P a hP ha
      rw [if_neg]
      · exact hlast
      · intro hand
        have hmore := hanswered.counts.mp hand.2
        omega
    · rw [if_neg fun hand => hji hand.1]
      exact hp.full hfull j P' a₀ hold ha₀
  · intro hfull
    have hcommits := hp.commits hfull
    by_cases hdone : c.leader.commitIndex.toNat < L.length - 1
    · -- everybody is counted at the last entry
      have hnot : r.counts ≠ true := by
        intro hcounts
        have hmore := hanswered.counts.mp hcounts
        have hlast := hp.full hfull i P a hP ha
        omega
      have hproxys : ∀ id p, (c.leader.countReply i r).proxys.find? id = some p →
          p.matchIndex.toNat = L.length - 1 := by
        intro id p hfind
        rw [RaftServer.countReply_proxys, if_neg fun hand => hnot hand.1] at hfind
        exact h.proxys_of_full (hp.full hfull) id p hfind
      have hsome : (c.leader.countReply i r).proxys.size ≠ 0 := by
        intro hzero
        obtain ⟨_, id, p, _, _, _, hfind, _⟩ :=
          RaftServer.ackedOn_eq_some.mp (ackedOn_of_countReply (i := i) h.wf.proxys ha r)
        rw [OrdMap.size_eq_zero_iff.mp hzero id] at hfind
        cases hfind
      have hsame : (c.leader.countReply i r).commitIndex = c.leader.commitIndex := by rw [hframe]
      have hmore := commits_of_full (h.wf.log.countReply i r)
        (by rw [hframe]; exact h.wf.log.term h.orderly.leads) hproxys hsome
        (by rw [hframe]; show _ < c.leader.entries.length; rw [hp.entries]; omega)
        (by rw [hsame]; exact hdone) hb
      rw [hsame] at hmore
      omega
    · omega
  · intro htold
    obtain ⟨hcommit, htolds⟩ := hp.told htold
    have hsame : c'.leader.commitIndex = c.leader.commitIndex := by
      rw [← UInt32.toNat_inj]
      omega
    rw [hsame]
    refine ⟨hcommit, fun j P' hP' => ?_⟩
    rcases peer_of_replaced (hpeers j) hP' with ⟨rfl, rfl⟩ | ⟨_, hold⟩
    · exact htolds j P hP
    · exact htolds j P' hold

theorem progress_step (h : Serving c) (hne : c.peers ≠ []) (hlen : 2 ≤ L.length)
    (hp : Progress L n c) (hC : Quiet c e) (hn : c.next e = some c') :
    Progress L (n + e.ticks) c' := by
  cases e with
  | join disk addr raftPort nodeID => exact hC.elim
  | toLeader i puts => exact progress_reply h hC hp hlen hn
  | toPeer i puts => exact progress_toPeer h hC hp hlen hn
  | tick => exact progress_tick h hC hne hlen hp hn
  | timeout i => exact hC.elim

theorem length_of_quiet (hC : Quiet c e) (hn : c.next e = some c') :
    c'.peers.length = c.peers.length := by
  apply length_peers_eq
  intro j
  cases e with
  | join disk addr raftPort nodeID => exact hC.elim
  | toLeader i puts =>
    obtain ⟨P, _, _, _, hP, _, _, _, hpeers⟩ := next_toLeader hn
    rw [hpeers]
    split_ifs with hj
    · rw [hj, hP]
      rfl
    · exact Option.isSome_map
  | toPeer i puts =>
    obtain ⟨P, _, _, _, _, hP, _, _, _, hpeers⟩ := next_toPeer hn
    rw [hpeers]
    split_ifs with hj
    · rw [hj, hP]
      rfl
    · rfl
  | tick =>
    obtain ⟨_, _, _, hpeers⟩ := next_tick hn
    rw [hpeers]
    exact Option.isSome_map
  | timeout i => exact hC.elim

/-! ## Convergence -/

/-- All nodes have the log `L`, and have committed it. -/
def Agreed (L : List Entry) (c : Cluster) : Prop :=
  ∀ A ∈ c.nodes, A.entries = L ∧ A.commitIndex.toNat + 1 = L.length

theorem agreed_of_progress (h : Serving c) (hrest : c.AtRest) (hlen : 2 ≤ L.length)
    (hp : Progress L n c) (hn : 2 * L.length ≤ n + 1) : c.Agreed L := by
  obtain ⟨hcommit, htold⟩ := hp.told hn
  intro A hA
  rcases List.mem_cons.mp hA with rfl | hA
  · exact ⟨hp.entries, by omega⟩
  · obtain ⟨P, hP, rfl⟩ := List.mem_map.mp hA
    obtain ⟨j, hj⟩ := List.mem_iff_getElem?.mp hP
    obtain ⟨htoPeer, htoLeader⟩ := hrest.peer hj
    obtain ⟨a, ha, hfollows⟩ := h.orderly.at_rest hj htoPeer htoLeader
    have hlast := hp.full (by omega) j P a hj ha
    constructor
    · have hall : heldUpTo a.toNat = L.length := by
        rw [heldUpTo_of_pos (by omega)]
        omega
      rw [hfollows.entries, hp.entries, hall, List.take_length]
    · rcases htold j P hj with heq | ⟨q, hq, _⟩
      · rw [heq]
        omega
      · rw [htoPeer] at hq
        cases hq

/-- **Convergence.** Take a state of a paced run in which nothing is on its way and the start node's
log has two entries at least, and let nobody join any more. However the messages are handled, when
the timer has expired twice as often as the log has entries, less once, and nothing is on its way,
all nodes have the start node's log and have committed it to the end. And the timer can expire as
often as one likes, since all that is sent is answered in between. -/
theorem converges (h : system.Reachable Paced c) (hrest : c.AtRest) (hne : c.peers ≠ [])
    (hlen : 2 ≤ c.leader.entries.length) :
    (∀ es t, system.Allowed Quiet c es → system.run c es = some t → t.AtRest →
      2 * c.leader.entries.length ≤ ticks es + 1 → t.Agreed c.leader.entries) ∧
    ∀ n, ∃ es t, system.Allowed Quiet c es ∧ system.run c es = some t ∧ t.AtRest ∧
      ticks es = n := by
  have hserving := Serving.of_rest h hrest
  refine ⟨fun es t hC hrun hrest' hticks => ?_, fun n => exists_rounds hserving hrest n⟩
  have hstart : Progress c.leader.entries 0 c := by
    refine ⟨rfl, fun j P a _ _ => ?_, fun hle => ?_, fun hle => ?_, fun hle => ?_⟩
    · rw [Nat.zero_min]
      exact Nat.zero_le _
    · omega
    · omega
    · omega
  have htimed := System.timed_of_run
    (I := fun n t => Serving t ∧ t.peers ≠ [] ∧ Progress c.leader.entries n t) (w := Event.ticks) ?_
    es ⟨hserving, hne, hstart⟩ hC hrun
  · obtain ⟨ht, _, hprogress⟩ := htimed
    rw [Nat.zero_add] at hprogress
    exact agreed_of_progress ht hrest' hlen hprogress hticks
  · rintro n s e s' ⟨hs, hne, hp⟩ hC hn
    refine ⟨hs.step hC hn, ?_, progress_step hs hne hlen hp hC hn⟩
    rw [← List.length_pos_iff] at hne ⊢
    rw [length_of_quiet hC hn]
    exact hne

/-- Two followers, of which one has two of the three entries: after the timer has expired five
times, all have committed all three. -/
theorem converges_two : ∃ c t : Cluster, c.peers.length = 2 ∧ c.leader.entries.length = 3 ∧
    c.AtRest ∧ (∃ P ∈ c.peers, P.server.entries.length = 2) ∧
    (∃ es, system.run c es = some t) ∧ t.Agreed c.leader.entries := by
  obtain ⟨c, hc, htest⟩ := System.exists_of_run (C := Paced)
    [joins 2, leaderReads 0, peerReads 0, peerReads 0, leaderReads 0, joins 3, leaderReads 1,
      peerReads 1, peerReads 0, peerReads 1, leaderReads 1, leaderReads 0]
    (fun c => decide (c.peers.length = 2 ∧ c.leader.entries.length = 3 ∧ c.AtRest ∧
      ∃ P ∈ c.peers, P.server.entries.length = 2))
    reachable_started (by decide +kernel) (by decide +kernel)
  obtain ⟨hpeers, hlen, hrest, hshort⟩ := of_decide_eq_true htest
  have hne : c.peers ≠ [] := List.length_pos_iff.mp (by omega)
  obtain ⟨hagreed, hrounds⟩ := converges hc hrest hne (by omega)
  obtain ⟨es, t, hC, hrun, hrest', hticks⟩ := hrounds 5
  exact ⟨c, t, hpeers, hlen, hrest, hshort, ⟨es, hrun⟩, hagreed es t hC hrun hrest' (by omega)⟩

end Cluster
end NanoRaft
