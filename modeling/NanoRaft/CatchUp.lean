import NanoRaft.FollowerLog
import NanoRaft.LeaderInvariant

/-!
# Catching up

A leader and one follower, with nothing else going on: a round is one `SendAppendEntries`
on their connection, the follower's `AppendEntriesQ` and the leader's `AppendEntriesR`.
`catches_up` says from which logs and which `NextIndex()` the rounds end with equal logs.

A rejection is meant to lower `NextIndex()`, but the branch is empty, so a rejected round
repeats itself, and so does a heartbeat.
-/

namespace NanoRaft

/-- The two nodes of an exchange. -/
structure Link where
  leader : RaftServer
  follower : RaftServer

namespace RaftServer

/-- The proxy a connection is tied to. -/
def tiedProxy (s : RaftServer) (fd : ℕ) : Option RaftProxy := (s.tiedTo fd).bind s.proxys.find?

end RaftServer

namespace Link

/-- One round on the leader's connection `fd`, with the follower's reply. -/
def round (puts : Puts) (fd : ℕ) (x : Link) : Result (Link × Option AppendEntriesR) := do
  match ← x.leader.connSendAppendEntries fd with
  | (_, .appendentries_q q) :: _ => do
    let (follower, r) ← x.follower.appendEntriesQ puts q
    let leader ← x.leader.appendEntriesR puts fd r
    pure (⟨leader, follower⟩, some r)
  | _ => pure (x, none)

/-- How a round should move `NextIndex()`: down to 1 at the least when it is rejected, and
up when entries were accepted. -/
def Moves (fd : ℕ) (x y : Link) (r : AppendEntriesR) : Prop :=
  ∀ p p', x.leader.tiedProxy fd = some p → y.leader.tiedProxy fd = some p' →
    (r.success = false → p'.nextIndex < p.nextIndex ∧ 1 ≤ p'.nextIndex) ∧
    (r.success = true → r.isheartbeat = false → p.nextIndex < p'.nextIndex)

/-- After `k` rounds, each of which moves `NextIndex()` as it should, the follower's log is
`L`. -/
def Reaches (fd : ℕ) (L : List Entry) : (puts : ℕ → Puts) → ℕ → Link → Prop
  | _, 0, x => x.follower.entries = L
  | puts, k + 1, x => ∃ y r, x.round (puts 0) fd = .ok (y, some r) ∧ Moves fd x y r ∧
      Reaches fd L (fun i => puts (i + 1)) k y

/-- An exchange that can begin: the connection is tied to the proxy `p`, every proxy's next
index lies in the log, one above its match index, the terms are equal, and the follower's
deprecated log is empty. A deque has less than `2 ^ 64` elements. -/
structure Ready (fd : ℕ) (p : RaftProxy) (x : Link) : Prop where
  proxy : x.leader.tiedProxy fd = some p
  counters : ∀ q ∈ x.leader.proxys.values, q.nextIndex = q.matchIndex + 1 ∧
    1 ≤ q.nextIndex.toNat ∧ q.nextIndex.toNat ≤ x.leader.entries.length
  size : x.leader.entries.length < 2 ^ 64
  terms : x.leader.currentTerm = x.follower.currentTerm
  logs : x.follower.logs = []

/-! ## What a leader sends in a row -/

/-- The entries of the message at next index `m`: the index is cut to 32 bits, and entry 0
goes along with entry 1. -/
def sentAt (L : List Entry) (m : ℕ) : List Entry :=
  (if m = 1 then L.take 1 else []) ++ L[m % 2 ^ 32]?.toList

/-- What a follower stores of the messages at the next indices `m` to `m + j - 1`. -/
def storedFrom (term : UInt32) (L : List Entry) : (puts : ℕ → Puts) → (m j : ℕ) → List Entry
  | _, _, 0 => []
  | puts, m, j + 1 => RaftServer.stored (puts 0).entry term (sentAt L m) ++
      storedFrom term L (fun i => puts (i + 1)) (m + 1) j

/-- A follower whose log is the first `held` entries of `L` takes the message at next index
`m`: it builds on index 0 or on an entry the follower has, whose term is not all ones, and
the index looked up in the deprecated log is not the last 32-bit number. -/
def Takes (L : List Entry) (held m : ℕ) : Prop :=
  ((m - 1) % 2 ^ 32 = 0 ∨ ((m - 1) % 2 ^ 32 < held ∧
    ∀ e, L[(m - 1) % 2 ^ 32]? = some e → e.term ≠ 0xFFFFFFFF)) ∧
  m % 2 ^ 32 ≠ 2 ^ 32 - 1

/-- The log `L` continues `F` with exactly what is stored of the messages at some `j` next
indices from `n` on, each of which is taken. -/
def Continues (puts : ℕ → Puts) (term : UInt32) (L F : List Entry) (n : ℕ) : Prop :=
  ∃ j, n + j ≤ L.length ∧ L = F ++ storedFrom term L puts n j ∧
    ∀ i < j, Takes L (F ++ storedFrom term L puts n i).length (n + i)

end Link

namespace RaftServer

/-! ## Half rounds that come back -/

/-- The message for a proxy whose next index lies in the log. -/
theorem buildAppendEntries_of_le {s : RaftServer} {p : RaftProxy} (hpos : 1 ≤ p.nextIndex.toNat)
    (hle : p.nextIndex.toNat ≤ s.entries.length) :
    ∃ q, s.buildAppendEntries p = .ok q ∧
      q.prelogindex.toNat = (p.nextIndex.toNat - 1) % 2 ^ 32 ∧
      (∀ e, s.entries[(p.nextIndex.toNat - 1) % 2 ^ 32]? = some e → e.term ≠ 0xFFFFFFFF →
        q.prelogterm = e.term) ∧
      q.entries = if p.nextIndex.toNat < s.entries.length
        then Link.sentAt s.entries p.nextIndex.toNat else [] := by
  have hone : (1 : UInt64) ≤ p.nextIndex := UInt64.le_iff_toNat_le.mpr hpos
  have hsub : (p.nextIndex - 1).toNat = p.nextIndex.toNat - 1 := UInt64.toNat_sub_of_le _ _ hone
  have hprev : (p.nextIndex - 1).toUInt32.toNat = (p.nextIndex.toNat - 1) % 2 ^ 32 := by
    rw [UInt64.toNat_toUInt32, hsub]
  have hfirst : p.nextIndex - 1 = 0 ↔ p.nextIndex.toNat = 1 := by
    rw [← UInt64.toNat_inj, hsub]
    show p.nextIndex.toNat - 1 = 0 ↔ _
    omega
  obtain ⟨e, he⟩ : ∃ e, s.entries[(p.nextIndex.toNat - 1) % 2 ^ 32]? = some e :=
    ⟨_, List.getElem?_eq_getElem (by omega)⟩
  have hterm : ∀ e', s.entries[(p.nextIndex.toNat - 1) % 2 ^ 32]? = some e' →
      e'.term ≠ 0xFFFFFFFF →
      (if e.term.toInt32 ≠ -1 then e.term.toInt32.toUInt32 else 0) = e'.term := by
    intro e' he' hne
    obtain rfl := Option.some.inj (he.symm.trans he')
    rw [if_pos fun hneg => hne (UInt.toInt32_eq_neg_one.mp hneg), UInt32.toUInt32_toInt32]
  unfold buildAppendEntries
  rw [← hprev] at he
  rw [entryTermByIndex_of_getElem? he, Except.ok_bind, lastEntryIndex_eq]
  by_cases hlt : p.nextIndex.toNat < s.entries.length
  · obtain ⟨last, hlast⟩ : ∃ last, s.entries[p.nextIndex.toNat % 2 ^ 32]? = some last :=
      ⟨_, List.getElem?_eq_getElem (lt_of_le_of_lt (Nat.mod_le _ _) hlt)⟩
    have hlast' : s.entryByIndex p.nextIndex.toUInt32 = .ok last := by
      rw [entryByIndex_eq_ok, UInt64.toNat_toUInt32, hlast]
    rw [if_pos (by omega), if_pos hlt, Link.sentAt, hlast]
    by_cases hn : p.nextIndex.toNat = 1
    · obtain ⟨first, hzero⟩ : ∃ first, s.entries[0]? = some first :=
        ⟨_, List.getElem?_eq_getElem (by omega)⟩
      have hzero' : s.entryByIndex 0 = .ok first := entryByIndex_eq_ok.mpr hzero
      rw [if_pos (hfirst.mpr hn), if_pos hn, hzero', hlast']
      refine ⟨_, rfl, hprev, hterm, ?_⟩
      rw [List.take_one, List.head?_eq_getElem?, hzero]
      rfl
    · rw [if_neg fun hz => hn (hfirst.mp hz), if_neg hn, hlast']
      exact ⟨_, rfl, hprev, hterm, rfl⟩
  · rw [if_neg (by omega), if_neg hlt]
    exact ⟨_, rfl, hprev, hterm, rfl⟩

/-- An accepted message with entries has passed the lookup in the deprecated log. -/
theorem index_of_accepted {puts : Puts} {s s' : RaftServer} {q : AppendEntriesQ}
    {r : AppendEntriesR} (hlogs : s.logs = []) (hne : q.entries ≠ [])
    (h : s.appendEntriesQ puts q = .ok (s', r)) (hr : r.success = true) :
    (q.prelogindex + 1).toNat ≠ 2 ^ 32 - 1 := by
  rcases appendEntriesQ_accepted h hr with ⟨hnil, _⟩ | ⟨_, s1, hs1, _⟩
  · exact absurd hnil hne
  · intro hindex
    obtain ⟨⟨s2, rest⟩, hscan, _⟩ := Except.bind_eq_ok.mp hs1
    cases hes : q.entries with
    | nil => exact hne hes
    | cons e es =>
      rw [hes] at hscan
      obtain ⟨t, ht, _⟩ := Except.bind_eq_ok.mp hscan
      have hzero : q.prelogindex + 1 + UInt32.ofNat 0 = q.prelogindex + 1 := by simp
      rw [hzero, logTermByIndex, show (s.adoptTerm q).logs = [] from hlogs, termByIndex,
        if_neg ?_] at ht
      · cases ht
      · rw [UInt32.toNat_add]
        show ¬ 0 < ((q.prelogindex + 1).toNat + 1) % 2 ^ 32
        omega

/-- The commit rule comes back if no proxy is counted beyond the log. -/
theorem changeCommitIndex_of_counters {s : RaftServer}
    (h : ∀ p ∈ s.proxys.values, p.matchIndex.toNat < s.entries.length) :
    ∃ s' b, s.changeCommitIndex = .ok (s', b) := by
  unfold changeCommitIndex
  by_cases hmost : s.proxys.size / 2 + 1 ≤ s.replicaCount
  · -- somebody has the index
    have hpos : 0 < s.replicaCount := by omega
    obtain ⟨p, hp, hle⟩ := List.countP_pos_iff.mp hpos
    have hle' := UInt64.le_iff_toNat_le.mp (of_decide_eq_true hle)
    rw [UInt32.toNat_toUInt64] at hle'
    obtain ⟨e, he⟩ : ∃ e, s.entries[(s.commitIndex + 1).toNat]? = some e :=
      ⟨_, List.getElem?_eq_getElem (lt_of_le_of_lt hle' (h p hp))⟩
    rw [if_pos hmost, he]
    by_cases hterm : e.term = s.currentTerm
    · exact ⟨_, _, if_pos hterm⟩
    · exact ⟨_, _, if_neg hterm⟩
  · exact ⟨_, _, if_neg hmost⟩

end RaftServer

/-- The proxy after a reply that counts. -/
def RaftProxy.counted (p : RaftProxy) : RaftProxy :=
  { p with matchIndex := p.matchIndex + 1, nextIndex := p.nextIndex + 1 }

namespace RaftServer

/-- A reply that counts moves the tied proxy, and no other. -/
theorem countReply_spec {s : RaftServer} {fd : ℕ} {p : RaftProxy} (htied : s.tiedProxy fd = some p)
    (r : AppendEntriesR) :
    (s.countReply fd r).tiedProxy fd = some (if r.counts then p.counted else p) ∧
    ∀ p' ∈ (s.countReply fd r).proxys.values,
      p' ∈ s.proxys.values ∨ (r.counts = true ∧ p' = p.counted) := by
  obtain ⟨dwID, hid, hp⟩ := Option.bind_eq_some_iff.mp htied
  refine ⟨?_, fun p' hp' => ?_⟩
  · rw [tiedProxy, countReply_tiedTo, hid, Option.bind_some, countReply_proxys, hid, hp]
    cases r.counts with
    | true => rw [if_pos ⟨rfl, rfl⟩, if_pos rfl, Option.map_some, RaftProxy.counted]
    | false => rw [if_neg (by simp), if_neg (by simp)]
  · obtain ⟨id, hfind⟩ := OrdMap.mem_values_iff.mp hp'
    rw [countReply_proxys] at hfind
    by_cases hcounts : r.counts = true ∧ s.tiedTo fd = some id
    · obtain rfl := Option.some.inj (hid.symm.trans hcounts.2)
      rw [if_pos hcounts, hp, Option.map_some] at hfind
      exact Or.inr ⟨hcounts.1, (Option.some.inj hfind).symm⟩
    · rw [if_neg hcounts] at hfind
      exact Or.inl (OrdMap.mem_values_iff.mpr ⟨id, hfind⟩)

/-- A reply in the leader's own term is counted, and nothing else but the commit index
moves. -/
theorem appendEntriesR_spec {puts : Puts} {s s' : RaftServer} {fd : ℕ} {r : AppendEntriesR}
    (hterm : r.term = s.currentTerm) (h : s.appendEntriesR puts fd r = .ok s') :
    ∃ k, s' = { s with proxys := (s.countReply fd r).proxys, commitIndex := k } := by
  rcases appendEntriesR_cases h with ⟨hlt, _⟩ | ⟨_, b, hb⟩
  · exact absurd hlt (not_lt.mpr (le_of_eq hterm))
  · obtain ⟨k, rfl⟩ := changeCommitIndex_frame hb
    refine ⟨k, ?_⟩
    rw [countReply_frame]

end RaftServer

namespace Link

variable {fd : ℕ} {p : RaftProxy} {x y : Link} {puts : Puts}

/-- In the words of the follower's checks. -/
theorem takes_iff {L : List Entry} {n : ℕ} {s : RaftServer} {q : AppendEntriesQ}
    (hpos : 1 ≤ n) (hpre : s.entries <+: L) (hprev : q.prelogindex.toNat = (n - 1) % 2 ^ 32)
    (hterm : ∀ e, L[(n - 1) % 2 ^ 32]? = some e → e.term ≠ 0xFFFFFFFF → q.prelogterm = e.term) :
    Takes L s.entries.length n ↔
      s.PrevMatches q ∧ (q.prelogindex + 1).toNat ≠ 2 ^ 32 - 1 := by
  have hindex : (q.prelogindex + 1).toNat = n % 2 ^ 32 := by
    rw [UInt32.toNat_add, hprev]
    show ((n - 1) % 2 ^ 32 + 1) % 2 ^ 32 = _
    omega
  have hzero : 0 < q.prelogindex ↔ (n - 1) % 2 ^ 32 ≠ 0 := by
    rw [UInt32.lt_iff_toNat_lt, hprev]
    show 0 < _ ↔ _
    omega
  rw [Takes, hindex, RaftServer.PrevMatches, hzero, hprev]
  refine and_congr_left fun _ => ⟨fun htakes hne => ?_, fun hmatch => ?_⟩
  · rcases htakes with heq | ⟨hheld, hones⟩
    · exact absurd heq hne
    · -- the follower's entry is the leader's
      have he := List.getElem?_eq_getElem hheld
      have hL := Log.getElem?_of_isPrefix hpre he
      exact ⟨_, he, (hterm _ hL (hones _ hL)).symm, hones _ hL⟩
  · by_cases heq : (n - 1) % 2 ^ 32 = 0
    · exact Or.inl heq
    · obtain ⟨e, he, _, hones⟩ := hmatch heq
      refine Or.inr ⟨(List.getElem?_eq_some_iff.mp he).1, fun e' he' => ?_⟩
      rw [← Option.some.inj ((Log.getElem?_of_isPrefix hpre he).symm.trans he')]
      exact hones

/-- The message of a round. -/
structure Carries (x : Link) (p : RaftProxy) (q : AppendEntriesQ) : Prop where
  term : q.term = x.leader.currentTerm
  prelogindex : q.prelogindex.toNat = (p.nextIndex.toNat - 1) % 2 ^ 32
  prelogterm : ∀ e, x.leader.entries[(p.nextIndex.toNat - 1) % 2 ^ 32]? = some e →
    e.term ≠ 0xFFFFFFFF → q.prelogterm = e.term
  entries : q.entries = if p.nextIndex.toNat < x.leader.entries.length
    then sentAt x.leader.entries p.nextIndex.toNat else []

theorem Ready.counter (h : Ready fd p x) : p.nextIndex = p.matchIndex + 1 ∧
    1 ≤ p.nextIndex.toNat ∧ p.nextIndex.toNat ≤ x.leader.entries.length := by
  obtain ⟨dwID, _, hp⟩ := Option.bind_eq_some_iff.mp h.proxy
  exact h.counters p (OrdMap.mem_values_iff.mpr ⟨dwID, hp⟩)

theorem connSend_of_ready (h : Ready fd p x) : ∃ q, Carries x p q ∧
    x.leader.connSendAppendEntries fd = .ok [(fd, .appendentries_q q)] := by
  obtain ⟨dwID, hid, hp⟩ := Option.bind_eq_some_iff.mp h.proxy
  obtain ⟨q, hq, hprev, hprevterm, hentries⟩ :=
    RaftServer.buildAppendEntries_of_le h.counter.2.1 h.counter.2.2
  refine ⟨q, ⟨(RaftServer.buildAppendEntries_cases hq).1, hprev, hprevterm, hentries⟩, ?_⟩
  have hid' : (x.leader.conns.find? fd).bind Conn.proxy = some dwID := hid
  rw [RaftServer.connSendAppendEntries, hid']
  dsimp only
  rw [hp]
  dsimp only
  rw [hq]
  rfl

/-- A round, handler by handler. -/
theorem round_eq_ok {o : Option AppendEntriesR} (hready : Ready fd p x)
    (h : x.round puts fd = .ok (y, o)) : ∃ q r, Carries x p q ∧
      x.follower.appendEntriesQ puts q = .ok (y.follower, r) ∧
      x.leader.appendEntriesR puts fd r = .ok y.leader ∧ o = some r := by
  obtain ⟨q, hq, hsend⟩ := connSend_of_ready hready
  rw [round, hsend, Except.ok_bind] at h
  dsimp only at h
  obtain ⟨⟨follower, r⟩, hfollower, h⟩ := Except.bind_eq_ok.mp h
  obtain ⟨leader, hleader, h⟩ := Except.bind_eq_ok.mp h
  rw [Except.pure_eq_ok, Prod.mk.injEq] at h
  obtain ⟨rfl, rfl⟩ := h
  exact ⟨q, r, hq, hfollower, hleader, rfl⟩

/-- The terms stay equal. -/
theorem term_of_same {s s' : RaftServer} {q : AppendEntriesQ} {r : AppendEntriesR}
    (hterm : s.currentTerm = q.term) (h : s.appendEntriesQ puts q = .ok (s', r)) :
    r.term = q.term ∧ s'.currentTerm = q.term := by
  rw [(RaftServer.appendEntriesQ_reply h).1, RaftServer.appendEntriesQ_currentTerm h, hterm,
    max_self]
  exact ⟨rfl, rfl⟩

/-- The next index of a proxy that is counted below the end of the log. -/
theorem toNat_counted (h : p.nextIndex.toNat < 2 ^ 64 - 1) :
    p.counted.nextIndex.toNat = p.nextIndex.toNat + 1 :=
  UInt.toNat_succ64 (by omega)

/-- Nothing is stored when a message is rejected or carries nothing. -/
theorem entries_of_not_counts {s s' : RaftServer} {q : AppendEntriesQ} {r : AppendEntriesR}
    (hlogs : s.logs = []) (h : s.appendEntriesQ puts q = .ok (s', r)) (hcounts : r.counts = false) :
    s'.entries = s.entries := by
  rw [(RaftServer.appendEntriesQ_of_logs hlogs h).1]
  by_cases hsucc : r.success = true
  · have hacc := (RaftServer.appendEntriesQ_success h).mp hsucc
    have hnil : q.entries = [] := by
      by_contra hne
      rw [(RaftServer.counts_iff h).mpr ⟨hacc, hne⟩] at hcounts
      cases hcounts
    rw [if_pos hsucc, hnil]
    exact List.append_nil _
  · rw [if_neg hsucc, List.append_nil]

/-- After the reply the leader's log and term are as they were, and the proxy has been counted
if the reply counts, which is to say below the end of the log. -/
theorem ready_reply {q : AppendEntriesQ} {r : AppendEntriesR} (hready : Ready fd p x)
    (hq : Carries x p q) (hfollower : x.follower.appendEntriesQ puts q = .ok (y.follower, r))
    (hleader : x.leader.appendEntriesR puts fd r = .ok y.leader)
    (hlt : r.counts = true → p.nextIndex.toNat < x.leader.entries.length) :
    Ready fd (if r.counts then p.counted else p) y ∧ y.leader.entries = x.leader.entries ∧
      y.leader.currentTerm = x.leader.currentTerm := by
  obtain ⟨hcount, hpos, _⟩ := hready.counter
  obtain ⟨hrterm, hfterm⟩ := term_of_same (hready.terms.symm.trans hq.term.symm) hfollower
  obtain ⟨_, hlogs⟩ := RaftServer.appendEntriesQ_of_logs hready.logs hfollower
  obtain ⟨k, hserver⟩ := RaftServer.appendEntriesR_spec (hrterm.trans hq.term) hleader
  obtain ⟨htied, hvalues⟩ := RaftServer.countReply_spec hready.proxy r
  have hsame : y.leader.entries = x.leader.entries := by rw [hserver]
  have hlterm : y.leader.currentTerm = x.leader.currentTerm := by rw [hserver]
  have hproxys : y.leader.proxys = (x.leader.countReply fd r).proxys := by rw [hserver]
  have hconns : y.leader.conns = (x.leader.countReply fd r).conns := by
    rw [hserver, RaftServer.countReply_frame]
  have hy : y.leader.tiedProxy fd = (x.leader.countReply fd r).tiedProxy fd := by
    rw [RaftServer.tiedProxy, RaftServer.tiedTo, hconns, hproxys]
    rfl
  rw [← hy] at htied
  rw [← hproxys] at hvalues
  have hsize := hready.size
  refine ⟨⟨htied, fun p' hp' => ?_, by rw [hsame]; exact hsize, ?_, hlogs⟩, hsame, hlterm⟩
  · rw [hsame]
    rcases hvalues p' hp' with hold | ⟨hcounts, rfl⟩
    · exact hready.counters p' hold
    · have hbelow := hlt hcounts
      have hnext := toNat_counted (p := p) (by omega)
      refine ⟨?_, by omega, by omega⟩
      show p.nextIndex + 1 = p.matchIndex + 1 + 1
      rw [hcount]
  · rw [hlterm, hfterm, hq.term]

/-- **One round.** Either nothing has moved, or the follower took the message at the next
index and both nodes are as that message leaves them. -/
theorem round_cases {o : Option AppendEntriesR} (hready : Ready fd p x)
    (h : x.round puts fd = .ok (y, o)) :
    ∃ p', Ready fd p' y ∧ y.leader.entries = x.leader.entries ∧
      y.leader.currentTerm = x.leader.currentTerm ∧
      ((y.follower.entries = x.follower.entries ∧ p'.nextIndex = p.nextIndex ∧
        ∀ r, o = some r → r.counts = false) ∨
      (p'.nextIndex.toNat = p.nextIndex.toNat + 1 ∧
        p.nextIndex.toNat < x.leader.entries.length ∧
        (x.follower.entries <+: x.leader.entries →
          Takes x.leader.entries x.follower.entries.length p.nextIndex.toNat) ∧
        y.follower.entries = x.follower.entries ++ RaftServer.stored puts.entry
          x.leader.currentTerm (sentAt x.leader.entries p.nextIndex.toNat))) := by
  obtain ⟨q, r, hq, hfollower, hleader, rfl⟩ := round_eq_ok hready h
  -- a reply that counts answers entries, so the next index was not the end of the log
  have hlt : r.counts = true → p.nextIndex.toNat < x.leader.entries.length := by
    intro hcounts
    by_contra hge
    exact ((RaftServer.counts_iff hfollower).mp hcounts).2 (hq.entries.trans (if_neg hge))
  obtain ⟨hready', hsame, hlterm⟩ := ready_reply hready hq hfollower hleader hlt
  cases hcounts : r.counts with
  | true =>
    obtain ⟨hacc, hne⟩ := (RaftServer.counts_iff hfollower).mp hcounts
    have hsucc : r.success = true := (RaftServer.appendEntriesQ_success hfollower).mpr hacc
    have hlt' := hlt hcounts
    have hsize := hready.size
    rw [if_pos hcounts] at hready'
    refine ⟨p.counted, hready', hsame, hlterm,
      Or.inr ⟨toNat_counted (by omega), hlt', fun hpre => ?_, ?_⟩⟩
    · rw [takes_iff hready.counter.2.1 hpre hq.prelogindex hq.prelogterm]
      exact ⟨hacc.prev, RaftServer.index_of_accepted hready.logs hne hfollower hsucc⟩
    · rw [(RaftServer.appendEntriesQ_of_logs hready.logs hfollower).1, if_pos hsucc, hq.term,
        hq.entries, if_pos hlt']
  | false =>
    rw [if_neg (by simp [hcounts])] at hready'
    refine ⟨p, hready', hsame, hlterm,
      Or.inl ⟨entries_of_not_counts hready.logs hfollower hcounts, rfl, fun r' hr' => ?_⟩⟩
    rw [← Option.some.inj hr']
    exact hcounts

/-- A message that is taken is acknowledged as such. -/
theorem round_of_takes (puts : Puts) (hready : Ready fd p x)
    (hpre : x.follower.entries <+: x.leader.entries)
    (hlt : p.nextIndex.toNat < x.leader.entries.length)
    (htakes : Takes x.leader.entries x.follower.entries.length p.nextIndex.toNat) :
    ∃ y r, x.round puts fd = .ok (y, some r) ∧ r.counts = true := by
  obtain ⟨q, hq, hsend⟩ := connSend_of_ready hready
  obtain ⟨hcount, hpos, _⟩ := hready.counter
  have hterm : x.follower.currentTerm = q.term := hready.terms.symm.trans hq.term.symm
  obtain ⟨hprev, hindex⟩ := (takes_iff hpos hpre hq.prelogindex hq.prelogterm).mp htakes
  obtain ⟨follower, r, hfollower⟩ :=
    RaftServer.appendEntriesQ_of_prevMatches hterm.le (fun hlt => absurd hterm (ne_of_lt hlt))
      hready.logs hprev hindex
  obtain ⟨hrterm, _⟩ := term_of_same hterm hfollower
  -- the new counters are not beyond the log
  have hcounters : ∀ p' ∈ (x.leader.countReply fd r).proxys.values,
      p'.matchIndex.toNat < (x.leader.countReply fd r).entries.length := by
    rw [show (x.leader.countReply fd r).entries = x.leader.entries by
      rw [RaftServer.countReply_frame]]
    intro p' hp'
    rcases (RaftServer.countReply_spec hready.proxy r).2 p' hp' with hold | ⟨_, rfl⟩
    · obtain ⟨heq, hone, hle⟩ := hready.counters p' hold
      have hm := p'.matchIndex.toNat_lt
      rw [heq, UInt64.toNat_add, show (1 : UInt64).toNat = 1 from rfl] at hone hle
      omega
    · show (p.matchIndex + 1).toNat < _
      rw [← hcount]
      exact hlt
  obtain ⟨leader, b, hcommit⟩ := RaftServer.changeCommitIndex_of_counters hcounters
  have hne : q.entries ≠ [] := by
    have hget := List.getElem?_eq_getElem (lt_of_le_of_lt (Nat.mod_le p.nextIndex.toNat (2 ^ 32)) hlt)
    rw [hq.entries, if_pos hlt, sentAt, hget]
    exact List.append_ne_nil_of_right_ne_nil _ (List.cons_ne_nil _ _)
  have hcounts := (RaftServer.counts_iff hfollower).mpr ⟨⟨le_of_eq hterm, hprev⟩, hne⟩
  refine ⟨⟨leader, follower⟩, r, ?_, hcounts⟩
  rw [round, hsend, Except.ok_bind]
  dsimp only
  rw [hfollower, Except.ok_bind]
  dsimp only
  rw [RaftServer.appendEntriesR, if_neg (not_lt.mpr (le_of_eq (hrterm.trans hq.term))), hcommit]
  rfl

/-! ## All rounds -/

/-- Rounds that end with the leader's log have sent its continuation. -/
theorem continues_of_reaches {puts : ℕ → Puts} {k : ℕ} {L : List Entry} (hready : Ready fd p x)
    (hL : x.leader.entries = L) (h : Reaches fd L puts k x) :
    Continues puts x.leader.currentTerm L x.follower.entries p.nextIndex.toNat := by
  induction k generalizing x p puts with
  | zero =>
    have hF : x.follower.entries = L := h
    refine ⟨0, ?_, ?_, fun i hi => absurd hi (Nat.not_lt_zero i)⟩
    · rw [← hL]
      exact hready.counter.2.2
    · rw [hF]
      exact (List.append_nil L).symm
  | succ k ih =>
    obtain ⟨y, r, hround, _, hrest⟩ := h
    obtain ⟨p', hready', hsame, hterm, hcase⟩ := round_cases hready hround
    obtain ⟨j, hj, hlog, hall⟩ := ih hready' (hsame.trans hL) hrest
    rw [hterm] at hlog hall
    rcases hcase with ⟨hF, hn, hnot⟩ | ⟨hn, hlt, htakes, hF⟩
    · rw [hF, hn] at hlog hall
      rw [hn] at hj
      cases j with
      | zero => exact ⟨0, hj, hlog, fun i hi => absurd hi (Nat.not_lt_zero i)⟩
      | succ j =>
        -- a message that is taken would have moved something in this round already
        have hfirst := hall 0 (Nat.succ_pos j)
        rw [storedFrom, List.append_nil, ← hL] at hfirst
        have hpre : x.follower.entries <+: x.leader.entries := by
          rw [hL]
          exact ⟨_, hlog.symm⟩
        obtain ⟨y', r', hround', hcounts⟩ :=
          round_of_takes (puts 0) hready hpre (by rw [hL]; omega) hfirst
        rw [hround, Except.ok.injEq, Prod.mk.injEq] at hround'
        rw [hnot r' hround'.2] at hcounts
        cases hcounts
    · -- one more message in front
      rw [hL] at htakes hF hlt
      rw [hn] at hj hlog hall
      rw [hF, List.append_assoc] at hlog
      refine ⟨j + 1, by omega, hlog, fun i hi => ?_⟩
      cases i with
      | zero =>
        rw [storedFrom, List.append_nil]
        exact htakes ⟨_, hlog.symm⟩
      | succ i =>
        have hi' := hall i (by omega)
        rw [hF, List.append_assoc] at hi'
        rw [storedFrom, show p.nextIndex.toNat + (i + 1) = p.nextIndex.toNat + 1 + i by omega]
        exact hi'

/-- If the leader is to send the continuation, the rounds do so. -/
theorem reaches_of_continues {puts : ℕ → Puts} {j : ℕ} {L : List Entry} (hready : Ready fd p x)
    (hL : x.leader.entries = L) (hj : p.nextIndex.toNat + j ≤ L.length)
    (hlog : L = x.follower.entries ++
      storedFrom x.leader.currentTerm L puts p.nextIndex.toNat j)
    (hall : ∀ i < j, Takes L (x.follower.entries ++ storedFrom x.leader.currentTerm L puts
      p.nextIndex.toNat i).length (p.nextIndex.toNat + i)) :
    ∃ k, Reaches fd L puts k x := by
  induction j generalizing x p puts with
  | zero =>
    refine ⟨0, ?_⟩
    rw [storedFrom] at hlog
    exact (hlog.trans (List.append_nil _)).symm
  | succ j ih =>
    have hfirst := hall 0 (Nat.succ_pos j)
    rw [storedFrom, List.append_nil, ← hL] at hfirst
    have hpre : x.follower.entries <+: x.leader.entries := by
      rw [hL]
      exact ⟨_, hlog.symm⟩
    obtain ⟨y, r, hround, hcounts⟩ :=
      round_of_takes (puts 0) hready hpre (by rw [hL]; omega) hfirst
    obtain ⟨p', hready', hsame, hterm, hcase⟩ := round_cases hready hround
    rcases hcase with ⟨_, _, hnot⟩ | ⟨hn, _, _, hF⟩
    · rw [hnot r rfl] at hcounts
      cases hcounts
    · rw [hL] at hF
      rw [storedFrom, ← List.append_assoc, ← hF] at hlog
      obtain ⟨k, hk⟩ := @ih _ _ (fun i => puts (i + 1)) hready' (hsame.trans hL) (by omega)
        (by rw [hterm, hn]; exact hlog) (by
          intro i hi
          have hi' := hall (i + 1) (by omega)
          rw [storedFrom, ← List.append_assoc, ← hF] at hi'
          rw [hterm, hn, show p.nextIndex.toNat + 1 + i = p.nextIndex.toNat + (i + 1) by omega]
          exact hi')
      refine ⟨k + 1, y, r, hround, fun p₁ p₂ h₁ h₂ => ⟨fun hf => ?_, fun _ _ => ?_⟩, hk⟩
      · rw [AppendEntriesR.counts, hf] at hcounts
        cases hcounts
      · obtain rfl := Option.some.inj (h₁.symm.trans hready.proxy)
        obtain rfl := Option.some.inj (h₂.symm.trans hready'.proxy)
        rw [UInt64.lt_iff_toNat_lt]
        omega

/-- **Catching up** from the leader's log `L`, a follower's log `F` and a next index `n`: the
rounds reach `L`, each moving the next index as it should, exactly if `L` continues `F` with
what the follower stores of the messages from `n` on. -/
theorem catches_up (puts : ℕ → Puts) (hready : Ready fd p x) :
    (∃ k, Reaches fd x.leader.entries puts k x) ↔
      Continues puts x.leader.currentTerm x.leader.entries x.follower.entries
        p.nextIndex.toNat := by
  constructor
  · rintro ⟨k, hk⟩
    exact continues_of_reaches hready rfl hk
  · rintro ⟨j, hj, hlog, hall⟩
    exact reaches_of_continues hready rfl hj hlog hall

/-- A leader with two entries, and a node that has just joined on its connection 0; the
proxy's next index is what an earlier life of the node has left. -/
def rejoined (nextIndex : UInt64) : Link where
  leader := { RaftServer.fresh with
    role := .Leader
    entries := [RaftServer.cfgadd 0 1, RaftServer.cfgadd 0 2]
    proxys := OrdMap.empty.insert 2 ⟨.IsVoting, nextIndex, nextIndex - 1, some 0⟩
    conns := OrdMap.empty.insert 0 ⟨RaftServer.startHost, 7778, some 2, true⟩ }
  follower := .launchJoin ⟨none, .empty⟩ 0 RaftServer.startHost 7778

theorem ready_rejoined {nextIndex : UInt64} (hpos : 1 ≤ nextIndex.toNat)
    (hle : nextIndex.toNat ≤ 2) :
    Ready 0 ⟨.IsVoting, nextIndex, nextIndex - 1, some 0⟩ (rejoined nextIndex) where
  proxy := rfl
  counters q hq := by
    rw [List.mem_singleton.mp hq]
    exact ⟨(UInt64.sub_add_cancel nextIndex 1).symm, hpos, hle⟩
  size := show 2 < 2 ^ 64 by decide
  terms := rfl
  logs := rfl

/-- A new node at next index 1 has both entries after one round. -/
theorem catches_up_new : ∃ k, Reaches 0 [RaftServer.cfgadd 0 1, RaftServer.cfgadd 0 2]
    (fun _ => .allOk) k (rejoined 1) := by
  apply (@catches_up 0 _ (rejoined 1) _ (ready_rejoined (by decide) (by decide))).mpr
  refine ⟨1, by decide, by decide, fun i hi => ?_⟩
  obtain rfl : i = 0 := by omega
  exact ⟨Or.inl rfl, by decide⟩

/-- A node that joins again after a crash has an empty log, and its proxy is still at next
index 2: every heartbeat is rejected, and the next index stays. -/
theorem rejoined_stuck : ¬ ∀ fd p x puts, Ready fd p x →
    (∀ (k : ℕ) (i : ℕ), ((puts k).entry i).ok = true) →
      ∃ k, Reaches fd x.leader.entries puts k x := by
  intro hall
  have hready := @ready_rejoined 2 (by decide) (by decide)
  obtain ⟨k, hk⟩ := hall 0 _ (rejoined 2) (fun _ => .allOk) hready fun _ _ => rfl
  -- no entry is left to be sent
  obtain ⟨j, hj, hlog, _⟩ := continues_of_reaches hready rfl hk
  obtain rfl : j = 0 := Nat.le_zero.mp (Nat.le_of_add_le_add_left (show 2 + j ≤ 2 + 0 from hj))
  cases hlog

end Link
end NanoRaft
