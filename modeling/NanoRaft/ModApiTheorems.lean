import NanoRaft.RaftServerTheorems
import NanoRaft.ModApi

/-!
# What the message handlers do

`appendEntriesQ_cases` and `appendEntriesR_cases` say everything one call can do; every
invariant of a node is derived from them. The vocabulary:

* `Accepts s q`: the message is not stale and its previous entry is found;
* `adoptTerm s q`: the server after the term check;
* `stored put term es`: what the append loop pushes for the entries `es`.
-/

namespace NanoRaft
namespace RaftServer

/-! ## `HandshakeQ` -/

/-- The handshake of a node whose proxy was tied to connection `old`: the proxy is tied to
connection `fd`, which stops reading if it is another one, and `old` is forgotten. -/
structure Retied (s : RaftServer) (fd old : ℕ) (q : HandshakeQ) (s' : RaftServer) : Prop where
  conns : ∀ k, s'.conns.find? k =
    if k = fd then (s.conns.find? fd).map fun c => { c with
        raftPort := q.raftport, proxy := some q.nodeid, reading := c.reading && old = fd }
    else if k = old then none else s.conns.find? k
  frame : s' = { s with
    conns := s'.conns
    proxys := s.proxys.modify q.nodeid fun p => { p with connFd := some fd } }

/-- The handshake of a node without a connected proxy: its proxy is tied to connection
`fd`, and its entry is appended if the `Put` succeeds. -/
structure Welcomed (put : PutResult) (s : RaftServer) (fd : ℕ) (c : Conn) (q : HandshakeQ)
    (s' : RaftServer) : Prop where
  conns : ∀ k, s'.conns.find? k =
    if k = fd then some { c with raftPort := q.raftport, proxy := some q.nodeid }
    else s.conns.find? k
  proxys : ∀ k, s'.proxys.find? k =
    if k = q.nodeid then some { (s.proxys.find? q.nodeid).getD .new with
      state := .IsVoting, connFd := some fd }
    else s.proxys.find? k
  entries : s'.entries = s.entries ++
    if put.ok then [s.cfgEntry c.addr q.raftport.toInt32 q.nodeid.toInt32] else []
  frame : s' = { s with
    conns := s'.conns, proxys := s'.proxys, entries := s'.entries, entriesDB := s'.entriesDB }

theorem handshakeKnown_eq_ok {s s' : RaftServer} {fd old : ℕ} {q : HandshakeQ}
    (h : (s.setRaftPort fd q.raftport).handshakeKnown fd old q.nodeid = .ok s') :
    s.Retied fd old q s' := by
  unfold handshakeKnown at h
  split at h
  · next hne =>
    obtain ⟨s1, h1, h⟩ := Except.bind_eq_ok.mp h
    have h1' := closeConn_eq_ok h1
    have h' := tie_eq_ok h
    subst h1'
    subst h'
    -- `Server_CloseConn` has stopped the caller's own channel before the tie
    refine ⟨fun k => ?_, rfl⟩
    simp only [setRaftPort, OrdMap.find?_modify, OrdMap.find?_erase]
    by_cases hk : k = fd
    · subst hk
      cases s.conns.find? k <;> simp [hne, Ne.symm hne]
    · simp [hk]
  · next heq =>
    have heq' : old = fd := not_not.mp heq
    rw [Except.pure_bind_ok] at h
    have h' := tie_eq_ok h
    subst heq'
    subst h'
    refine ⟨fun k => ?_, rfl⟩
    simp only [setRaftPort, OrdMap.find?_modify]
    by_cases hk : k = old
    · subst hk
      cases s.conns.find? k <;> simp
    · simp [hk]

/-- The connection of another number is looked up as it was before the caller's was changed. -/
theorem find?_stopped {s : RaftServer} {fd old : ℕ} (hne : old ≠ fd) :
    (s.conns.modify fd fun c => { c with reading := false }).find? old = s.conns.find? old := by
  rw [OrdMap.find?_modify, if_neg hne]

/-- The handshake of a known node comes back if the connection it replaces is registered. -/
theorem handshakeKnown_of_found {s : RaftServer} {fd old : ℕ} {dwID : UInt32}
    (hold : s.proxyConnFd dwID = some old) (hfound : old ≠ fd → (s.conns.find? old).isSome) :
    ∃ s', s.handshakeKnown fd old dwID = .ok s' := by
  obtain ⟨p, hp, _⟩ := proxyConnFd_eq_some.mp hold
  unfold handshakeKnown
  by_cases hne : old = fd
  · rw [if_neg (not_not.mpr hne)]
    exact tie_of_find? fd hp
  · obtain ⟨c, hc⟩ := Option.isSome_iff_exists.mp (hfound hne)
    rw [if_pos hne, closeConn, offlineConn, find?_stopped hne, hc]
    exact tie_of_find? fd hp

/-- It fails if that connection is not registered. -/
theorem handshakeKnown_eraseEnd_iff {s : RaftServer} (fd : ℕ) {old : ℕ} {dwID : UInt32}
    (hold : s.proxyConnFd dwID = some old) :
    s.handshakeKnown fd old dwID = .error .eraseEnd ↔ old ≠ fd ∧ s.conns.find? old = none := by
  constructor
  · intro h
    by_contra hno
    have hfound : old ≠ fd → (s.conns.find? old).isSome := fun hne =>
      Option.isSome_iff_ne_none.mpr fun hnone => hno ⟨hne, hnone⟩
    obtain ⟨s', hs'⟩ := handshakeKnown_of_found hold hfound
    rw [hs'] at h
    cases h
  · rintro ⟨hne, hnone⟩
    rw [handshakeKnown, if_pos hne, closeConn, offlineConn, find?_stopped hne, hnone]
    rfl

/-- What `handshakeNew` does before it broadcasts. -/
def welcome (put : PutResult) (s : RaftServer) (fd : ℕ) (c : Conn) (q : HandshakeQ) :
    Result RaftServer := do
  let s ← (s.addProxy q.nodeid).tie fd q.nodeid
  pure (s.appendCfgLog put c.addr q.raftport.toInt32 q.nodeid.toInt32)

theorem handshakeNew_eq (put : PutResult) (s : RaftServer) (fd : ℕ) (c : Conn) (q : HandshakeQ) :
    s.handshakeNew put fd c q = s.welcome put fd c q >>= fun s =>
      s.broadCastAppendEntries >>= fun ms => pure (s, ms) := by
  rw [welcome, bind_assoc]
  rfl

/-- `AddProxy` leaves a proxy to tie to. -/
theorem welcome_ok (put : PutResult) (s : RaftServer) (fd : ℕ) (c : Conn) (q : HandshakeQ) :
    ∃ t, s.welcome put fd c q = .ok t := by
  have hfind := (addProxy_find? s q.nodeid q.nodeid).trans (if_pos rfl)
  obtain ⟨t, ht⟩ := tie_of_find? (s := s.addProxy q.nodeid) fd hfind
  rw [welcome, ht]
  exact ⟨_, rfl⟩

theorem welcome_eq_ok {put : PutResult} {s s' : RaftServer} {fd : ℕ} {c : Conn}
    {q : HandshakeQ} (hc : s.conns.find? fd = some c)
    (h : (s.setRaftPort fd q.raftport).welcome put fd c q = .ok s') :
    s.Welcomed put fd c q s' := by
  obtain ⟨s1, h1, h⟩ := Except.bind_eq_ok.mp h
  rw [Except.pure_eq_ok] at h
  -- the calls in order: `AddProxy` and `Tie` lead to `s1`, `AppendCfgLog` from there to `s'`
  have h1' := tie_eq_ok h1
  rw [addProxy_frame] at h1'
  obtain ⟨db, happ, _⟩ := appendCfgLog_frame put s1 c.addr q.raftport.toInt32 q.nodeid.toInt32
  rw [h] at happ
  have hconns : s1.conns = ((s.setRaftPort fd q.raftport).conns.modify fd fun c =>
      { c with proxy := some q.nodeid }) := by rw [h1']
  have hproxys : s1.proxys = (((s.setRaftPort fd q.raftport).addProxy q.nodeid).proxys.modify
      q.nodeid fun p => { p with connFd := some fd }) := by rw [h1']
  refine ⟨fun k => ?_, fun k => ?_, ?_, ?_⟩
  · have hk' : s'.conns = s1.conns := by rw [happ]
    rw [hk', hconns]
    simp only [setRaftPort, OrdMap.find?_modify]
    by_cases hk : k = fd
    · subst hk
      simp [hc]
    · simp [hk]
  · have hk' : s'.proxys = s1.proxys := by rw [happ]
    rw [hk', hproxys, OrdMap.find?_modify, addProxy_find?, addProxy_find?]
    by_cases hk : k = q.nodeid
    · simp [hk, setRaftPort]
    · simp [hk, setRaftPort]
  · rw [happ]
    show s1.entries ++ _ = _
    rw [h1']
    rfl
  · rw [happ, h1']
    rfl

theorem handshakeNew_eq_ok {put : PutResult} {s s' : RaftServer} {fd : ℕ} {c : Conn}
    {q : HandshakeQ} {ms : Sends} (hc : s.conns.find? fd = some c)
    (h : (s.setRaftPort fd q.raftport).handshakeNew put fd c q = .ok (s', ms)) :
    s.Welcomed put fd c q s' ∧ s'.broadCastAppendEntries = .ok ms := by
  rw [handshakeNew_eq] at h
  obtain ⟨s1, h1, h⟩ := Except.bind_eq_ok.mp h
  obtain ⟨bs, hbs, h⟩ := Except.bind_eq_ok.mp h
  rw [Except.pure_eq_ok, Prod.mk.injEq] at h
  obtain ⟨rfl, rfl⟩ := h
  exact ⟨welcome_eq_ok hc h1, hbs⟩

/-- The handshake of a new node fails only in its broadcast. -/
theorem handshakeNew_error {put : PutResult} {s : RaftServer} {fd : ℕ} {c : Conn}
    {q : HandshakeQ} {f : Fault} (h : s.handshakeNew put fd c q = .error f) : f = .outOfRange := by
  obtain ⟨t, ht⟩ := welcome_ok put s fd c q
  rw [handshakeNew_eq, ht, Except.ok_bind] at h
  rcases Except.bind_eq_error.mp h with h | ⟨_, _, h⟩
  · exact broadCastAppendEntries_error h
  · cases h

/-- Everything one call of `HandshakeQ` can do. -/
theorem handshakeQ_cases {puts : Puts} {s s' : RaftServer} {fd : ℕ} {q : HandshakeQ}
    {ms : Sends} (h : s.handshakeQ puts fd q = .ok (s', ms)) :
    (s.conns.find? fd = none ∧ s' = s ∧ ms = []) ∨
    (s.role ≠ .Leader ∧ s' = s ∧ ms = [(fd, .handshake_r ⟨false⟩)]) ∨
    (s.role = .Leader ∧ (∃ old, s.proxyConnFd q.nodeid = some old ∧ s.Retied fd old q s') ∧
      ms = [(fd, .handshake_r ⟨true⟩)]) ∨
    (s.role = .Leader ∧ s.proxyConnFd q.nodeid = none ∧
      (∃ c, s.conns.find? fd = some c ∧ s.Welcomed (puts.entry 0) fd c q s') ∧
      ∃ bs, s'.broadCastAppendEntries = .ok bs ∧ ms = bs ++ [(fd, .handshake_r ⟨true⟩)]) := by
  unfold handshakeQ at h
  split at h
  · next hnone =>
    injection h with h
    injection h with h1 h2
    exact Or.inl ⟨hnone, h1.symm, h2.symm⟩
  · next c hc =>
    split at h
    · next hrole =>
      injection h with h
      injection h with h1 h2
      exact Or.inr (Or.inl ⟨hrole, h1.symm, h2.symm⟩)
    · next hrole =>
      have hlead : s.role = .Leader := not_not.mp hrole
      dsimp only at h
      split at h
      · next old hold =>
        obtain ⟨s1, h1, h⟩ := Except.bind_eq_ok.mp h
        rw [Except.pure_bind_ok, Except.pure_eq_ok, Prod.mk.injEq] at h
        obtain ⟨rfl, rfl⟩ := h
        exact Or.inr (Or.inr (Or.inl ⟨hlead, ⟨old, hold, handshakeKnown_eq_ok h1⟩, rfl⟩))
      · next hold =>
        obtain ⟨⟨s1, bs⟩, h1, h⟩ := Except.bind_eq_ok.mp h
        rw [Except.pure_eq_ok, Prod.mk.injEq] at h
        obtain ⟨hwel, hbs⟩ := handshakeNew_eq_ok hc h1
        obtain ⟨rfl, rfl⟩ := h
        exact Or.inr (Or.inr (Or.inr ⟨hlead, hold, ⟨c, hc, hwel⟩, bs, hbs, rfl⟩))

/-- A handshake leaves role and term alone. -/
theorem handshakeQ_role {puts : Puts} {s s' : RaftServer} {fd : ℕ} {q : HandshakeQ}
    {ms : Sends} (h : s.handshakeQ puts fd q = .ok (s', ms)) :
    s'.role = s.role ∧ s'.currentTerm = s.currentTerm := by
  rcases handshakeQ_cases h with ⟨_, rfl, _⟩ | ⟨_, rfl, _⟩ | ⟨_, ⟨old, _, hret⟩, _⟩ |
    ⟨_, _, ⟨c, _, hwel⟩, _⟩
  · exact ⟨rfl, rfl⟩
  · exact ⟨rfl, rfl⟩
  · rw [hret.frame]
    exact ⟨rfl, rfl⟩
  · rw [hwel.frame]
    exact ⟨rfl, rfl⟩

/-! ## The term check and the consistency check -/

/-- The log holds the entry the message builds on, with the term the message names. The
all-ones term is read as "absent". -/
def PrevMatches (s : RaftServer) (q : AppendEntriesQ) : Prop :=
  0 < q.prelogindex → ∃ e ∈ s.entries[q.prelogindex.toNat]?,
    e.term = q.prelogterm ∧ e.term ≠ 0xFFFFFFFF

/-- The messages that are answered with `success = true`. -/
structure Accepts (s : RaftServer) (q : AppendEntriesQ) : Prop where
  term : s.currentTerm ≤ q.term
  prev : s.PrevMatches q

/-- The server after the term check let a message pass: in the message's term, and a
follower if the term went up or an election was given up. -/
def adoptTerm (s : RaftServer) (q : AppendEntriesQ) : RaftServer :=
  { s with
    currentTerm := q.term
    role := if s.currentTerm < q.term ∨ s.role = .Candidate then .Follower else s.role
    stateDB := if s.currentTerm < q.term then some q.term else s.stateDB }

/-- A message of the own term, with no election to give up, passes the term check without a
trace. -/
theorem adoptTerm_eq_self {s : RaftServer} {q : AppendEntriesQ}
    (hterm : q.term = s.currentTerm) (hrole : s.role ≠ .Candidate) : s.adoptTerm q = s := by
  unfold adoptTerm
  simp [hterm, hrole]

instance (s : RaftServer) (q : AppendEntriesQ) : Decidable (s.PrevMatches q) :=
  inferInstanceAs (Decidable (_ → _))

instance (s : RaftServer) (q : AppendEntriesQ) : Decidable (s.Accepts q) :=
  decidable_of_iff (s.currentTerm ≤ q.term ∧ s.PrevMatches q)
    ⟨fun h => ⟨h.1, h.2⟩, fun h => ⟨h.term, h.prev⟩⟩

theorem checkTerm_cases {puts : Puts} {s : RaftServer} {q : AppendEntriesQ}
    {o : Option RaftServer} (h : s.checkTerm puts q = .ok o) :
    (q.term < s.currentTerm ∧ o = none) ∨
    (s.currentTerm ≤ q.term ∧ o = some (s.adoptTerm q)) := by
  unfold checkTerm at h
  split at h
  · next hc =>
    obtain ⟨hr, ht⟩ := hc
    injection h with h
    refine Or.inr ⟨ht.le, ?_⟩
    rw [← h, adoptTerm, becomeFollower, if_pos (Or.inr hr), if_neg (ht ▸ lt_irrefl _), ← ht]
  · next hc =>
    split at h
    · next hlt =>
      obtain ⟨s1, hs1, ho⟩ := Except.bind_eq_ok.mp h
      unfold setAndPersistTerm at hs1
      split at hs1
      · injection hs1 with hs1
        injection ho with ho
        refine Or.inr ⟨hlt.le, ?_⟩
        rw [← ho, ← hs1, adoptTerm, if_pos (Or.inl hlt), if_pos hlt]
        rfl
      · cases hs1
    · next hge =>
      split at h
      · next hgt =>
        injection h with h
        exact Or.inl ⟨hgt, h.symm⟩
      · next hle =>
        -- no branch was taken: the terms agree, and there was no election to give up
        injection h with h
        have ht : s.currentTerm = q.term := le_antisymm (not_lt.mp hle) (not_lt.mp hge)
        have hr : s.role ≠ .Candidate := fun hr => hc ⟨hr, ht⟩
        exact Or.inr ⟨ht.le, by rw [← h, adoptTerm_eq_self ht.symm hr]⟩

/-- The term check lets a message pass that is not stale, if the term can be written where it
is a new one. -/
theorem checkTerm_of_le {puts : Puts} {s : RaftServer} {q : AppendEntriesQ}
    (hle : s.currentTerm ≤ q.term) (hput : s.currentTerm < q.term → puts.term = true) :
    s.checkTerm puts q = .ok (some (s.adoptTerm q)) := by
  have hok : ∃ o, s.checkTerm puts q = .ok o := by
    unfold checkTerm
    split_ifs with hc hlt hst
    · exact ⟨_, rfl⟩
    · rw [setAndPersistTerm, if_pos (hput hlt)]
      exact ⟨_, rfl⟩
    · exact ⟨_, rfl⟩
    · exact ⟨_, rfl⟩
  obtain ⟨o, ho⟩ := hok
  rcases checkTerm_cases ho with ⟨hst, _⟩ | ⟨_, rfl⟩
  · exact absurd hle (not_le.mpr hst)
  · exact ho

/-- The consistency check answers whether the previous entry matches. -/
theorem checkPrev_eq_ok {s : RaftServer} {q : AppendEntriesQ} {b : Bool}
    (h : s.checkPrev q = .ok b) : b = true ↔ s.PrevMatches q := by
  unfold checkPrev at h
  split at h
  · next hpos =>
    obtain ⟨t, ht, hb⟩ := Except.bind_eq_ok.mp h
    rw [Except.pure_eq_ok] at hb
    rw [← hb, decide_eq_true_iff, PrevMatches]
    rcases entryTermByIndex_eq_ok ht with ⟨hnone, rfl⟩ | ⟨e, he, rfl⟩
    · simp [hnone, hpos]
    · -- a term of all ones reads as the `-1` of an absent entry
      rw [UInt32.toUInt32_toInt32]
      simp only [ne_eq, UInt.toInt32_eq_neg_one, he, hpos, forall_const, Option.mem_def,
        Option.some.injEq, exists_eq_left']
      exact and_comm
  · next hpos =>
    injection h with h
    rw [← h]
    simp [PrevMatches, hpos]

theorem checkPrev_of_matches {s : RaftServer} {q : AppendEntriesQ} (h : s.PrevMatches q) :
    s.checkPrev q = .ok true := by
  unfold checkPrev
  split
  · next hpos =>
    obtain ⟨e, he, hterm, hne⟩ := h hpos
    have hcheck : e.term.toInt32 ≠ -1 ∧ e.term = q.prelogterm :=
      ⟨fun hneg => hne (UInt.toInt32_eq_neg_one.mp hneg), hterm⟩
    rw [entryTermByIndex_of_getElem? he, Except.ok_bind, UInt32.toUInt32_toInt32,
      decide_eq_true hcheck]
    rfl
  · rfl

theorem checkTerm_of_same {puts : Puts} {s : RaftServer} {q : AppendEntriesQ}
    (ht : s.currentTerm = q.term) (hr : s.role ≠ .Candidate) :
    s.checkTerm puts q = .ok (some s) := by
  unfold checkTerm
  rw [if_neg fun hc => hr hc.1, if_neg (ht ▸ lt_irrefl _), if_neg (ht ▸ lt_irrefl _)]

/-! ## The conflict scan and the append loop -/

/-- The scan leaves the replicated log alone, whatever it finds in the deprecated one. -/
theorem conflictScan_frame {prelogindex : UInt32} {es rest : List Entry} {i : ℕ}
    {s s' : RaftServer} (h : s.conflictScan prelogindex i es = .ok (s', rest)) :
    ∃ db logs, s' = { s with entriesDB := db, logs := logs } := by
  induction es generalizing s i with
  | nil =>
    injection h with h
    injection h with h _
    exact ⟨s.entriesDB, s.logs, h.symm⟩
  | cons e es ih =>
    obtain ⟨t, _, h⟩ := Except.bind_eq_ok.mp h
    split at h
    · -- a conflict was found: the scan goes on behind a `DelLogsFromIndex`
      obtain ⟨db, logs, hd⟩ := delLogsFromIndex_frame s t.toUInt32
      rw [hd] at h
      obtain ⟨db', logs', h'⟩ := ih h
      exact ⟨db', logs', h'⟩
    · rw [Except.pure_eq_ok, Prod.mk.injEq] at h
      exact ⟨s.entriesDB, s.logs, h.1.symm⟩

/-- With nothing in the deprecated log at the first new index, the scan stops at once. -/
theorem conflictScan_of_absent {prelogindex : UInt32} {es rest : List Entry}
    {s s' : RaftServer} (habs : s.logs[(prelogindex + 1).toNat]? = none)
    (h : s.conflictScan prelogindex 0 es = .ok (s', rest)) : s' = s ∧ rest = es := by
  cases es with
  | nil =>
    injection h with h
    injection h with h1 h2
    exact ⟨h1.symm, h2.symm⟩
  | cons e es =>
    obtain ⟨t, ht, h⟩ := Except.bind_eq_ok.mp h
    have hzero : prelogindex + 1 + UInt32.ofNat 0 = prelogindex + 1 := by simp
    rw [hzero] at ht
    have htm : t = -1 := logTermByIndex_of_absent habs ht
    rw [if_neg (by simp [htm]), Except.pure_eq_ok, Prod.mk.injEq] at h
    exact ⟨h.1.symm, h.2.symm⟩

/-- What the append loop pushes in term `term`: the configuration changes whose `Put`
succeeds, each rebuilt as a `CFGADD` of that term. -/
def stored (put : ℕ → PutResult) (term : UInt32) : List Entry → List Entry
  | [] => []
  | e :: es =>
    (if e.IsCfg ∧ (put 0).ok then [e.restamp term] else []) ++
      stored (fun i => put (i + 1)) term es

/-- The append loop pushes `stored` at the end of the log, wherever that is. -/
theorem appendLoop_frame (put : ℕ → PutResult) (s : RaftServer) (es : List Entry) :
    ∃ db, s.appendLoop put es = { s with
      entries := s.entries ++ stored put s.currentTerm es
      entriesDB := db } := by
  induction es generalizing s put with
  | nil => exact ⟨s.entriesDB, by simp [appendLoop, stored]⟩
  | cons e es ih =>
    unfold appendLoop stored
    by_cases hc : e.IsCfg
    · obtain ⟨db, hs, _⟩ := appendCfgLog_frame (put 0) s e.host e.port.toInt32 e.nodeid.toInt32
      have hcfg : s.cfgEntry e.host e.port.toInt32 e.nodeid.toInt32 = e.restamp s.currentTerm := by
        simp [cfgEntry, Entry.restamp]
      obtain ⟨db', h'⟩ := ih (fun i => put (i + 1))
        (s.appendCfgLog (put 0) e.host e.port.toInt32 e.nodeid.toInt32)
      refine ⟨db', ?_⟩
      simp only [hc, if_true, true_and]
      rw [h', hs, hcfg, List.append_assoc]
    · -- a `NORMAL` entry is passed over
      obtain ⟨db', h'⟩ := ih (fun i => put (i + 1)) s
      refine ⟨db', ?_⟩
      simp only [hc, if_false, false_and]
      rw [h', List.nil_append]

/-- With no `Put` succeeding the append loop does nothing at all. -/
theorem appendLoop_of_stored_nil {put : ℕ → PutResult} {s : RaftServer} {es : List Entry}
    (h : stored put s.currentTerm es = []) : s.appendLoop put es = s := by
  induction es generalizing s put with
  | nil => rfl
  | cons e es ih =>
    rw [stored, List.append_eq_nil_iff] at h
    unfold appendLoop
    by_cases hc : e.IsCfg
    · have hput : (put 0).ok = false := by
        by_contra hne
        simp [hc, hne] at h
      obtain ⟨db, hs, hdb⟩ := appendCfgLog_frame (put 0) s e.host e.port.toInt32 e.nodeid.toInt32
      have hid : s.appendCfgLog (put 0) e.host e.port.toInt32 e.nodeid.toInt32 = s := by
        rw [hs, hdb hput, hput]
        simp
      simp only [hc, if_true, hid]
      exact ih h.2
    · simp only [hc, if_false]
      exact ih h.2

/-- The entries step, whatever the deprecated log holds: the replicated log only grows. -/
theorem storeEntries_frame {puts : Puts} {s s' : RaftServer} {q : AppendEntriesQ}
    (h : s.storeEntries puts q = .ok s') :
    ∃ db logs new, s' = { s with
      entries := s.entries ++ new, entriesDB := db, logs := logs } := by
  obtain ⟨⟨s1, rest⟩, hscan, hs'⟩ := Except.bind_eq_ok.mp h
  obtain ⟨db, logs, rfl⟩ := conflictScan_frame hscan
  obtain ⟨db', hloop⟩ := appendLoop_frame puts.entry { s with entriesDB := db, logs := logs } rest
  refine ⟨db', logs, stored puts.entry s.currentTerm rest, ?_⟩
  rw [Except.pure_eq_ok] at hs'
  rw [← hs', hloop]

/-- With nothing in the deprecated log at the first new index the whole message goes
through the append loop. -/
theorem storeEntries_of_absent {puts : Puts} {s s' : RaftServer} {q : AppendEntriesQ}
    (habs : s.logs[(q.prelogindex + 1).toNat]? = none)
    (h : s.storeEntries puts q = .ok s') : s' = s.appendLoop puts.entry q.entries := by
  obtain ⟨⟨s1, rest⟩, hscan, hs'⟩ := Except.bind_eq_ok.mp h
  obtain ⟨rfl, rfl⟩ := conflictScan_of_absent habs hscan
  rw [Except.pure_eq_ok] at hs'
  exact hs'.symm

/-- A scan that came back once comes back again on any server with the same deprecated
log. -/
theorem storeEntries_again {puts puts' : Puts} {s s' t : RaftServer} {q : AppendEntriesQ}
    (habs : s.logs[(q.prelogindex + 1).toNat]? = none) (hlogs : t.logs = s.logs)
    (h : s.storeEntries puts q = .ok s') :
    t.storeEntries puts' q = .ok (t.appendLoop puts'.entry q.entries) := by
  obtain ⟨⟨s1, rest⟩, hscan, _⟩ := Except.bind_eq_ok.mp h
  -- the first lookup answers as before, so the scan stops at the first entry again
  have hscan' : t.conflictScan q.prelogindex 0 q.entries = .ok (t, q.entries) := by
    cases hes : q.entries with
    | nil => rfl
    | cons e es =>
      rw [hes] at hscan
      obtain ⟨x, hx, _⟩ := Except.bind_eq_ok.mp hscan
      have hzero : q.prelogindex + 1 + UInt32.ofNat 0 = q.prelogindex + 1 := by simp
      rw [hzero] at hx
      have hxm : x = -1 := logTermByIndex_of_absent habs hx
      have hx' : t.logTermByIndex (q.prelogindex + 1) = .ok x := by
        rw [logTermByIndex, hlogs]
        exact hx
      rw [conflictScan, hzero, hx', Except.ok_bind, if_neg (by simp [hxm])]
      rfl
  unfold storeEntries
  rw [hscan']
  rfl

/-! ## The shared tail -/

/-- The tail moves the commit index and nothing else. -/
theorem followCommit_frame (s : RaftServer) (q : AppendEntriesQ) :
    s.followCommit q = { s with commitIndex := (s.followCommit q).commitIndex } := by
  unfold followCommit
  split <;> rfl

theorem followCommit_commitIndex (s : RaftServer) (q : AppendEntriesQ) :
    (s.followCommit q).commitIndex = if s.commitIndex < q.leadercommit then
      min q.leadercommit (q.prelogindex + UInt32.ofNat q.entries.length) else s.commitIndex := by
  unfold followCommit
  split <;> rfl

/-! ## The handlers -/

/-- Everything one call of `AppendEntriesQ` can do. -/
theorem appendEntriesQ_cases {puts : Puts} {s s' : RaftServer} {q : AppendEntriesQ}
    {r : AppendEntriesR} (h : s.appendEntriesQ puts q = .ok (s', r)) :
    (q.term < s.currentTerm ∧ (s', r) = s.sendreponse q false false) ∨
    (s.currentTerm ≤ q.term ∧ ¬ s.PrevMatches q ∧
      (s', r) = (s.adoptTerm q).sendreponse q false false) ∨
    (s.Accepts q ∧ q.entries = [] ∧
      (s', r) = (s.adoptTerm q).freshTime.sendreponse q true true) ∨
    (s.Accepts q ∧ q.entries ≠ [] ∧ ∃ s1, (s.adoptTerm q).storeEntries puts q = .ok s1 ∧
      (s', r) = s1.sendreponse q true false) := by
  obtain ⟨o, ho, h⟩ := Except.bind_eq_ok.mp h
  rcases checkTerm_cases ho with ⟨hstale, rfl⟩ | ⟨hterm, rfl⟩
  · rw [Except.pure_eq_ok] at h
    exact Or.inl ⟨hstale, h.symm⟩
  · obtain ⟨b, hb, h⟩ := Except.bind_eq_ok.mp h
    have hprev : b = true ↔ s.PrevMatches q := checkPrev_eq_ok hb
    split at h
    · next hbt =>
      have hacc : s.Accepts q := ⟨hterm, hprev.mp hbt⟩
      split at h
      · next hemp =>
        rw [Except.pure_eq_ok] at h
        exact Or.inr (Or.inr (Or.inl ⟨hacc, List.isEmpty_iff.mp hemp, h.symm⟩))
      · next hne =>
        obtain ⟨s1, hs1, h⟩ := Except.bind_eq_ok.mp h
        rw [Except.pure_eq_ok] at h
        refine Or.inr (Or.inr (Or.inr ⟨hacc, fun he => hne (List.isEmpty_iff.mpr he), s1, hs1, ?_⟩))
        exact h.symm
    · next hbf =>
      rw [Except.pure_eq_ok] at h
      exact Or.inr (Or.inl ⟨hterm, fun hp => hbf (hprev.mpr hp), h.symm⟩)

/-- Success is acceptance. -/
theorem appendEntriesQ_success {puts : Puts} {s s' : RaftServer} {q : AppendEntriesQ}
    {r : AppendEntriesR} (h : s.appendEntriesQ puts q = .ok (s', r)) :
    r.success = true ↔ s.Accepts q := by
  rcases appendEntriesQ_cases h with ⟨hst, he⟩ | ⟨_, hp, he⟩ | ⟨ha, _, he⟩ | ⟨ha, _, s1, _, he⟩
  · have hr : r.success = false := congrArg (fun x => x.2.success) he
    simp only [hr, Bool.false_eq_true, false_iff]
    exact fun ha => absurd ha.term (not_le.mpr hst)
  · have hr : r.success = false := congrArg (fun x => x.2.success) he
    simp only [hr, Bool.false_eq_true, false_iff]
    exact fun ha => hp ha.prev
  · have hr : r.success = true := congrArg (fun x => x.2.success) he
    simp [hr, ha]
  · have hr : r.success = true := congrArg (fun x => x.2.success) he
    simp [hr, ha]

/-- A rejection: the message was stale, or its previous entry was not found. Either way the
tail follows its commit index. -/
theorem appendEntriesQ_rejected {puts : Puts} {s s' : RaftServer} {q : AppendEntriesQ}
    {r : AppendEntriesR} (h : s.appendEntriesQ puts q = .ok (s', r)) (hr : r.success = false) :
    (q.term < s.currentTerm ∧ s' = s.followCommit q) ∨
    (s.currentTerm ≤ q.term ∧ s' = (s.adoptTerm q).followCommit q) := by
  have hnot : ¬ s.Accepts q := by
    rw [← appendEntriesQ_success h, hr]
    exact Bool.false_ne_true
  rcases appendEntriesQ_cases h with ⟨hst, he⟩ | ⟨hle, _, he⟩ | ⟨ha, _⟩ | ⟨ha, _⟩
  · exact Or.inl ⟨hst, congrArg Prod.fst he⟩
  · exact Or.inr ⟨hle, congrArg Prod.fst he⟩
  · exact absurd ha hnot
  · exact absurd ha hnot

/-- An acceptance: a heartbeat re-arms the timer, and entries are stored. -/
theorem appendEntriesQ_accepted {puts : Puts} {s s' : RaftServer} {q : AppendEntriesQ}
    {r : AppendEntriesR} (h : s.appendEntriesQ puts q = .ok (s', r)) (hr : r.success = true) :
    (q.entries = [] ∧ s' = (s.adoptTerm q).freshTime.followCommit q) ∨
    (q.entries ≠ [] ∧ ∃ s1, (s.adoptTerm q).storeEntries puts q = .ok s1 ∧
      s' = s1.followCommit q) := by
  have hacc : s.Accepts q := (appendEntriesQ_success h).mp hr
  rcases appendEntriesQ_cases h with ⟨hst, _⟩ | ⟨_, hp, _⟩ | ⟨_, hemp, he⟩ | ⟨_, hne, s1, hs1, he⟩
  · exact absurd hacc.term (not_le.mpr hst)
  · exact absurd hacc.prev hp
  · exact Or.inl ⟨hemp, congrArg Prod.fst he⟩
  · exact Or.inr ⟨hne, s1, hs1, congrArg Prod.fst he⟩

/-- The index the tail moves the commit index to. -/
def followIndex (s : RaftServer) (q : AppendEntriesQ) : UInt32 :=
  if s.commitIndex < q.leadercommit then
    min q.leadercommit (q.prelogindex + UInt32.ofNat q.entries.length)
  else s.commitIndex

/-- Whatever the answer, the commit index is computed from its old value and the message
alone, the log is only extended, and proxies and connections are left alone. -/
theorem appendEntriesQ_frame {puts : Puts} {s s' : RaftServer} {q : AppendEntriesQ}
    {r : AppendEntriesR} (h : s.appendEntriesQ puts q = .ok (s', r)) :
    ∃ term role stateDB new db logs timer, s' = { s with
      currentTerm := term, role := role, stateDB := stateDB
      commitIndex := s.followIndex q
      entries := s.entries ++ new, entriesDB := db, logs := logs, timer := timer } := by
  rcases appendEntriesQ_cases h with ⟨_, he⟩ | ⟨_, _, he⟩ | ⟨_, _, he⟩ | ⟨_, _, s1, hs1, he⟩
  · have hs' : s' = s.followCommit q := congrArg Prod.fst he
    refine ⟨s.currentTerm, s.role, s.stateDB, [], s.entriesDB, s.logs, s.timer, ?_⟩
    rw [hs', followCommit_frame, followCommit_commitIndex, List.append_nil]
    rfl
  · have hs' : s' = (s.adoptTerm q).followCommit q := congrArg Prod.fst he
    refine ⟨(s.adoptTerm q).currentTerm, (s.adoptTerm q).role, (s.adoptTerm q).stateDB, [],
      s.entriesDB, s.logs, s.timer, ?_⟩
    rw [hs', followCommit_frame, followCommit_commitIndex, List.append_nil]
    rfl
  · have hs' : s' = (s.adoptTerm q).freshTime.followCommit q := congrArg Prod.fst he
    refine ⟨(s.adoptTerm q).currentTerm, (s.adoptTerm q).role, (s.adoptTerm q).stateDB, [],
      s.entriesDB, s.logs, (s.adoptTerm q).freshTime.timer, ?_⟩
    rw [hs', followCommit_frame, followCommit_commitIndex, List.append_nil]
    rfl
  · have hs' : s' = s1.followCommit q := congrArg Prod.fst he
    obtain ⟨db, logs, new, hf⟩ := storeEntries_frame hs1
    refine ⟨(s.adoptTerm q).currentTerm, (s.adoptTerm q).role, (s.adoptTerm q).stateDB, new,
      db, logs, s.timer, ?_⟩
    rw [hs', followCommit_frame, followCommit_commitIndex, hf]
    rfl

theorem appendEntriesQ_commitIndex {puts : Puts} {s s' : RaftServer} {q : AppendEntriesQ}
    {r : AppendEntriesR} (h : s.appendEntriesQ puts q = .ok (s', r)) :
    s'.commitIndex = s.followIndex q := by
  obtain ⟨_, _, _, _, _, _, _, hs'⟩ := appendEntriesQ_frame h
  rw [hs']

/-- What was in the log stays where it was, whatever the message and the answer. -/
theorem appendEntriesQ_entries {puts : Puts} {s s' : RaftServer} {q : AppendEntriesQ}
    {r : AppendEntriesR} (h : s.appendEntriesQ puts q = .ok (s', r)) :
    s.entries <+: s'.entries := by
  obtain ⟨_, _, _, new, _, _, _, hs'⟩ := appendEntriesQ_frame h
  exact ⟨new, by rw [hs']⟩

/-- A call leaves the node in the later of its own term and the message's. -/
theorem appendEntriesQ_currentTerm {puts : Puts} {s s' : RaftServer} {q : AppendEntriesQ}
    {r : AppendEntriesR} (h : s.appendEntriesQ puts q = .ok (s', r)) :
    s'.currentTerm = max s.currentTerm q.term := by
  rcases appendEntriesQ_cases h with ⟨hst, he⟩ | ⟨hle, _, he⟩ | ⟨ha, _, he⟩ | ⟨ha, _, s1, hs1, he⟩
  · rw [max_eq_left hst.le, show s' = s.followCommit q from congrArg Prod.fst he,
      followCommit_frame]
  · rw [max_eq_right hle, show s' = (s.adoptTerm q).followCommit q from congrArg Prod.fst he,
      followCommit_frame]
    rfl
  · rw [max_eq_right ha.term,
      show s' = (s.adoptTerm q).freshTime.followCommit q from congrArg Prod.fst he,
      followCommit_frame]
    rfl
  · obtain ⟨db, logs, new, hf⟩ := storeEntries_frame hs1
    rw [max_eq_right ha.term, show s' = s1.followCommit q from congrArg Prod.fst he,
      followCommit_frame, hf]
    rfl

/-- The role after a call: the term check decides it. -/
theorem appendEntriesQ_role {puts : Puts} {s s' : RaftServer} {q : AppendEntriesQ}
    {r : AppendEntriesR} (h : s.appendEntriesQ puts q = .ok (s', r)) :
    s'.role = if q.term < s.currentTerm then s.role else (s.adoptTerm q).role := by
  rcases appendEntriesQ_cases h with ⟨hst, he⟩ | ⟨hle, _, he⟩ | ⟨ha, _, he⟩ | ⟨ha, _, s1, hs1, he⟩
  · rw [if_pos hst, show s' = s.followCommit q from congrArg Prod.fst he, followCommit_frame]
  · rw [if_neg (not_lt.mpr hle),
      show s' = (s.adoptTerm q).followCommit q from congrArg Prod.fst he, followCommit_frame]
  · rw [if_neg (not_lt.mpr ha.term),
      show s' = (s.adoptTerm q).freshTime.followCommit q from congrArg Prod.fst he,
      followCommit_frame]
    rfl
  · obtain ⟨db, logs, new, hf⟩ := storeEntries_frame hs1
    rw [if_neg (not_lt.mpr ha.term), show s' = s1.followCommit q from congrArg Prod.fst he,
      followCommit_frame, hf]

/-- What the leader is told: the node's term, which is the message's if the message was
accepted, and whether there was anything to store. -/
theorem appendEntriesQ_reply {puts : Puts} {s s' : RaftServer} {q : AppendEntriesQ}
    {r : AppendEntriesR} (h : s.appendEntriesQ puts q = .ok (s', r)) :
    r.term = s'.currentTerm ∧ (r.success = true → s'.currentTerm = q.term) ∧
    (r.isheartbeat = true ↔ r.success = true ∧ q.entries = []) := by
  rcases appendEntriesQ_cases h with ⟨_, he⟩ | ⟨_, _, he⟩ | ⟨_, hemp, he⟩ | ⟨_, hne, s1, hs1, he⟩
  · obtain ⟨rfl, rfl⟩ := Prod.mk.inj he
    exact ⟨rfl, by simp, by simp⟩
  · obtain ⟨rfl, rfl⟩ := Prod.mk.inj he
    exact ⟨rfl, by simp, by simp⟩
  · obtain ⟨rfl, rfl⟩ := Prod.mk.inj he
    refine ⟨rfl, fun _ => ?_, by simp [hemp]⟩
    rw [followCommit_frame]
    rfl
  · obtain ⟨rfl, rfl⟩ := Prod.mk.inj he
    refine ⟨rfl, fun _ => ?_, by simp [hne]⟩
    obtain ⟨db, logs, new, hf⟩ := storeEntries_frame hs1
    rw [followCommit_frame, hf]
    rfl

/-- The log after a call that finds nothing in the deprecated log at the message's first
new index: an accepted message has gone through the append loop as a whole. -/
theorem appendEntriesQ_of_absent {puts : Puts} {s s' : RaftServer} {q : AppendEntriesQ}
    {r : AppendEntriesR} (habs : s.logs[(q.prelogindex + 1).toNat]? = none)
    (h : s.appendEntriesQ puts q = .ok (s', r)) :
    s'.entries = s.entries ++ (if r.success then stored puts.entry q.term q.entries else []) ∧
    s'.logs = s.logs := by
  rcases appendEntriesQ_cases h with ⟨_, he⟩ | ⟨_, _, he⟩ | ⟨_, hemp, he⟩ | ⟨_, _, s1, hs1, he⟩
  · obtain ⟨rfl, rfl⟩ := Prod.mk.inj he
    rw [followCommit_frame]
    simp
  · obtain ⟨rfl, rfl⟩ := Prod.mk.inj he
    rw [followCommit_frame]
    simp [adoptTerm]
  · obtain ⟨rfl, rfl⟩ := Prod.mk.inj he
    rw [followCommit_frame]
    simp [adoptTerm, freshTime, hemp, stored]
  · obtain ⟨rfl, rfl⟩ := Prod.mk.inj he
    obtain ⟨db, hloop⟩ := appendLoop_frame puts.entry (s.adoptTerm q) q.entries
    have habs' : (s.adoptTerm q).logs[(q.prelogindex + 1).toNat]? = none := habs
    rw [followCommit_frame, storeEntries_of_absent habs' hs1, hloop]
    exact ⟨rfl, rfl⟩

/-- The log of a node whose deprecated log is empty, as it is on every node. -/
theorem appendEntriesQ_of_logs {puts : Puts} {s s' : RaftServer} {q : AppendEntriesQ}
    {r : AppendEntriesR} (hlogs : s.logs = []) (h : s.appendEntriesQ puts q = .ok (s', r)) :
    s'.entries = s.entries ++ (if r.success then stored puts.entry q.term q.entries else []) ∧
    s'.logs = [] := by
  have habs : s.logs[(q.prelogindex + 1).toNat]? = none := by
    rw [hlogs]
    exact List.getElem?_nil
  obtain ⟨hent, hlogs'⟩ := appendEntriesQ_of_absent habs h
  exact ⟨hent, by rw [hlogs', hlogs]⟩

/-- A message that is not stale and builds on an entry the server has comes back, unless the
first new index is the last 32-bit number. -/
theorem appendEntriesQ_of_prevMatches {puts : Puts} {s : RaftServer} {q : AppendEntriesQ}
    (hle : s.currentTerm ≤ q.term) (hput : s.currentTerm < q.term → puts.term = true)
    (hlogs : s.logs = []) (hprev : s.PrevMatches q)
    (hindex : (q.prelogindex + 1).toNat ≠ 2 ^ 32 - 1) :
    ∃ s' r, s.appendEntriesQ puts q = .ok (s', r) := by
  have hprev' : (s.adoptTerm q).PrevMatches q := hprev
  unfold appendEntriesQ
  rw [checkTerm_of_le hle hput, Except.ok_bind]
  dsimp only
  rw [checkPrev_of_matches hprev', Except.ok_bind, if_pos rfl]
  cases hes : q.entries with
  | nil => exact ⟨_, _, rfl⟩
  | cons e es =>
    -- the deprecated log is found empty at the first new index
    have hscan : (s.adoptTerm q).conflictScan q.prelogindex 0 q.entries =
        .ok (s.adoptTerm q, q.entries) := by
      have hzero : q.prelogindex + 1 + UInt32.ofNat 0 = q.prelogindex + 1 := by simp
      have hlookup : (s.adoptTerm q).logTermByIndex (q.prelogindex + 1) = .ok (-1) := by
        have hlt := (q.prelogindex + 1).toNat_lt
        rw [logTermByIndex, show (s.adoptTerm q).logs = [] from hlogs, termByIndex, if_pos]
        rw [UInt32.toNat_add]
        show 0 < ((q.prelogindex + 1).toNat + 1) % 2 ^ 32
        omega
      rw [hes, conflictScan, hzero, hlookup, Except.ok_bind, if_neg (by simp)]
      rfl
    have hstore : (s.adoptTerm q).storeEntries puts q =
        .ok ((s.adoptTerm q).appendLoop puts.entry q.entries) := by
      rw [storeEntries, hscan]
      rfl
    rw [hstore]
    exact ⟨_, _, rfl⟩

/-- Everything one call of `AppendEntriesR` can do. -/
theorem appendEntriesR_cases {puts : Puts} {s s' : RaftServer} {fd : ℕ} {r : AppendEntriesR}
    (h : s.appendEntriesR puts fd r = .ok s') :
    (s.currentTerm < r.term ∧
      s' = { s with currentTerm := r.term, stateDB := some r.term, role := .Follower }) ∨
    (r.term ≤ s.currentTerm ∧ ∃ b, (s.countReply fd r).changeCommitIndex = .ok (s', b)) := by
  unfold appendEntriesR at h
  split at h
  · next hlt =>
    obtain ⟨s1, hs1, h⟩ := Except.bind_eq_ok.mp h
    unfold setAndPersistTerm at hs1
    split at hs1
    · injection hs1 with hs1
      rw [Except.pure_eq_ok] at h
      exact Or.inl ⟨hlt, by rw [← h, ← hs1]; rfl⟩
    · cases hs1
  · next hge =>
    obtain ⟨⟨s1, b⟩, hs1, h⟩ := Except.bind_eq_ok.mp h
    rw [Except.pure_eq_ok] at h
    exact Or.inr ⟨not_lt.mp hge, b, by rw [hs1, h]⟩

/-- Counting a reply touches the proxies only. -/
theorem countReply_frame (s : RaftServer) (fd : ℕ) (r : AppendEntriesR) :
    s.countReply fd r = { s with proxys := (s.countReply fd r).proxys } := by
  unfold countReply
  split
  · unfold incrProxy
    split <;> rfl
  · rfl

/-! ## Dispatching a message -/

/-- An `appendentries_q` is answered on the connection it came from. -/
theorem proc_appendEntriesQ {puts : Puts} {s s' : RaftServer} {fd : ℕ} {q : AppendEntriesQ}
    {ms : Sends} (h : s.proc puts fd (.appendentries_q q) = .ok (s', ms)) :
    ∃ r, s.appendEntriesQ puts q = .ok (s', r) ∧ ms = [(fd, .appendentries_r r)] := by
  obtain ⟨⟨t, r⟩, ht, h⟩ := Except.bind_eq_ok.mp h
  rw [Except.pure_eq_ok, Prod.mk.injEq] at h
  obtain ⟨rfl, rfl⟩ := h
  exact ⟨r, ht, rfl⟩

/-- An `appendentries_r` is not answered. -/
theorem proc_appendEntriesR {puts : Puts} {s s' : RaftServer} {fd : ℕ} {r : AppendEntriesR}
    {ms : Sends} (h : s.proc puts fd (.appendentries_r r) = .ok (s', ms)) :
    s.appendEntriesR puts fd r = .ok s' ∧ ms = [] := by
  obtain ⟨t, ht, h⟩ := Except.bind_eq_ok.mp h
  rw [Except.pure_eq_ok, Prod.mk.injEq] at h
  obtain ⟨rfl, rfl⟩ := h
  exact ⟨ht, rfl⟩

/-! ## Start-up -/

/-- A start node that has just come up: its own entry, if the `Put` succeeded. -/
theorem launchStart_eq_ok {s : RaftServer} {put : PutResult} {disk : Disk} {port id : Int32}
    (h : launchStart put disk port id = .ok s) :
    s = ({ new disk with role := .Leader } : RaftServer).appendCfgLog put
      startHost port id := by
  obtain ⟨⟨t, ms⟩, ht, h⟩ := Except.bind_eq_ok.mp h
  rw [Except.pure_eq_ok] at h
  obtain ⟨rfl, _⟩ := Prod.mk.inj (Except.ok.inj ht)
  exact h.symm

end RaftServer
end NanoRaft
