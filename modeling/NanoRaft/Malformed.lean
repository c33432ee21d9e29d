import NanoRaft.Dispatch
import NanoRaft.LeaderInvariant
import NanoRaft.Parsers

/-!
# Malformed payloads

`HandleArrivedMsg` takes a complete frame off the buffer, parses its payload into a new object
of the frame's type and calls the handler with it. What `ParseFromArray` returns is dropped, so
a payload that is rejected reaches the handler as far as it was parsed. The parser is a parameter
here: whatever it makes of the bytes, the handler is called.

* `cut_sets_term`: a message of a few bytes that is cut off makes any node follow its term;
* `rejected_handled`: no rejected payload is ignored, and which of them change nothing.
-/

namespace NanoRaft

namespace Mod

/-- `(*(s_stMessages[iMainID]))[dwSubID]`. -/
def messageType (dwID : UInt16) : Option MessageType :=
  lookup s_stMessages (iMainID dwID) (dwSubID dwID)

/-- Of the types with an id, one has no handler. -/
theorem registered_iff_of_messageType {dwID : UInt16} {t : MessageType}
    (h : messageType dwID = some t) : Registered dwID ↔ t ≠ .requestvote_r := by
  have hhas : HasMessage dwID := Option.isSome_iff_exists.mpr ⟨t, h⟩
  unfold messageType lookup at h
  rw [Option.ite_none_right_eq_some, Option.bind_eq_some_iff] at h
  obtain ⟨hij, row, hrow, hplace⟩ := h
  -- there is one row, and it has six places
  have hmain : (iMainID dwID).toNat = 0 := by
    have hlt : (iMainID dwID).toNat < 1 := (List.getElem?_eq_some_iff.mp hrow).1
    omega
  rw [hmain] at hrow
  obtain rfl := Option.some.inj hrow
  have hsub : (dwSubID dwID).toNat < 6 := (List.getElem?_eq_some_iff.mp hplace).1
  rw [Registered, and_iff_right hhas, lookup, if_pos hij, hmain]
  generalize (dwSubID dwID).toNat = j at hplace hsub ⊢
  interval_cases j <;> obtain rfl := Option.some.inj hplace <;> decide

end Mod

namespace RaftServer

/-- `ModApi::Proc` on an object of a type. `RequestVoteQ` does nothing, and there is no sixth
handler. -/
def procObject (puts : Puts) (s : RaftServer) (fd : ℕ) :
    (t : MessageType) → t.Object → Result (RaftServer × Sends)
  | .handshake_q, q => s.proc puts fd (.handshake_q q)
  | .handshake_r, r => s.proc puts fd (.handshake_r r)
  | .appendentries_q, q => s.proc puts fd (.appendentries_q q)
  | .appendentries_r, r => s.proc puts fd (.appendentries_r r)
  | .requestvote_q, _ => .ok (s, [])
  | .requestvote_r, _ => .error .outOfRange

/-- The term, the role, the log, the commit index, the proxies and the connections are the
same. -/
structure Untouched (s s' : RaftServer) : Prop where
  currentTerm : s'.currentTerm = s.currentTerm
  role : s'.role = s.role
  entries : s'.entries = s.entries
  commitIndex : s'.commitIndex = s.commitIndex
  proxys : s'.proxys = s.proxys
  conns : s'.conns = s.conns

theorem Untouched.refl (s : RaftServer) : s.Untouched s := ⟨rfl, rfl, rfl, rfl, rfl, rfl⟩

/-! ## Messages that change nothing -/

/-- A handshake that arrives at a leader repeats what was said on this connection before. -/
def HarmlessHandshake (s : RaftServer) (fd : ℕ) (q : HandshakeQ) : Prop :=
  s.role = .Leader → ∀ c, s.conns.find? fd = some c →
    s.proxyConnFd q.nodeid = some fd ∧ c.raftPort = q.raftport ∧ c.proxy = some q.nodeid

/-- The message is not newer than the term, ends no election, moves no commit index and leaves
nothing to store. -/
structure HarmlessAppend (puts : Puts) (s : RaftServer) (q : AppendEntriesQ) : Prop where
  term : q.term ≤ s.currentTerm
  role : q.term = s.currentTerm → s.role ≠ .Candidate
  commit : s.followIndex q = s.commitIndex
  entries : s.Accepts q → ∀ t rest, s.conflictScan q.prelogindex 0 q.entries = .ok (t, rest) →
    stored puts.entry s.currentTerm rest = []

/-- The reply is not newer than the term, is not counted, and finds no index to commit. -/
structure HarmlessReply (s : RaftServer) (fd : ℕ) (r : AppendEntriesR) : Prop where
  term : r.term ≤ s.currentTerm
  counters : r.counts = true → ∀ id, s.tiedTo fd = some id → s.proxys.find? id = none
  commit : s.proxys.size / 2 + 1 ≤ s.replicaCount →
    ∀ e, s.entries[(s.commitIndex + 1).toNat]? = some e → e.term ≠ s.currentTerm

/-- The objects whose handling changes nothing. -/
def Harmless (puts : Puts) (s : RaftServer) (fd : ℕ) : (t : MessageType) → t.Object → Prop
  | .handshake_q, q => s.HarmlessHandshake fd q
  | .appendentries_q, q => s.HarmlessAppend puts q
  | .appendentries_r, r => s.HarmlessReply fd r
  | .handshake_r, _ | .requestvote_q, _ | .requestvote_r, _ => True

variable {puts : Puts} {s s' : RaftServer} {fd : ℕ}

/-- A known node: nothing has moved if the proxy and the connection were tied like this
before. -/
theorem Retied.untouched_iff {old : ℕ} {q : HandshakeQ} {c : Conn} (h : s.Retied fd old q s')
    (hc : s.conns.find? fd = some c) (hold : s.proxyConnFd q.nodeid = some old) :
    s.Untouched s' ↔ old = fd ∧ c.raftPort = q.raftport ∧ c.proxy = some q.nodeid := by
  obtain ⟨p, hp, hpfd⟩ := proxyConnFd_eq_some.mp hold
  have hnode := h.proxys q.nodeid
  have hconn := h.conns fd
  rw [if_pos rfl, hp, Option.map_some] at hnode
  rw [if_pos rfl, hc, Option.map_some] at hconn
  constructor
  · intro hu
    rw [hu.proxys, hp, Option.some.injEq] at hnode
    rw [hu.conns, hc, Option.some.injEq] at hconn
    have hfd : p.connFd = some fd := congrArg RaftProxy.connFd hnode
    refine ⟨?_, congrArg Conn.raftPort hconn, congrArg Conn.proxy hconn⟩
    rw [hpfd] at hfd
    exact Option.some.inj hfd
  · rintro ⟨rfl, hport, hproxy⟩
    have hproxys : s'.proxys = s.proxys := by
      apply OrdMap.ext_find?
      intro k
      rw [h.proxys]
      split_ifs with hk
      · rw [hk, hp, Option.map_some, ← hpfd]
      · rfl
    have hconns : s'.conns = s.conns := by
      apply OrdMap.ext_find?
      intro k
      rw [h.conns]
      split_ifs with hk
      · rw [hk, hc, Option.map_some, ← hport, ← hproxy]
        simp
      · rfl
    constructor
    · rw [h.frame]
    · rw [h.frame]
    · rw [h.frame]
    · rw [h.frame]
    · exact hproxys
    · exact hconns

/-- A new node gets a connected proxy, which it did not have. -/
theorem Welcomed.not_untouched {put : PutResult} {q : HandshakeQ} {c : Conn}
    (h : s.Welcomed put fd c q s') (hnew : s.proxyConnFd q.nodeid = none) :
    ¬ s.Untouched s' := by
  intro hu
  have hnode := h.proxys q.nodeid
  rw [if_pos rfl, hu.proxys] at hnode
  rw [proxyConnFd, hnode] at hnew
  cases hnew

theorem handshakeQ_untouched_iff {q : HandshakeQ} {ms : Sends}
    (h : s.handshakeQ puts fd q = .ok (s', ms)) :
    s.Untouched s' ↔ s.HarmlessHandshake fd q := by
  unfold HarmlessHandshake
  rcases hc : s.conns.find? fd with _ | c
  · rw [handshakeQ, hc] at h
    obtain ⟨rfl, _⟩ := Prod.mk.inj (Except.ok.inj h)
    exact iff_of_true (Untouched.refl s) fun _ c hc => by cases hc
  · rcases handshakeQ_cases h with ⟨hnone, _⟩ | ⟨hrole, hs', _⟩ | ⟨hlead, ⟨old, hold, hret⟩, _⟩ |
      ⟨hlead, hnew, ⟨c', _, hwel⟩, _⟩
    · rw [hc] at hnone
      cases hnone
    · rw [hs']
      exact iff_of_true (Untouched.refl s) fun hlead => absurd hlead hrole
    · rw [hret.untouched_iff hc hold, hold]
      simp [hlead]
    · rw [hnew]
      apply iff_of_false (hwel.not_untouched hnew)
      simp [hlead]

/-! ### `AppendEntriesQ` -/

/-- The entries after a call in the own term: those that the scan leaves are stored. -/
theorem appendEntriesQ_untouched_entries_iff {q : AppendEntriesQ} {r : AppendEntriesR}
    (hle : q.term ≤ s.currentTerm) (hrole : q.term = s.currentTerm → s.role ≠ .Candidate)
    (h : s.appendEntriesQ puts q = .ok (s', r)) :
    s'.entries = s.entries ↔ (s.Accepts q →
      ∀ t rest, s.conflictScan q.prelogindex 0 q.entries = .ok (t, rest) →
        stored puts.entry s.currentTerm rest = []) := by
  rcases appendEntriesQ_cases h with ⟨hst, he⟩ | ⟨_, hprev, he⟩ | ⟨ha, hemp, he⟩ |
    ⟨ha, _, s1, hs1, he⟩
  · rw [show s' = s.followCommit q from congrArg Prod.fst he, followCommit_frame]
    exact iff_of_true rfl fun ha => absurd ha.term (not_le.mpr hst)
  · rw [show s' = (s.adoptTerm q).followCommit q from congrArg Prod.fst he, followCommit_frame]
    exact iff_of_true rfl fun ha => absurd ha.prev hprev
  · rw [show s' = (s.adoptTerm q).freshTime.followCommit q from congrArg Prod.fst he,
      followCommit_frame]
    refine iff_of_true rfl fun _ t rest hscan => ?_
    rw [hemp] at hscan
    obtain ⟨_, rfl⟩ := Prod.mk.inj (Except.ok.inj hscan)
    rfl
  · have hterm : q.term = s.currentTerm := le_antisymm hle ha.term
    rw [adoptTerm_eq_self hterm (hrole hterm)] at hs1
    obtain ⟨⟨t, rest⟩, hscan, hstore⟩ := Except.bind_eq_ok.mp hs1
    obtain ⟨db, logs, ht⟩ := conflictScan_frame hscan
    obtain ⟨db', hloop⟩ := appendLoop_frame puts.entry t rest
    rw [Except.pure_eq_ok] at hstore
    have hentries : s'.entries = s.entries ++ stored puts.entry s.currentTerm rest := by
      rw [show s' = s1.followCommit q from congrArg Prod.fst he, followCommit_frame, ← hstore,
        hloop, ht]
    rw [hentries, List.append_right_eq_self]
    constructor
    · intro hnil _ t' rest' hscan'
      rw [hscan] at hscan'
      obtain ⟨_, rfl⟩ := Prod.mk.inj (Except.ok.inj hscan')
      exact hnil
    · intro hall
      exact hall ha t rest hscan

theorem appendEntriesQ_untouched_iff {q : AppendEntriesQ} {r : AppendEntriesR}
    (h : s.appendEntriesQ puts q = .ok (s', r)) : s.Untouched s' ↔ s.HarmlessAppend puts q := by
  have hterm := appendEntriesQ_currentTerm h
  have hrole := appendEntriesQ_role h
  have hcommit := appendEntriesQ_commitIndex h
  constructor
  · intro hu
    rw [hu.currentTerm] at hterm
    rw [hu.commitIndex] at hcommit
    have hle : q.term ≤ s.currentTerm := max_eq_left_iff.mp hterm.symm
    have helect : q.term = s.currentTerm → s.role ≠ .Candidate := by
      intro heq hcand
      rw [hu.role, if_neg (heq ▸ lt_irrefl _), adoptTerm, if_pos (Or.inr hcand), hcand] at hrole
      cases hrole
    exact ⟨hle, helect, hcommit.symm,
      (appendEntriesQ_untouched_entries_iff hle helect h).mp hu.entries⟩
  · intro hh
    obtain ⟨_, _, _, new, _, _, _, hframe⟩ := appendEntriesQ_frame h
    constructor
    · rw [hterm, max_eq_left hh.term]
    · rw [hrole]
      split_ifs with hst
      · rfl
      · have heq : q.term = s.currentTerm := le_antisymm hh.term (not_lt.mp hst)
        rw [adoptTerm_eq_self heq (hh.role heq)]
    · exact (appendEntriesQ_untouched_entries_iff hh.term hh.role h).mpr hh.entries
    · rw [hcommit, hh.commit]
    · rw [hframe]
    · rw [hframe]

/-! ### `AppendEntriesR` -/

/-- A reply that is counted for no proxy changes nothing by being counted. -/
theorem countReply_eq_self {r : AppendEntriesR}
    (h : r.counts = true → ∀ id, s.tiedTo fd = some id → s.proxys.find? id = none) :
    s.countReply fd r = s := by
  have hproxys : (s.countReply fd r).proxys = s.proxys := by
    apply OrdMap.ext_find?
    intro id
    rw [countReply_proxys]
    split_ifs with hc
    · rw [h hc.1 id hc.2]
      rfl
    · rfl
  rw [countReply_frame, hproxys]

/-- A reply that leaves every proxy alone was counted for none. -/
theorem uncounted_of_proxys_eq {r : AppendEntriesR}
    (h : (s.countReply fd r).proxys = s.proxys) (hcounts : r.counts = true) (id : UInt32)
    (htied : s.tiedTo fd = some id) : s.proxys.find? id = none := by
  have hfind := countReply_proxys s fd r id
  rw [h, if_pos ⟨hcounts, htied⟩] at hfind
  cases hp : s.proxys.find? id with
  | none => rfl
  | some p =>
    rw [hp, Option.map_some, Option.some.injEq] at hfind
    have hmatch : p.matchIndex = p.matchIndex + 1 := congrArg RaftProxy.matchIndex hfind
    simp at hmatch

theorem appendEntriesR_untouched_iff {r : AppendEntriesR}
    (h : s.appendEntriesR puts fd r = .ok s') : s.Untouched s' ↔ s.HarmlessReply fd r := by
  rcases appendEntriesR_cases h with ⟨hlt, hs'⟩ | ⟨hle, b, hchange⟩
  · rw [hs']
    apply iff_of_false
    · intro hu
      exact absurd hu.currentTerm (ne_of_gt hlt)
    · intro hh
      exact absurd hh.term (not_le.mpr hlt)
  · constructor
    · intro hu
      obtain ⟨k, hk⟩ := changeCommitIndex_frame hchange
      have hproxys : (s.countReply fd r).proxys = s.proxys := by
        rw [← hu.proxys, hk]
      have hcounters := uncounted_of_proxys_eq hproxys
      refine ⟨hle, hcounters, fun hmost e he heq => ?_⟩
      -- the commit index would have been counted up
      rw [countReply_eq_self hcounters, changeCommitIndex_of_most hmost he, if_pos heq] at hchange
      obtain ⟨rfl, _⟩ := Prod.mk.inj (Except.ok.inj hchange)
      have hcommit : s.commitIndex + 1 = s.commitIndex := hu.commitIndex
      simp at hcommit
    · intro hh
      rw [countReply_eq_self hh.counters] at hchange
      rcases changeCommitIndex_cases hchange with ⟨rfl, _⟩ | ⟨hmost, ⟨e, he, heq⟩, _⟩
      · exact Untouched.refl _
      · exact absurd heq (hh.commit hmost e he)

/-! ### Every handler -/

theorem procObject_untouched_iff {t : MessageType} {o : t.Object} {ms : Sends}
    (h : s.procObject puts fd t o = .ok (s', ms)) :
    s.Untouched s' ↔ s.Harmless puts fd t o := by
  cases t with
  | handshake_q => exact handshakeQ_untouched_iff h
  | handshake_r =>
    obtain ⟨rfl, _⟩ := Prod.mk.inj (Except.ok.inj h)
    exact iff_of_true (Untouched.refl s) trivial
  | appendentries_q =>
    obtain ⟨r, hr, _⟩ := proc_appendEntriesQ h
    exact appendEntriesQ_untouched_iff hr
  | appendentries_r => exact appendEntriesR_untouched_iff (proc_appendEntriesR h).1
  | requestvote_q =>
    obtain ⟨rfl, _⟩ := Prod.mk.inj (Except.ok.inj h)
    exact iff_of_true (Untouched.refl s) trivial
  | requestvote_r => cases h

end RaftServer

/-! ## One frame -/

/-- A server with the input buffer of the connection `fd` that is read, and the calls of a
handler made so far. -/
structure Inbox where
  server : RaftServer
  fd : ℕ
  buffer : Buffer
  calls : List ((t : MessageType) × t.Object)

namespace Inbox

variable (ParseFromArray : (t : MessageType) → Bytes → Bool × t.Object)

/-- One iteration of `HandleArrivedMsg`: nothing if it returns. -/
def handleArrivedMsg (puts : Puts) (i : Inbox) : Result (Option Inbox) :=
  match i.buffer.arrivedMsg with
  | .returned => .ok none
  | .outOfTables => .error .outOfRange
  | .dispatched f b =>
    match Mod.messageType f.id with
    | none => .error .outOfRange
    | some t => do
      -- the flag is not looked at
      let (_, pstMessage) := ParseFromArray t f.payload
      let (s, _) ← i.server.procObject puts i.fd t pstMessage
      pure (some { i with server := s, buffer := b, calls := i.calls ++ [⟨t, pstMessage⟩] })

/-- A complete frame with the id of a type is at the front, and its payload is rejected. -/
structure Malformed (i : Inbox) (t : MessageType) : Prop where
  complete : i.buffer.Complete
  type : Mod.messageType i.buffer.dwID = some t
  rejected : (ParseFromArray t i.buffer.payload).1 = false

/-- The frame is consumed without a call of its handler, and nothing else happens. -/
def Ignores (puts : Puts) (i : Inbox) : Prop :=
  ∃ i', i.handleArrivedMsg ParseFromArray puts = .ok (some i') ∧
    i'.buffer = i.buffer.takeOff ∧ i'.calls = i.calls ∧ i.server.Untouched i'.server

variable {ParseFromArray} {puts : Puts} {i i' : Inbox} {t : MessageType}

/-- The inbox after its handler has left the server `s`. -/
def handled (i : Inbox) (t : MessageType) (pstMessage : t.Object) (s : RaftServer) : Inbox :=
  { i with
    server := s
    buffer := i.buffer.takeOff
    calls := i.calls ++ [⟨t, pstMessage⟩] }

/-- What is done with a malformed frame: as with any other, the handler is called. -/
theorem Malformed.handleArrivedMsg_eq_ok (h : i.Malformed ParseFromArray t) :
    i.handleArrivedMsg ParseFromArray puts = .ok (some i') ↔
      ∃ s ms, i.server.procObject puts i.fd t (ParseFromArray t i.buffer.payload).2 = .ok (s, ms) ∧
        i' = i.handled t (ParseFromArray t i.buffer.payload).2 s := by
  have harrived : i.buffer.arrivedMsg = if Mod.Registered i.buffer.dwID then
      .dispatched ⟨i.buffer.dwID, i.buffer.payload⟩ i.buffer.takeOff else .outOfTables := by
    unfold Buffer.arrivedMsg
    rw [if_neg h.complete.1, if_neg h.complete.2]
  unfold handleArrivedMsg
  rw [harrived]
  by_cases hreg : Mod.Registered i.buffer.dwID
  · rw [if_pos hreg]
    simp only [h.type]
    rw [Except.bind_eq_ok]
    constructor
    · rintro ⟨⟨s, ms⟩, hproc, hi'⟩
      rw [Except.pure_eq_ok, Option.some.injEq] at hi'
      exact ⟨s, ms, hproc, hi'.symm⟩
    · rintro ⟨s, ms, hproc, rfl⟩
      exact ⟨(s, ms), hproc, rfl⟩
  · -- the type without a handler
    have ht : t = .requestvote_r :=
      not_not.mp fun hne => hreg ((Mod.registered_iff_of_messageType h.type).mpr hne)
    rw [if_neg hreg]
    apply iff_of_false
    · intro herr
      cases herr
    · rintro ⟨s, ms, hproc, _⟩
      subst ht
      cases hproc

/-- A header and a first field are enough to raise the term: an `appendentries_q` cut off behind
the tag of its entries is malformed, and the server is a follower in its term afterwards. -/
theorem cut_sets_term {lib : Protobuf} {term : UInt32} (hcomplete : i.buffer.Complete)
    (hid : i.buffer.dwID = 259)
    (hpayload : i.buffer.payload = Entry.varintField 0x08 term.toNat ++ [0x2A])
    (hlt : i.server.currentTerm < term) (hput : puts.term = true) (hlogs : i.server.logs = []) :
    i.Malformed (MessageType.parseFromArray lib) .appendentries_q ∧
    ∃ i', i.handleArrivedMsg (MessageType.parseFromArray lib) puts = .ok (some i') ∧
      i'.server.currentTerm = term ∧ i'.server.role = .Follower := by
  have hparse := MessageType.parseFromArray_cut lib term
  rw [← hpayload] at hparse
  have hm : i.Malformed (MessageType.parseFromArray lib) .appendentries_q := by
    refine ⟨hcomplete, ?_, ?_⟩
    · rw [hid]
      decide
    · rw [hparse]
  obtain ⟨s', r, hs'⟩ : ∃ s' r,
      i.server.appendEntriesQ puts ⟨term, 0, 0, 0, [Entry.new]⟩ = .ok (s', r) := by
    apply RaftServer.appendEntriesQ_of_prevMatches hlt.le (fun _ => hput) hlogs
    · exact fun hpos => absurd hpos (lt_irrefl 0)
    · show ((0 : UInt32) + 1).toNat ≠ 2 ^ 32 - 1
      decide
  have hproc : i.server.procObject puts i.fd .appendentries_q
      (MessageType.parseFromArray lib .appendentries_q i.buffer.payload).2 =
        .ok (s', [(i.fd, .appendentries_r r)]) := by
    rw [hparse, RaftServer.procObject, RaftServer.proc, hs']
    rfl
  refine ⟨hm, _, hm.handleArrivedMsg_eq_ok.mpr ⟨s', _, hproc, rfl⟩, ?_, ?_⟩
  · show s'.currentTerm = term
    rw [RaftServer.appendEntriesQ_currentTerm hs', max_eq_right hlt.le]
  · show s'.role = .Follower
    rw [RaftServer.appendEntriesQ_role hs', if_neg (not_lt.mpr hlt.le), RaftServer.adoptTerm,
      if_pos (Or.inl hlt)]

/-- A node that has just joined, with an `appendentries_q` of term 5 that is cut off. -/
def cutOff : Inbox where
  server := .launchJoin ⟨none, .empty⟩ 5 [] 7777
  fd := 5
  buffer := (⟨fun _ => 0, 0⟩ : Buffer).recv [3, 1, 3, 0, 0, 0, 0x08, 5, 0x2A]
  calls := []

theorem payload_cutOff :
    cutOff.buffer.payload = Entry.varintField 0x08 (5 : UInt32).toNat ++ [0x2A] := by
  decide +kernel

theorem malformed_cutOff (lib : Protobuf) :
    cutOff.Malformed (MessageType.parseFromArray lib) .appendentries_q ∧
    ∃ i', cutOff.handleArrivedMsg (MessageType.parseFromArray lib) .allOk = .ok (some i') ∧
      i'.server.currentTerm = 5 ∧ i'.server.role = .Follower :=
  cut_sets_term (by decide +kernel) (by decide +kernel) payload_cutOff (by decide) rfl rfl

/-- **No malformed frame is ignored.** Where the iteration comes back, the handler has been
called with what was parsed, and the server is the same after it exactly when that object is
harmless. -/
theorem rejected_handled (puts : Puts) (h : i.Malformed ParseFromArray t) :
    ¬ i.Ignores ParseFromArray puts ∧
    ∀ i', i.handleArrivedMsg ParseFromArray puts = .ok (some i') →
      i'.calls = i.calls ++ [⟨t, (ParseFromArray t i.buffer.payload).2⟩] ∧
      (i.server.Untouched i'.server ↔
        i.server.Harmless puts i.fd t (ParseFromArray t i.buffer.payload).2) := by
  constructor
  · rintro ⟨i', hi', _, hcalls, _⟩
    obtain ⟨s, ms, _, rfl⟩ := h.handleArrivedMsg_eq_ok.mp hi'
    simp [handled] at hcalls
  · intro i' hi'
    obtain ⟨s, ms, hproc, rfl⟩ := h.handleArrivedMsg_eq_ok.mp hi'
    exact ⟨rfl, RaftServer.procObject_untouched_iff hproc⟩

theorem rejected_handled_cutOff :
    ¬ cutOff.Ignores (MessageType.parseFromArray RaftServer.asciiProtobuf) .allOk :=
  (rejected_handled .allOk (malformed_cutOff _).1).1

/-- The node is in term 5 after a payload that was rejected. -/
theorem rejected_sets_term :
    ¬ ∀ (i : Inbox) (puts : Puts) (t : MessageType),
      i.Malformed (MessageType.parseFromArray RaftServer.asciiProtobuf) t →
        i.Ignores (MessageType.parseFromArray RaftServer.asciiProtobuf) puts := by
  intro hall
  obtain ⟨hm, i', hi', hterm, _⟩ := malformed_cutOff RaftServer.asciiProtobuf
  obtain ⟨i'', hi'', _, _, hsame⟩ := hall cutOff .allOk .appendentries_q hm
  rw [hi'] at hi''
  obtain rfl := Option.some.inj (Except.ok.inj hi'')
  rw [hsame.currentTerm] at hterm
  exact absurd hterm (by decide)

end Inbox
end NanoRaft
