import NanoRaft.Lib.Except
import NanoRaft.RaftServer

/-!
# Facts about the server functions

One specification for each function of `RaftServer`: which fields it leaves alone, and
what a successful call returned. Later proofs use these and do not unfold the functions.
-/

namespace NanoRaft

/-- The entry as `AppendCfgLog` rebuilds it in term `term`. -/
def Entry.restamp (e : Entry) (term : UInt32) : Entry :=
  { e with type := .CFGADD, term := term, write_it := 0 }

@[simp] theorem Entry.restamp_term (e : Entry) (t : UInt32) : (e.restamp t).term = t := rfl

/-- An entry survives being rebuilt exactly when it is a `CFGADD` of that term without a
payload. -/
theorem Entry.restamp_eq_self {e : Entry} {t : UInt32} :
    e.restamp t = e ↔ e.type = .CFGADD ∧ e.term = t ∧ e.write_it = 0 := by
  obtain ⟨ty, tm, _, _, _, w⟩ := e
  simp only [restamp, mk.injEq, true_and]
  constructor
  · rintro ⟨h1, h2, h3⟩
    exact ⟨h1.symm, h2.symm, h3.symm⟩
  · rintro ⟨h1, h2, h3⟩
    exact ⟨h1.symm, h2.symm, h3.symm⟩

namespace RaftServer

/-! ## Reading the log -/

theorem lastEntryIndex_eq (s : RaftServer) : s.lastEntryIndex = s.entries.length - 1 := by
  unfold lastEntryIndex
  cases s.entries with
  | nil => rfl
  | cons e es => rfl

/-- A length below the 32-bit successor of an index leaves the index outside. -/
theorem getElem?_of_length_lt_succ {α : Type*} {l : List α} {i : UInt32}
    (h : l.length < (i + 1).toNat) : l[i.toNat]? = none := by
  rw [UInt32.toNat_add] at h
  have h1 : (1 : UInt32).toNat = 1 := rfl
  have hi : i.toNat < 2 ^ 32 := i.toNat_lt
  rw [List.getElem?_eq_none_iff]
  -- where the successor wraps to 0, no length is below it
  omega

/-- `EntryTermByIndex` and `LogTermByIndex` return `-1` beyond the end and the term within
the log. -/
theorem termByIndex_eq_ok {terms : List UInt32} {i : UInt32} {t : Int32}
    (h : termByIndex terms i = .ok t) :
    (terms[i.toNat]? = none ∧ t = -1) ∨ ∃ x, terms[i.toNat]? = some x ∧ t = x.toInt32 := by
  unfold termByIndex at h
  split at h
  · next hlt =>
    injection h with h
    exact Or.inl ⟨getElem?_of_length_lt_succ hlt, h.symm⟩
  · split at h
    · next x hx =>
      injection h with h
      exact Or.inr ⟨x, hx, h.symm⟩
    · cases h

theorem logTermByIndex_of_absent {s : RaftServer} {i : UInt32} {t : Int32}
    (habs : s.logs[i.toNat]? = none) (h : s.logTermByIndex i = .ok t) : t = -1 := by
  rcases termByIndex_eq_ok h with ⟨_, ht⟩ | ⟨x, hx, _⟩
  · exact ht
  · rw [List.getElem?_map, habs] at hx
    cases hx

theorem entryTermByIndex_eq_ok {s : RaftServer} {i : UInt32} {t : Int32}
    (h : s.entryTermByIndex i = .ok t) :
    (s.entries[i.toNat]? = none ∧ t = -1) ∨
      ∃ e, s.entries[i.toNat]? = some e ∧ t = e.term.toInt32 := by
  rcases termByIndex_eq_ok h with ⟨hn, ht⟩ | ⟨x, hx, ht⟩
  · rw [List.getElem?_map, Option.map_eq_none_iff] at hn
    exact Or.inl ⟨hn, ht⟩
  · rw [List.getElem?_map, Option.map_eq_some_iff] at hx
    obtain ⟨e, he, rfl⟩ := hx
    exact Or.inr ⟨e, he, ht⟩

theorem entryTermByIndex_of_getElem? {s : RaftServer} {i : UInt32} {e : Entry}
    (h : s.entries[i.toNat]? = some e) : s.entryTermByIndex i = .ok e.term.toInt32 := by
  unfold entryTermByIndex termByIndex
  rw [List.length_map, List.getElem?_map, h, if_neg]
  · rfl
  · intro hlt
    rw [getElem?_of_length_lt_succ hlt] at h
    cases h

theorem entryByIndex_eq_ok {s : RaftServer} {i : UInt32} {e : Entry} :
    s.entryByIndex i = .ok e ↔ s.entries[i.toNat]? = some e := by
  unfold entryByIndex
  cases s.entries[i.toNat]? with
  | none => simp
  | some x => simp

/-! ## Proxies and connections -/

/-- `AddProxy` makes a proxy for the id if there is none, and leaves the others alone. -/
theorem addProxy_find? (s : RaftServer) (dwID k : UInt32) :
    (s.addProxy dwID).proxys.find? k =
      if k = dwID then some { (s.proxys.find? dwID).getD .new with state := .IsVoting }
      else s.proxys.find? k := by
  unfold addProxy
  cases h : s.proxys.find? dwID with
  | none =>
    show (s.proxys.insert dwID .new).find? k = _
    rw [OrdMap.find?_insert]
    rfl
  | some p =>
    show (s.proxys.modify dwID fun p => { p with state := .IsVoting }).find? k = _
    rw [OrdMap.find?_modify, h]
    rfl

theorem addProxy_frame (s : RaftServer) (dwID : UInt32) :
    s.addProxy dwID = { s with proxys := (s.addProxy dwID).proxys } := by
  unfold addProxy
  split <;> rfl

theorem tie_eq_ok {s s' : RaftServer} {fd : ℕ} {dwID : UInt32} (h : s.tie fd dwID = .ok s') :
    s' = { s with
      conns := s.conns.modify fd fun c => { c with proxy := some dwID }
      proxys := s.proxys.modify dwID fun p => { p with connFd := some fd } } := by
  unfold tie at h
  split at h
  · cases h
  · injection h with h
    exact h.symm

/-- A tie to a proxy that is there. -/
theorem tie_of_find? {s : RaftServer} (fd : ℕ) {dwID : UInt32} {p : RaftProxy}
    (h : s.proxys.find? dwID = some p) : ∃ s', s.tie fd dwID = .ok s' := by
  rw [tie, h]
  exact ⟨_, rfl⟩

/-- `Conn::Server_CloseConn` on another connection's behalf: the caller's channel is
disabled and the named connection is forgotten. -/
theorem closeConn_eq_ok {s s' : RaftServer} {fd iFd : ℕ} (h : s.closeConn fd iFd = .ok s') :
    s' = { s with
      conns := (s.conns.modify fd fun c => { c with reading := false }).erase iFd } := by
  unfold closeConn offlineConn at h
  split at h
  · cases h
  · injection h with h
    exact h.symm

theorem proxyConnFd_eq_some {s : RaftServer} {dwID : UInt32} {fd : ℕ} :
    s.proxyConnFd dwID = some fd ↔
      ∃ p, s.proxys.find? dwID = some p ∧ p.connFd = some fd :=
  Option.bind_eq_some_iff

/-! ## Appending and deleting -/

theorem appendCfgLog_of_ok {put : PutResult} {s : RaftServer} {strHost : Bytes}
    {iRaftPort iNodeID : Int32} (h : put.ok = true) :
    s.appendCfgLog put strHost iRaftPort iNodeID = { s with
      entries := s.entries ++ [s.cfgEntry strHost iRaftPort iNodeID]
      entriesDB := s.entriesDB.put (UInt32.ofNat s.entries.length)
        (sliceOfCStr (s.cfgEntry strHost iRaftPort iNodeID).serialize put.after) } := by
  rw [appendCfgLog, h]
  rfl

theorem appendCfgLog_of_refused {put : PutResult} {s : RaftServer} {strHost : Bytes}
    {iRaftPort iNodeID : Int32} (h : put.ok = false) :
    s.appendCfgLog put strHost iRaftPort iNodeID = s := by
  rw [appendCfgLog, h]
  rfl

/-- `AppendCfgLog` touches the log and the entries DB only, and neither if the `Put` was
refused. -/
theorem appendCfgLog_frame (put : PutResult) (s : RaftServer) (h : Bytes) (p n : Int32) :
    ∃ db, s.appendCfgLog put h p n = { s with
        entries := s.entries ++ if put.ok then [s.cfgEntry h p n] else []
        entriesDB := db }
      ∧ (put.ok = false → db = s.entriesDB) := by
  cases hp : put.ok with
  | true => exact ⟨_, appendCfgLog_of_ok hp, by simp⟩
  | false =>
    refine ⟨s.entriesDB, ?_, fun _ => rfl⟩
    rw [appendCfgLog_of_refused hp]
    simp

/-- The loop of `DelLogsFromIndex`: the keys it is handed are gone afterwards, and no other
field than the DB and the deprecated log is touched. -/
theorem deleteLoop_spec (l : List (ℕ × UInt32 × Bytes)) (s : RaftServer) : ∃ db logs,
    l.foldl (fun s kv => { s with
      entriesDB := s.entriesDB.erase kv.1, logs := s.logs.dropLast }) s
        = { s with entriesDB := db, logs := logs } ∧
    (s.logs = [] → logs = []) ∧ (∀ kv ∈ db.toList, kv ∈ s.entriesDB.toList) ∧
    ∀ kv ∈ l, db.find? kv.1 = none := by
  induction l generalizing s with
  | nil => exact ⟨s.entriesDB, s.logs, rfl, id, fun _ => id, fun kv hkv => by cases hkv⟩
  | cons p l ih =>
    -- every round deletes one key and pops one element, whichever keys are left
    obtain ⟨db, logs, hs, hlogs, hsub, hgone⟩ :=
      ih { s with entriesDB := s.entriesDB.erase p.1, logs := s.logs.dropLast }
    refine ⟨db, logs, hs, fun hnil => hlogs ?_, fun kv hkv => ?_, fun kv hkv => ?_⟩
    · show s.logs.dropLast = []
      rw [hnil]
      rfl
    · exact (List.mem_filter.mp (hsub kv hkv)).1
    · rcases List.mem_cons.mp hkv with rfl | hkv
      · -- a key that is gone does not come back
        cases hfind : db.find? kv.1 with
        | none => rfl
        | some v =>
          have hmem := hsub _ (OrdMap.mem_toList_iff.mpr hfind)
          exact absurd rfl (of_decide_eq_true (List.mem_filter.mp hmem).2)
      · exact hgone kv hkv

/-- `DelLogsFromIndex` deletes from the DB and from the deprecated log, never from
`m_stEntries_`. -/
theorem delLogsFromIndex_frame (s : RaftServer) (i : UInt32) :
    ∃ db logs, s.delLogsFromIndex i = { s with entriesDB := db, logs := logs } := by
  unfold delLogsFromIndex
  split
  · exact ⟨s.entriesDB, s.logs, rfl⟩
  · obtain ⟨db, logs, hs, _⟩ := deleteLoop_spec (s.entriesDB.seek (indexKey i)) s
    exact ⟨db, logs, hs⟩

/-- It leaves the server as it is exactly if it does not look for keys, or finds none. -/
theorem delLogsFromIndex_eq_self_iff {s : RaftServer} {i : UInt32} :
    s.delLogsFromIndex i = s ↔
      s.logs.length < (i + 1).toNat ∨ s.entriesDB.seek (indexKey i) = [] := by
  unfold delLogsFromIndex
  split
  · next hlt => exact iff_of_true rfl (Or.inl hlt)
  · next hlt =>
    constructor
    · intro hself
      refine Or.inr (List.eq_nil_iff_forall_not_mem.mpr fun kv hkv => ?_)
      obtain ⟨db, logs, hs, _, _, hgone⟩ := deleteLoop_spec (s.entriesDB.seek (indexKey i)) s
      have hdb : db = s.entriesDB := congrArg entriesDB (hs.symm.trans hself)
      -- a key that is found is deleted
      have hfind : s.entriesDB.find? kv.1 = some kv.2 :=
        OrdMap.mem_toList_iff.mp (List.mem_filter.mp hkv).1
      rw [← hdb, hgone kv hkv] at hfind
      cases hfind
    · rintro (h | h)
      · exact absurd h hlt
      · rw [h, List.foldl_nil]

/-- Otherwise a key that was in the DB is gone, and none has come in. -/
theorem delLogsFromIndex_of_ne_self {s : RaftServer} {i : UInt32} (h : s.delLogsFromIndex i ≠ s) :
    ∃ db logs, s.delLogsFromIndex i = { s with entriesDB := db, logs := logs } ∧
      (∀ kv ∈ db.toList, kv ∈ s.entriesDB.toList) ∧
      ∃ kv ∈ s.entriesDB.toList, db.find? kv.1 = none := by
  rw [ne_eq, delLogsFromIndex_eq_self_iff, not_or] at h
  obtain ⟨kv, hkv⟩ := List.exists_mem_of_ne_nil _ h.2
  obtain ⟨db, logs, hs, _, hsub, hgone⟩ := deleteLoop_spec (s.entriesDB.seek (indexKey i)) s
  refine ⟨db, logs, ?_, hsub, kv, (List.mem_filter.mp hkv).1, hgone kv hkv⟩
  rw [delLogsFromIndex, if_neg h.1, hs]

/-! ## Sending -/

/-- A message built for a proxy names the entry before `NextIndex()` and carries nothing,
or the entry at `NextIndex()`, after entry 0 if `NextIndex()` is 1. -/
theorem buildAppendEntries_cases {s : RaftServer} {p : RaftProxy} {q : AppendEntriesQ}
    (h : s.buildAppendEntries p = .ok q) :
    q.term = s.currentTerm ∧ q.prelogindex = (p.nextIndex - 1).toUInt32 ∧
    q.leadercommit = s.commitIndex ∧
    (q.entries = [] ∨ (p.nextIndex.toNat ≤ s.lastEntryIndex ∧
      ∃ e, s.entries[p.nextIndex.toUInt32.toNat]? = some e ∧
        ((p.nextIndex - 1 = 0 ∧ ∃ e0, s.entries[0]? = some e0 ∧ q.entries = [e0, e]) ∨
          (p.nextIndex - 1 ≠ 0 ∧ q.entries = [e])))) := by
  unfold buildAppendEntries at h
  obtain ⟨t, _, h⟩ := Except.bind_eq_ok.mp h
  dsimp only at h
  split at h
  · next hle =>
    split at h
    · next hz =>
      -- the first message to a node starts with entry 0
      obtain ⟨first, hfirst, h⟩ := Except.bind_eq_ok.mp h
      obtain ⟨e, he, h⟩ := Except.bind_eq_ok.mp h
      obtain ⟨e0, he0, hf⟩ := Except.map_eq_ok.mp hfirst
      rw [Except.pure_bind_ok, Except.pure_eq_ok] at h
      subst h hf
      exact ⟨rfl, rfl, rfl, Or.inr ⟨hle, e, entryByIndex_eq_ok.mp he,
        Or.inl ⟨hz, e0, entryByIndex_eq_ok.mp he0, rfl⟩⟩⟩
    · next hz =>
      rw [Except.pure_bind_ok] at h
      obtain ⟨e, he, h⟩ := Except.bind_eq_ok.mp h
      rw [Except.pure_bind_ok, Except.pure_eq_ok] at h
      subst h
      exact ⟨rfl, rfl, rfl, Or.inr ⟨hle, e, entryByIndex_eq_ok.mp he, Or.inr ⟨hz, rfl⟩⟩⟩
  · rw [Except.pure_bind_ok, Except.pure_eq_ok] at h
    subst h
    exact ⟨rfl, rfl, rfl, Or.inl rfl⟩

theorem connSendAppendEntries_mem {s : RaftServer} {iFd fd : ℕ} {ms : Sends} {m : Message}
    (h : s.connSendAppendEntries iFd = .ok ms) (hm : (fd, m) ∈ ms) :
    ∃ cn dwID p q, s.conns.find? fd = some cn ∧ cn.proxy = some dwID ∧
      s.proxys.find? dwID = some p ∧ s.buildAppendEntries p = .ok q ∧
      m = .appendentries_q q := by
  unfold connSendAppendEntries at h
  split at h
  · injection h with h
    rw [← h] at hm
    cases hm
  · next dwID hid =>
    split at h
    · injection h with h
      rw [← h] at hm
      cases hm
    · next p hp =>
      obtain ⟨q, hq, h⟩ := Except.bind_eq_ok.mp h
      rw [Except.pure_eq_ok] at h
      rw [← h, List.mem_singleton, Prod.mk.injEq] at hm
      obtain ⟨cn, hcn, hprox⟩ := Option.bind_eq_some_iff.mp hid
      rw [hm.1]
      exact ⟨cn, dwID, p, q, hcn, hprox, hp, hq, hm.2⟩

/-- A broadcast sends `appendentries_q` messages only, each on a tied connection and built
for the proxy the connection is tied to. -/
theorem broadCastAppendEntries_mem {s : RaftServer} {fd : ℕ} {ms : Sends} {m : Message}
    (h : s.broadCastAppendEntries = .ok ms) (hm : (fd, m) ∈ ms) :
    ∃ cn dwID p q, s.conns.find? fd = some cn ∧ cn.proxy = some dwID ∧
      s.proxys.find? dwID = some p ∧ s.buildAppendEntries p = .ok q ∧
      m = .appendentries_q q := by
  unfold broadCastAppendEntries at h
  generalize s.proxys.values = ps at h
  induction ps generalizing ms with
  | nil =>
    injection h with h
    rw [← h] at hm
    cases hm
  | cons p ps ih =>
    unfold broadCastLoop at h
    split at h
    · -- an inactive proxy is passed over
      rw [Except.pure_bind_ok] at h
      obtain ⟨rest, hrest, h⟩ := Except.bind_eq_ok.mp h
      rw [Except.pure_eq_ok, List.nil_append] at h
      rw [← h] at hm
      exact ih hm hrest
    · obtain ⟨ms1, h1, h⟩ := Except.bind_eq_ok.mp h
      obtain ⟨rest, hrest, h⟩ := Except.bind_eq_ok.mp h
      rw [Except.pure_eq_ok] at h
      rw [← h, List.mem_append] at hm
      rcases hm with hm | hm
      · unfold proxySendAppendEntries at h1
        split at h1
        · injection h1 with h1
          rw [← h1] at hm
          cases hm
        · exact connSendAppendEntries_mem h1 hm
      · exact ih hm hrest

/-- `BecomeLeader` sets the role and resets proxies. -/
theorem becomeLeader_frame {s s' : RaftServer} {ms : Sends} (h : s.becomeLeader = .ok (s', ms)) :
    ∃ proxys, s' = { s with role := .Leader, proxys := proxys } := by
  -- by induction on the ids still to be visited, for every server the loop goes on with
  have key : ∀ (ids : List UInt32) (s s' : RaftServer) (ms : Sends),
      s.becomeLeaderLoop ids = .ok (s', ms) → ∃ proxys, s' = { s with proxys := proxys } := by
    intro ids
    induction ids with
    | nil =>
      intro s s' ms h
      injection h with h
      injection h with h _
      exact ⟨s.proxys, h.symm⟩
    | cons id ids ih =>
      intro s s' ms h
      unfold becomeLeaderLoop at h
      split at h
      · cases h
      · split at h
        · exact ih _ _ _ h
        · obtain ⟨ms1, _, h⟩ := Except.bind_eq_ok.mp h
          obtain ⟨⟨s2, rest⟩, h2, h⟩ := Except.bind_eq_ok.mp h
          rw [Except.pure_eq_ok, Prod.mk.injEq] at h
          obtain ⟨proxys, h'⟩ := ih _ _ _ h2
          exact ⟨proxys, by rw [← h.1, h']⟩
  obtain ⟨proxys, h'⟩ := key _ _ _ _ h
  exact ⟨proxys, h'⟩

/-! ### What sending can end in -/

theorem termByIndex_error {terms : List UInt32} {i : UInt32} {f : Fault}
    (h : termByIndex terms i = .error f) : f = .outOfRange := by
  unfold termByIndex at h
  split at h
  · cases h
  · split at h
    · cases h
    · exact (Except.error.inj h).symm

theorem entryByIndex_error {s : RaftServer} {i : UInt32} {f : Fault}
    (h : s.entryByIndex i = .error f) : f = .outOfRange := by
  unfold entryByIndex at h
  split at h
  · cases h
  · exact (Except.error.inj h).symm

theorem buildAppendEntries_error {s : RaftServer} {p : RaftProxy} {f : Fault}
    (h : s.buildAppendEntries p = .error f) : f = .outOfRange := by
  unfold buildAppendEntries at h
  rcases Except.bind_eq_error.mp h with h | ⟨_, _, h⟩
  · exact termByIndex_error h
  · dsimp only at h
    split at h
    · split at h
      · rcases Except.bind_eq_error.mp h with h | ⟨_, _, h⟩
        · exact entryByIndex_error (Except.map_eq_error.mp h)
        · rcases Except.bind_eq_error.mp h with h | ⟨_, _, h⟩
          · exact entryByIndex_error h
          · cases h
      · rw [Except.pure_bind_ok] at h
        rcases Except.bind_eq_error.mp h with h | ⟨_, _, h⟩
        · exact entryByIndex_error h
        · cases h
    · cases h

/-- A broadcast fails only where an index leaves the log. -/
theorem broadCastAppendEntries_error {s : RaftServer} {f : Fault}
    (h : s.broadCastAppendEntries = .error f) : f = .outOfRange := by
  unfold broadCastAppendEntries at h
  generalize s.proxys.values = ps at h
  induction ps with
  | nil => cases h
  | cons p ps ih =>
    unfold broadCastLoop at h
    split at h
    · rw [Except.pure_bind_ok] at h
      rcases Except.bind_eq_error.mp h with h | ⟨_, _, h⟩
      · exact ih h
      · cases h
    · rcases Except.bind_eq_error.mp h with h | ⟨_, _, h⟩
      · unfold proxySendAppendEntries connSendAppendEntries at h
        split at h
        · cases h
        · split at h
          · cases h
          · split at h
            · cases h
            · rcases Except.bind_eq_error.mp h with h | ⟨_, _, h⟩
              · exact buildAppendEntries_error h
              · cases h
      · rcases Except.bind_eq_error.mp h with h | ⟨_, _, h⟩
        · exact ih h
        · cases h

/-! ## The commit rule -/

/-- What `ChangeCommitIndex` did: nothing, or one step to an index inside the log whose
entry is of the current term and which more than half of the proxies have. -/
theorem changeCommitIndex_cases {s s' : RaftServer} {b : Bool}
    (h : s.changeCommitIndex = .ok (s', b)) :
    (s' = s ∧ b = false) ∨
    (s.proxys.size / 2 + 1 ≤ s.replicaCount ∧
      (∃ e, s.entries[(s.commitIndex + 1).toNat]? = some e ∧ e.term = s.currentTerm) ∧
      s' = { s with commitIndex := s.commitIndex + 1 } ∧ b = true) := by
  unfold changeCommitIndex at h
  split at h
  · next hmost =>
    split at h
    · cases h
    · next e he =>
      split at h
      · next ht =>
        injection h with h
        injection h with h1 h2
        exact Or.inr ⟨hmost, ⟨e, he, ht⟩, h1.symm, h2.symm⟩
      · injection h with h
        injection h with h1 h2
        exact Or.inl ⟨h1.symm, h2.symm⟩
  · injection h with h
    injection h with h1 h2
    exact Or.inl ⟨h1.symm, h2.symm⟩

/-- `ChangeCommitIndex` touches nothing but the commit index. -/
theorem changeCommitIndex_frame {s s' : RaftServer} {b : Bool}
    (h : s.changeCommitIndex = .ok (s', b)) : ∃ k, s' = { s with commitIndex := k } := by
  rcases changeCommitIndex_cases h with ⟨hs', _⟩ | ⟨_, _, hs', _⟩
  · exact ⟨s.commitIndex, hs'⟩
  · exact ⟨s.commitIndex + 1, hs'⟩

/-- More than half of the proxies have the next index: it is in the log, and its term decides. -/
theorem changeCommitIndex_of_most {s : RaftServer}
    (hmost : s.proxys.size / 2 + 1 ≤ s.replicaCount) {e : Entry}
    (he : s.entries[(s.commitIndex + 1).toNat]? = some e) :
    s.changeCommitIndex = .ok (if e.term = s.currentTerm then
      ({ s with commitIndex := s.commitIndex + 1 }, true) else (s, false)) := by
  unfold changeCommitIndex
  rw [if_pos hmost, he]
  dsimp only
  split_ifs <;> rfl

theorem changeCommitIndex_of_few {s : RaftServer}
    (hfew : ¬ s.proxys.size / 2 + 1 ≤ s.replicaCount) :
    s.changeCommitIndex = .ok (s, false) := by
  unfold changeCommitIndex
  rw [if_neg hfew]

end RaftServer
end NanoRaft
