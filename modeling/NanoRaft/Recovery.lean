import NanoRaft.DurableLog
import NanoRaft.Membership

/-!
# Recovery

`LoadEntries` in a new process rebuilds log and proxies from the entries DB that a leader has
left behind: the log value by value, and a proxy for every `CFGADD` entry it meets, where the
leader had added a proxy for every node that had joined.

* `rebuilt_iff`: after which runs of a leader the new process has the same cluster.
-/

namespace NanoRaft
namespace RaftServer

/-- The entry that the value under `dwIndex` was last written for. -/
def LastWritten (s : RaftServer) (dwIndex : UInt32) (e : Entry) : Prop :=
  ∃ i, s.entries[i]? = some e ∧ UInt32.ofNat i = dwIndex ∧
    ∀ j, i < j → j < s.entries.length → UInt32.ofNat j ≠ dwIndex

/-- Every value is read back as the entry it was written for. -/
def ReadsBack (lib : Protobuf) (memory : ℕ → ℕ → UInt8) (s : RaftServer) : Prop :=
  ∀ (k : ℕ) kv e, s.entriesDB.values[k]? = some kv → s.LastWritten kv.1 e →
    Entry.load lib (memory k) kv.2 = e

/-- The same entries in the same order, proxies of the same nodes, and the same majority. -/
structure SameCluster (s t : RaftServer) : Prop where
  entries : t.entries = s.entries
  keys : ∀ x, (t.proxys.find? x).isSome ↔ (s.proxys.find? x).isSome
  majority : t.proxys.size / 2 + 1 = s.proxys.size / 2 + 1

/-- The `Put` of the entry of a new node succeeds. -/
def PutOk (_ : RaftServer) : ServingEvent → Prop
  | .handshake puts _ _ => (puts.entry 0).ok = true
  | _ => True

instance decidablePutOk (s : RaftServer) : (e : ServingEvent) → Decidable (s.PutOk e)
  | .handshake _ _ _ => inferInstanceAs (Decidable (_ = _))
  | .accept _ _ => isTrue trivial
  | .close _ => isTrue trivial
  | .reply _ _ _ => isTrue trivial

/-- The leader does not meet a handshake of node `x`. -/
def LeavesOut (x : UInt32) (s : RaftServer) : ServingEvent → Prop
  | .handshake _ _ q => s.role = .Leader → q.nodeid ≠ x
  | _ => True

instance decidableLeavesOut (x : UInt32) (s : RaftServer) :
    (e : ServingEvent) → Decidable (s.LeavesOut x e)
  | .handshake _ _ _ => inferInstanceAs (Decidable (_ → _))
  | .accept _ _ => isTrue trivial
  | .close _ => isTrue trivial
  | .reply _ _ _ => isTrue trivial

/-! ## The table of a leader -/

/-- Log and table as they were, or both with one more entry. -/
def Persists (s s' : RaftServer) : Prop :=
  (s'.entries = s.entries ∧ s'.entriesDB = s.entriesDB) ∨
    ∃ e value, s'.entries = s.entries ++ [e] ∧
      s'.entriesDB = s.entriesDB.put (UInt32.ofNat s.entries.length) value

variable {s s' t r : RaftServer} {e : ServingEvent}

theorem persists_appendCfgLog (put : PutResult) (s : RaftServer) (strHost : Bytes)
    (iRaftPort iNodeID : Int32) : s.Persists (s.appendCfgLog put strHost iRaftPort iNodeID) := by
  cases hput : put.ok with
  | false =>
    rw [appendCfgLog_of_refused hput]
    exact Or.inl ⟨rfl, rfl⟩
  | true =>
    rw [appendCfgLog_of_ok hput]
    exact Or.inr ⟨_, _, rfl, rfl⟩

theorem persists_handshakeNew {put : PutResult} {fd : ℕ} {c : Conn} {q : HandshakeQ} {ms : Sends}
    (h : s.handshakeNew put fd c q = .ok (s', ms)) : s.Persists s' := by
  unfold handshakeNew at h
  obtain ⟨s1, h1, h⟩ := Except.bind_eq_ok.mp h
  obtain ⟨_, _, h⟩ := Except.bind_eq_ok.mp h
  rw [Except.pure_eq_ok, Prod.mk.injEq] at h
  obtain ⟨rfl, _⟩ := h
  -- `AddProxy` and `Tie` have left log and table alone
  have hs1 := tie_eq_ok h1
  rw [addProxy_frame] at hs1
  have hentries : s1.entries = s.entries := by rw [hs1]
  have hdb : s1.entriesDB = s.entriesDB := by rw [hs1]
  rw [Persists, ← hentries, ← hdb]
  exact persists_appendCfgLog _ _ _ _ _

theorem persists_handshakeQ {puts : Puts} {fd : ℕ} {q : HandshakeQ} {ms : Sends}
    (h : s.handshakeQ puts fd q = .ok (s', ms)) : s.Persists s' := by
  unfold handshakeQ at h
  split at h
  · obtain ⟨rfl, _⟩ := Prod.mk.inj (Except.ok.inj h)
    exact Or.inl ⟨rfl, rfl⟩
  · split at h
    · obtain ⟨rfl, _⟩ := Prod.mk.inj (Except.ok.inj h)
      exact Or.inl ⟨rfl, rfl⟩
    · dsimp only at h
      split at h
      · obtain ⟨s1, h1, h⟩ := Except.bind_eq_ok.mp h
        rw [Except.pure_bind_ok, Except.pure_eq_ok, Prod.mk.injEq] at h
        obtain ⟨rfl, _⟩ := h
        rw [(handshakeKnown_eq_ok h1).frame]
        exact Or.inl ⟨rfl, rfl⟩
      · obtain ⟨⟨s1, bs⟩, h1, h⟩ := Except.bind_eq_ok.mp h
        rw [Except.pure_eq_ok, Prod.mk.injEq] at h
        obtain ⟨rfl, _⟩ := h
        have hpersists : (s.setRaftPort fd q.raftport).Persists s1 := persists_handshakeNew h1
        exact hpersists

theorem persists_next (hn : serving.next s e = some s') : s.Persists s' := by
  rcases serving_cases hn with ⟨puts, fd, q, c, rfl, _⟩ | ⟨_, hentries, hdb, _⟩
  · obtain ⟨⟨u, ms⟩, hs, hu⟩ := Except.bind_eq_ok.mp (serving_next_eq_some.mp hn).2
    rw [Except.pure_eq_ok] at hu
    obtain rfl : u = s' := hu
    exact persists_handshakeQ hs
  · exact Or.inl ⟨hentries, hdb⟩

/-- The table has its keys in their places, and the indices of the log as long as the
comparator tells them apart. -/
structure Stored (s : RaftServer) : Prop where
  keyed : s.entriesDB.Keyed
  indices : s.entries.length ≤ 2 ^ 31 →
    s.entriesDB.keys.map UInt32.toNat = List.range s.entries.length

theorem Stored.of_persists (h : s.Stored) (hs : s.Persists s') : s'.Stored := by
  rcases hs with ⟨hentries, hdb⟩ | ⟨e, value, hentries, hdb⟩
  · exact ⟨by rw [hdb]; exact h.keyed, by rw [hentries, hdb]; exact h.indices⟩
  · refine ⟨by rw [hdb]; exact EntriesDB.keyed_put h.keyed _ _, ?_⟩
    rw [hentries, hdb, List.length_append, List.length_singleton]
    intro hlen
    exact EntriesDB.keys_put h.keyed (h.indices (by omega)) (by omega) value

theorem stored_new : Stored { RaftServer.new ⟨none, .empty⟩ with role := .Leader } :=
  ⟨fun _ hkv => absurd hkv List.not_mem_nil, fun _ => rfl⟩

/-- No table has more keys than the comparator tells apart. -/
theorem size_le_of_keyed {db : EntriesDB} (h : db.Keyed) : db.size ≤ 2 ^ 31 := by
  have hsub : db.toList.map Prod.fst ⊆ List.range (2 ^ 31) := by
    intro k hk
    obtain ⟨kv, hkv, rfl⟩ := List.mem_map.mp hk
    have hkey : kv.1 = min kv.2.1.toNat (2 ^ 31 - 1) := h kv hkv
    rw [List.mem_range]
    omega
  have hle := (db.nodup_keys.subperm hsub).length_le
  rw [List.length_map, List.length_range] at hle
  exact hle

/-! ## What `LoadEntries` finds -/

/-- The value at position `k` is under index `k`. -/
theorem Stored.index (h : s.Stored) (hlen : s.entries.length ≤ 2 ^ 31) {k : ℕ}
    {kv : UInt32 × Bytes} (hkv : s.entriesDB.values[k]? = some kv) :
    kv.1 = UInt32.ofNat k ∧ k < s.entries.length := by
  have hkeys := congrArg (·[k]?) (h.indices hlen)
  have hk : (s.entriesDB.keys.map UInt32.toNat)[k]? = some kv.1.toNat := by
    rw [List.getElem?_map, show s.entriesDB.keys = s.entriesDB.values.map Prod.fst by
      rw [EntriesDB.keys, OrdMap.values, List.map_map]; rfl, List.getElem?_map, hkv]
    rfl
  rw [hk] at hkeys
  have hrange := List.getElem?_eq_some_iff.mp hkeys.symm
  obtain ⟨hlt, hval⟩ := hrange
  rw [List.getElem_range] at hval
  rw [List.length_range] at hlt
  exact ⟨by rw [hval, UInt32.ofNat_toNat], hlt⟩

/-- Below index `2 ^ 31` every value was written for one entry only. -/
theorem lastWritten_iff (hlen : s.entries.length ≤ 2 ^ 31) {k : ℕ} (hk : k < s.entries.length)
    {e : Entry} : s.LastWritten (UInt32.ofNat k) e ↔ s.entries[k]? = some e := by
  have hinj : ∀ j < s.entries.length, UInt32.ofNat j = UInt32.ofNat k → j = k := by
    intro j hj heq
    have hnat := congrArg UInt32.toNat heq
    rw [UInt.toNat_ofNat32 (by omega), UInt.toNat_ofNat32 (by omega)] at hnat
    exact hnat
  constructor
  · rintro ⟨i, hi, heq, _⟩
    rw [← hinj i (List.getElem?_eq_some_iff.mp hi).1 heq]
    exact hi
  · intro hk'
    exact ⟨k, hk', rfl, fun j hkj hj heq => absurd (hinj j hj heq) (by omega)⟩

/-- The values are read back exactly if `LoadEntries` finds the log again. -/
theorem readsBack_iff {lib : Protobuf} {memory : ℕ → ℕ → UInt8} (h : s.Stored)
    (hlen : s.entries.length ≤ 2 ^ 31) : s.ReadsBack lib memory ↔
      loaded lib memory (s.entriesDB.values.map Prod.snd) = s.entries := by
  have hsize : s.entriesDB.values.length = s.entries.length := by
    rw [OrdMap.length_values, EntriesDB.size_of_keys (h.indices hlen)]
  constructor
  · intro hread
    refine List.ext_getElem? fun k => ?_
    rw [getElem?_loaded]
    by_cases hk : k < s.entries.length
    · have hkv := List.getElem?_eq_getElem (hsize ▸ hk : k < s.entriesDB.values.length)
      have he := List.getElem?_eq_getElem hk
      rw [hkv, he, Option.map_some]
      refine congrArg some (hread k _ _ hkv ?_)
      rw [(h.index hlen hkv).1, lastWritten_iff hlen hk]
      exact he
    · rw [List.getElem?_eq_none (by omega), List.getElem?_eq_none (by omega)]
      rfl
  · intro hloaded k kv e hkv hlast
    obtain ⟨hindex, hk⟩ := h.index hlen hkv
    rw [hindex, lastWritten_iff hlen hk, ← hloaded, getElem?_loaded, hkv] at hlast
    exact Option.some.inj hlast

/-- The loop adds a proxy for every node that a `CFGADD` entry names. -/
theorem loadLoop_found (lib : Protobuf) (memory : ℕ → ℕ → UInt8) (s : RaftServer)
    (values : List Bytes) (x : UInt32) :
    ((loadLoop lib memory s values).proxys.find? x).isSome ↔
      (s.proxys.find? x).isSome ∨ x ∈ cfgIds (loaded lib memory values) := by
  induction values generalizing s memory with
  | nil => simp [loadLoop, loaded, cfgIds]
  | cons value values ih =>
    have hcons : loaded lib memory (value :: values) = Entry.load lib (memory 0) value ::
        loaded lib (fun i => memory (i + 1)) values := by
      rw [loaded, List.mapIdx_cons, loaded]
    rw [loadLoop, ih, hcons]
    by_cases hcfg : (Entry.load lib (memory 0) value).type = .CFGADD
    · have hids : cfgIds (Entry.load lib (memory 0) value ::
          loaded lib (fun i => memory (i + 1)) values) = (Entry.load lib (memory 0) value).nodeid ::
            cfgIds (loaded lib (fun i => memory (i + 1)) values) := by
        rw [cfgIds, List.filter_cons_of_pos (by simp [hcfg]), List.map_cons, cfgIds]
      rw [if_pos hcfg, hids, List.mem_cons]
      show ((s.addProxy _).proxys.find? x).isSome ∨ _ ↔ _
      rw [addProxy_find?]
      split_ifs with hx
      · simp [hx]
      · simp [hx]
    · have hids : cfgIds (Entry.load lib (memory 0) value ::
          loaded lib (fun i => memory (i + 1)) values) =
            cfgIds (loaded lib (fun i => memory (i + 1)) values) := by
        rw [cfgIds, List.filter_cons_of_neg (by simp [hcfg]), cfgIds]
      rw [if_neg hcfg, hids]

/-- The restarted process: the log is what was read, and the proxies are those of the nodes
it names. -/
theorem launchRestart_spec {lib : Protobuf} {disk : Disk} {memory : ℕ → ℕ → UInt8}
    {status : Bool} (h : launch lib disk (.restart memory status) = .ok r) :
    r.entries = loaded lib memory (disk.entriesDB.values.map Prod.snd) ∧
      ∀ x, (r.proxys.find? x).isSome ↔ x ∈ cfgIds r.entries := by
  obtain ⟨proxys, hr⟩ := launchRestart_eq_ok h
  have hentries : r.entries = loaded lib memory (disk.entriesDB.values.map Prod.snd) := by
    rw [hr]
  refine ⟨hentries, fun x => ?_⟩
  have hload : (if status then _ else _) = Except.ok r := h
  split at hload
  · obtain rfl := Except.ok.inj hload
    rw [hentries, loadLoop_found]
    exact or_iff_right Bool.false_ne_true
  · cases hload

/-! ## What the leader has left behind -/

/-- A leader whose `Put`s succeed. -/
structure Recorded (s : RaftServer) (dwID : UInt32) : Prop extends Named s dwID, Stored s where
  attached : s.Attached

theorem recorded_of_start {put : PutResult} {iRaftPort iNodeID : Int32} (hput : put.ok = true)
    (h : launchStart put ⟨none, .empty⟩ iRaftPort iNodeID = .ok s) :
    s.Recorded iNodeID.toUInt32 := by
  refine ⟨((agrees_of_start_iff h).mpr hput).toNamed, ?_, attached_of_start h⟩
  rw [launchStart_eq_ok h]
  exact stored_new.of_persists (persists_appendCfgLog _ _ _ _ _)

theorem recorded_next {dwID : UInt32} (h : s.Recorded dwID) (hput : s.PutOk e)
    (hn : serving.next s e = some s') : s'.Recorded dwID := by
  refine ⟨?_, h.toStored.of_persists (persists_next hn), attached_next h.attached hn⟩
  rcases serving_cases hn with ⟨puts, fd, q, c, rfl, _, hnone, hwel⟩ | ⟨_, hentries, _, hsame⟩
  · exact (hwel.named_iff h.toNamed (h.attached.find?_eq_none hnone)).mpr hput
  · exact h.toNamed.of_same hentries hsame

/-- A node has no proxy as long as the leader does not meet its handshake. -/
theorem find?_eq_none_next (x : UInt32) (hn : serving.next s e = some s') :
    s'.proxys.find? x = none ↔ s.proxys.find? x = none ∧ s.LeavesOut x e := by
  rw [← Option.not_isSome_iff_eq_none, ← Option.not_isSome_iff_eq_none]
  rcases serving_cases hn with ⟨puts, fd, q, c, rfl, hlead, _, hwel⟩ | ⟨hknown, _, _, hsame⟩
  · rw [hwel.found, not_or, and_comm]
    exact and_congr_right fun _ => ⟨fun hne _ heq => hne heq.symm, fun hne heq => hne hlead heq.symm⟩
  · rw [hsame.found]
    refine (and_iff_left_of_imp fun hx => ?_).symm
    cases e with
    | handshake puts fd q =>
      intro hlead heq
      -- a node whose proxy is connected has a proxy
      refine hknown puts fd q rfl hlead ?_
      rw [heq, proxyConnFd, Option.not_isSome_iff_eq_none.mp hx]
      rfl
    | accept | close | reply => trivial

/-- **The same cluster.** Take any run of a leader launched on empty directories whose `Put`s
succeed, and a new process that reads back every value. It has the log, the proxies and the
majority of the leader if and only if the log has at most `2 ^ 31` entries and the leader has
met a handshake of its own node id. -/
theorem rebuilt_iff {lib : Protobuf} {memory : ℕ → ℕ → UInt8} {status : Bool} {put : PutResult}
    {iRaftPort iNodeID : Int32} {es : List ServingEvent}
    (hstart : launchStart put ⟨none, .empty⟩ iRaftPort iNodeID = .ok s) (hput : put.ok = true)
    (hrun : serving.run s es = some t) (hputs : serving.Allowed PutOk s es)
    (hread : t.ReadsBack lib memory)
    (hload : launch lib t.disk (.restart memory status) = .ok r) :
    t.SameCluster r ↔ t.entries.length ≤ 2 ^ 31 ∧
      ¬ serving.Allowed (LeavesOut iNodeID.toUInt32) s es := by
  have ht : t.Recorded iNodeID.toUInt32 :=
    System.invariant_of_run (I := fun s => Recorded s iNodeID.toUInt32)
      (fun _ _ _ h hC hn => recorded_next h hC hn) es (recorded_of_start hput hstart) hputs hrun
  obtain ⟨hentries, hkeys⟩ := launchRestart_spec hload
  -- the leader has a proxy of itself exactly if it has met its own id
  have hself : t.proxys.find? iNodeID.toUInt32 = none ↔
      serving.Allowed (LeavesOut iNodeID.toUInt32) s es := by
    rw [System.last_iff_allowed (P := fun s => s.proxys.find? iNodeID.toUInt32 = none)
      (fun _ _ _ hn => find?_eq_none_next _ hn) es hrun]
    refine and_iff_right ?_
    rw [launchStart_eq_ok hstart, appendCfgLog_of_ok hput]
    rfl
  rw [← hself]
  constructor
  · intro hsame
    constructor
    · rw [← hsame.entries, hentries, length_loaded]
      exact size_le_of_keyed ht.keyed
    · intro hnone
      have hown := (hsame.keys iNodeID.toUInt32).mp ((hkeys _).mpr (by
        rw [hsame.entries, ht.toNamed.cfgIds]
        exact List.mem_cons_self))
      rw [hnone] at hown
      cases hown
  · rintro ⟨hlen, hown⟩
    have hlog : r.entries = t.entries := by
      rw [hentries]
      exact (readsBack_iff ht.toStored hlen).mp hread
    have hsame : ∀ x, (r.proxys.find? x).isSome ↔ (t.proxys.find? x).isSome := by
      intro x
      rw [hkeys, hlog, ht.toNamed.cfgIds, List.mem_cons, ← ht.keys]
      refine or_iff_right_of_imp fun hx => ?_
      rw [hx, Option.isSome_iff_ne_none]
      exact hown
    exact ⟨hlog, hsame, by rw [OrdMap.size_congr hsame]⟩

/-- The values of a run, with zeros behind them in the memory, are read back. -/
def readBack (s : RaftServer) : Bool :=
  decide (s.entries.length = 2) &&
    decide (loaded asciiProtobuf (fun _ _ => 0) (s.entriesDB.values.map Prod.snd) = s.entries)

theorem readsBack_of_readBack {es : List ServingEvent} (hrun : serving.run alone es = some s)
    (h : s.readBack = true) :
    s.entries.length = 2 ∧ s.ReadsBack asciiProtobuf fun _ _ => 0 := by
  rw [readBack, Bool.and_eq_true, decide_eq_true_iff, decide_eq_true_iff] at h
  have hstored : s.Stored :=
    System.invariant_of_run (I := Stored) (C := System.anyStep)
      (fun _ _ _ h _ hn => h.of_persists (persists_next hn)) es
      (stored_new.of_persists (persists_appendCfgLog _ _ _ _ _)) (System.allowed_anyStep _ _) hrun
  exact ⟨h.1, (readsBack_iff hstored (by omega)).mpr h.2⟩

/-- A handshake with the leader's own id: the leader has a proxy of itself, and so has the
restarted process. -/
theorem rebuilt_self : ∃ t r : RaftServer,
    launch asciiProtobuf t.disk (.restart (fun _ _ => 0) true) = .ok r ∧ t.SameCluster r := by
  have hrun : ((serving.run alone (comes .allOk 5 1)).any fun t : RaftServer => t.readBack) =
      true := by decide +kernel
  obtain ⟨t, ht, htest⟩ := (Option.any_eq_true _ _).mp hrun
  obtain ⟨hlen, hread⟩ := readsBack_of_readBack ht htest
  have hload : launch asciiProtobuf t.disk (.restart (fun _ _ => 0) true) = .ok _ := rfl
  exact ⟨t, _, hload, (rebuilt_iff launchStart_alone rfl ht (by decide +kernel) hread hload).mpr
    ⟨by omega, by decide +kernel⟩⟩

/-- Node 2 joins: the restarted process has a proxy of node 1 too. -/
theorem rebuilt_with_self : ¬ ∀ lib memory status put iRaftPort iNodeID s es t r,
    launchStart put ⟨none, .empty⟩ iRaftPort iNodeID = .ok s → put.ok = true →
    serving.run s es = some t → serving.Allowed PutOk s es → t.ReadsBack lib memory →
    launch lib t.disk (.restart memory status) = .ok r → t.SameCluster r := by
  intro hall
  have hrun : ((serving.run alone (comes .allOk 5 2)).any fun t : RaftServer =>
      t.readBack && decide (1 ∈ cfgIds t.entries) && (t.proxys.find? 1).isNone) = true := by
    decide +kernel
  obtain ⟨t, ht, htest⟩ := (Option.any_eq_true _ _).mp hrun
  rw [Bool.and_eq_true, Bool.and_eq_true, decide_eq_true_iff] at htest
  obtain ⟨⟨hback, hnamed⟩, hnone⟩ := htest
  obtain ⟨_, hread⟩ := readsBack_of_readBack ht hback
  have hload : launch asciiProtobuf t.disk (.restart (fun _ _ => 0) true) = .ok _ := rfl
  have hsame := hall _ _ _ _ _ _ _ _ t _ launchStart_alone rfl ht (by decide +kernel) hread hload
  have hfound := (hsame.keys 1).mp (((launchRestart_spec hload).2 1).mpr (by
    rw [hsame.entries]
    exact hnamed))
  rw [Option.isNone_iff_eq_none.mp hnone] at hfound
  cases hfound

end RaftServer
end NanoRaft
