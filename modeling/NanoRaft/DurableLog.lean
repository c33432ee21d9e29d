import NanoRaft.Restart

/-!
# The entries DB and the log in memory

A machine on whose directories processes are launched one after the other, and the calls
that write the entries DB. `mirrors_disk` says which launches and calls keep the DB a mirror
of `m_stEntries_`: the index of a new entry is the size of the log in memory, which only
`restart` fills from the DB.
-/

namespace NanoRaft

/-- The indices whose decimal texts are the keys of the table, in iteration order. -/
def EntriesDB.keys (db : EntriesDB) : List UInt32 := db.toList.map fun kv => kv.2.1

/-- The process that runs on the machine, or did last, and for each key the comparator can
tell apart the entry its value was last written for. -/
structure Machine where
  server : RaftServer
  written : ℕ → Option Entry

/-- The launches and calls of the machine's processes. -/
inductive MachineEvent where
  | launch (l : RaftServer.Launch)
  | appendCfgLog (put : PutResult) (strHost : Bytes) (iRaftPort iNodeID : Int32)
  | delLogsFromIndex (dwIndex : UInt32)

namespace Machine

/-- The bookkeeping of one `AppendCfgLog` at log size `n`. -/
def wrote (put : PutResult) (n : ℕ) (e : Entry) (written : ℕ → Option Entry) :
    ℕ → Option Entry :=
  if put.ok then Function.update written (indexKey (UInt32.ofNat n)) (some e) else written

/-- What the start-up code of a launch writes: the `start` branch appends an entry. -/
def wroteAtLaunch (m : Machine) : RaftServer.Launch → ℕ → Option Entry
  | .start put iRaftPort iNodeID => wrote put 0
      ((RaftServer.new m.server.disk).cfgEntry RaftServer.startHost iRaftPort iNodeID) m.written
  | .join .. => m.written
  | .restart .. => m.written

/-- One launch or call. -/
def next (lib : Protobuf) (m : Machine) : MachineEvent → Option Machine
  | .launch l =>
    (RaftServer.launch lib m.server.disk l).toOption.map fun s => ⟨s, m.wroteAtLaunch l⟩
  | .appendCfgLog put strHost iRaftPort iNodeID =>
    some ⟨m.server.appendCfgLog put strHost iRaftPort iNodeID,
      wrote put m.server.entries.length (m.server.cfgEntry strHost iRaftPort iNodeID) m.written⟩
  | .delLogsFromIndex dwIndex => some { m with server := m.server.delLogsFromIndex dwIndex }

/-- The runs of a machine whose entries DB is empty at first. -/
def system (lib : Protobuf) : System Machine MachineEvent where
  init m := ∃ stateDB, m = ⟨.new ⟨stateDB, .empty⟩, fun _ => none⟩
  next := next lib

/-- The keys are `"0"` to `"n-1"` for the log size `n`, and each value was written for the
entry at that index. -/
structure Mirrors (m : Machine) : Prop where
  keys : m.server.entriesDB.keys.map UInt32.toNat = List.range m.server.entries.length
  values : ∀ k < m.server.entries.length, m.written k = m.server.entries[k]?

/-- The launches and calls that keep log and DB in step: `start` on at most the one key it
writes again, `join` on an empty DB, `restart` if every value is read back, an append below
index `2 ^ 31`, and a delete that finds no key. -/
def InStep (lib : Protobuf) (m : Machine) : MachineEvent → Prop
  | .launch (.start put _ _) => m.server.entriesDB.size ≤ if put.ok then 1 else 0
  | .launch (.join ..) => m.server.entriesDB.size = 0
  | .launch (.restart memory _) => ∀ k kv, m.server.entriesDB.values[k]? = some kv →
      m.written k = some (Entry.load lib (memory k) kv.2)
  | .appendCfgLog put .. => put.ok = true → m.server.entries.length < 2 ^ 31
  | .delLogsFromIndex dwIndex => dwIndex = 0xFFFFFFFF → m.server.entries.length < 2 ^ 31

end Machine

/-! ## The keys of a table -/

namespace EntriesDB

/-- Every value is under the key its index compares as. -/
def Keyed (db : EntriesDB) : Prop := ∀ kv ∈ db.toList, kv.1 = indexKey kv.2.1

theorem keyed_put {db : EntriesDB} (h : db.Keyed) (dwIndex : UInt32) (value : Bytes) :
    (db.put dwIndex value).Keyed := by
  rintro ⟨k, v⟩ hkv
  rw [OrdMap.mem_toList_iff, put, OrdMap.find?_insert] at hkv
  by_cases hk : k = indexKey dwIndex
  · rw [if_pos hk] at hkv
    rw [hk, ← Option.some.inj hkv]
  · rw [if_neg hk] at hkv
    exact h _ (OrdMap.mem_toList_iff.mpr hkv)

theorem length_keys (db : EntriesDB) : db.keys.length = db.size := List.length_map _

variable {db : EntriesDB} {n : ℕ}

theorem size_of_keys (h : db.keys.map UInt32.toNat = List.range n) : db.size = n := by
  rw [← length_keys, ← List.length_map UInt32.toNat, h, List.length_range]

/-- The keys as the comparator reads them. -/
theorem slots_of_keys (hkeyed : db.Keyed) (h : db.keys.map UInt32.toNat = List.range n) :
    db.toList.map Prod.fst = (List.range n).map fun i => min i (2 ^ 31 - 1) := by
  rw [← h, keys, List.map_map, List.map_map]
  exact List.map_congr_left fun kv hkv => hkeyed kv hkv

/-- Two indices from `2 ^ 31 - 1` on do not both find a place. -/
theorem le_of_keys (hkeyed : db.Keyed) (h : db.keys.map UInt32.toNat = List.range n) :
    n ≤ 2 ^ 31 := by
  by_contra hn
  have hsorted := db.sorted
  rw [slots_of_keys hkeyed h, List.pairwise_map] at hsorted
  have hlt := List.pairwise_iff_getElem.mp hsorted (2 ^ 31 - 1) (2 ^ 31)
    (by rw [List.length_range]; omega) (by rw [List.length_range]; omega) (by omega)
  rw [List.getElem_range, List.getElem_range] at hlt
  omega

/-- The key of every index below `n`, and of no other. -/
theorem mem_slots_iff (hkeyed : db.Keyed) (h : db.keys.map UInt32.toNat = List.range n) (k : ℕ) :
    k ∈ db.toList.map Prod.fst ↔ k < n := by
  have hle := le_of_keys hkeyed h
  rw [slots_of_keys hkeyed h, List.mem_map]
  constructor
  · rintro ⟨i, hi, rfl⟩
    rw [List.mem_range] at hi
    omega
  · intro hk
    exact ⟨k, List.mem_range.mpr hk, by omega⟩

/-- The iterator is at the end at once if the log ends before the key. -/
theorem seek_eq_nil_iff (hkeyed : db.Keyed) (h : db.keys.map UInt32.toNat = List.range n) (k : ℕ) :
    db.seek k = [] ↔ n ≤ k := by
  have hslots := mem_slots_iff hkeyed h
  rw [OrdMap.seek, List.filter_eq_nil_iff]
  constructor
  · intro hall
    by_contra hlt
    obtain ⟨kv, hkv, hk⟩ := List.mem_map.mp ((hslots k).mpr (by omega))
    exact hall kv hkv (decide_eq_true (le_of_eq hk.symm))
  · intro hle kv hkv
    have hlt := (hslots kv.1).mp (List.mem_map_of_mem hkv)
    rw [decide_eq_true_iff]
    omega

theorem indexKey_ofNat (h : n < 2 ^ 31) : indexKey (UInt32.ofNat n) = n := by
  rw [indexKey, UInt.toNat_ofNat32 (by omega)]
  omega

/-- A `Put` under the next index. -/
theorem keys_put (hkeyed : db.Keyed) (h : db.keys.map UInt32.toNat = List.range n)
    (hn : n < 2 ^ 31) (value : Bytes) :
    (db.put (UInt32.ofNat n) value).keys.map UInt32.toNat = List.range (n + 1) := by
  have hlt : ∀ p ∈ db.toList, p.1 < indexKey (UInt32.ofNat n) := by
    intro p hp
    rw [indexKey_ofNat hn]
    exact (mem_slots_iff hkeyed h p.1).mp (List.mem_map_of_mem hp)
  rw [keys, put, OrdMap.toList_insert_of_lt hlt, List.map_append, List.map_append, ← keys, h,
    List.range_succ]
  show _ ++ [(UInt32.ofNat n).toNat] = _
  rw [UInt.toNat_ofNat32 (by omega)]

/-- A `Put` over the only key. -/
theorem keys_put_zero (hkeyed : db.Keyed) (h : db.keys.map UInt32.toNat = List.range n)
    (hn : n ≤ 1) (value : Bytes) : (db.put 0 value).keys.map UInt32.toNat = List.range 1 := by
  rcases Nat.le_one_iff_eq_zero_or_eq_one.mp hn with rfl | rfl
  · exact keys_put hkeyed h (by decide) value
  · -- the key that is there is found again
    obtain ⟨⟨k, v⟩, htable, hk⟩ := List.map_eq_singleton_iff.mp (slots_of_keys hkeyed h)
    obtain rfl : k = 0 := hk
    show ((OrdMap.insertList 0 (0, value) db.toList).map _).map _ = _
    rw [htable]
    rfl

end EntriesDB

/-! ## One step -/

namespace Machine

/-- What holds of every machine: the keys are in their places, and the deprecated log is
empty. -/
structure Kept (m : Machine) : Prop where
  keyed : m.server.entriesDB.Keyed
  logs : m.server.logs = []

variable {lib : Protobuf} {m m' : Machine}

theorem next_launch {l : RaftServer.Launch} (h : m.next lib (.launch l) = some m') :
    ∃ s, RaftServer.launch lib m.server.disk l = .ok s ∧ m' = ⟨s, m.wroteAtLaunch l⟩ := by
  obtain ⟨s, hs, hm'⟩ := Option.map_eq_some_iff.mp h
  exact ⟨s, Except.toOption_eq_some.mp hs, hm'.symm⟩

/-- An append keeps log and table in step below index `2 ^ 31`, and no longer. -/
theorem mirrors_append_iff {put : PutResult} {strHost : Bytes} {iRaftPort iNodeID : Int32}
    (hkept : m.Kept) (hm : m.Mirrors)
    (h : m.next lib (.appendCfgLog put strHost iRaftPort iNodeID) = some m') :
    m'.Mirrors ↔ m.InStep lib (.appendCfgLog put strHost iRaftPort iNodeID) := by
  obtain rfl := Option.some.inj h
  rw [InStep]
  cases hok : put.ok with
  | false =>
    rw [RaftServer.appendCfgLog_of_refused hok, wrote, hok]
    exact iff_of_true ⟨hm.keys, hm.values⟩ fun hf => by cases hf
  | true =>
    rw [RaftServer.appendCfgLog_of_ok hok, wrote, if_pos hok]
    refine ⟨fun hm' _ => ?_, fun hn => ?_⟩
    · -- the new log is not longer than the table can be
      have hkeyed := EntriesDB.keyed_put hkept.keyed (UInt32.ofNat m.server.entries.length)
        (sliceOfCStr (m.server.cfgEntry strHost iRaftPort iNodeID).serialize put.after)
      have hle := EntriesDB.le_of_keys hkeyed hm'.keys
      rw [List.length_append, List.length_singleton] at hle
      omega
    · have hlt := hn rfl
      refine ⟨?_, fun k hk => ?_⟩
      · rw [List.length_append, List.length_singleton]
        exact EntriesDB.keys_put hkept.keyed hm.keys hlt _
      · rw [EntriesDB.indexKey_ofNat hlt]
        rw [List.length_append, List.length_singleton] at hk
        rcases Nat.lt_succ_iff_lt_or_eq.mp hk with hk | rfl
        · show Function.update m.written _ _ k = (m.server.entries ++ _)[k]?
          rw [Function.update_of_ne (Nat.ne_of_lt hk), List.getElem?_append_left hk]
          exact hm.values k hk
        · show Function.update m.written _ _ _ = (m.server.entries ++ _)[_]?
          rw [Function.update_self, List.getElem?_concat_length]

/-- A delete finds a key only at index `2 ^ 31 - 1`. -/
theorem delLogsFromIndex_eq_self_iff_inStep {dwIndex : UInt32} (hkept : m.Kept) (hm : m.Mirrors) :
    m.server.delLogsFromIndex dwIndex = m.server ↔ m.InStep lib (.delLogsFromIndex dwIndex) := by
  have hlt := dwIndex.toNat_lt
  have hmax := EntriesDB.le_of_keys hkept.keyed hm.keys
  have hadd : (dwIndex + 1).toNat = (dwIndex.toNat + 1) % 2 ^ 32 := UInt32.toNat_add dwIndex 1
  have hall : dwIndex = 0xFFFFFFFF ↔ dwIndex.toNat = 2 ^ 32 - 1 := UInt32.toNat_inj.symm
  rw [RaftServer.delLogsFromIndex_eq_self_iff, hkept.logs,
    EntriesDB.seek_eq_nil_iff hkept.keyed hm.keys, InStep, hall, hadd, indexKey, List.length_nil]
  omega

/-- A delete that finds a key takes it out of the table, and its entry stays in the log. -/
theorem mirrors_delete_iff {dwIndex : UInt32} (hkept : m.Kept) (hm : m.Mirrors)
    (h : m.next lib (.delLogsFromIndex dwIndex) = some m') :
    m'.Mirrors ↔ m.InStep lib (.delLogsFromIndex dwIndex) := by
  obtain rfl := Option.some.inj h
  rw [← delLogsFromIndex_eq_self_iff_inStep hkept hm]
  constructor
  · intro hm'
    by_contra hne
    obtain ⟨db, logs, hs, hsub, old, hold, hgone⟩ := RaftServer.delLogsFromIndex_of_ne_self hne
    rw [hs] at hm'
    have hkeyed : EntriesDB.Keyed db := fun kv hkv => hkept.keyed kv (hsub kv hkv)
    -- the key was there, and is gone
    have hslot := (EntriesDB.mem_slots_iff hkept.keyed hm.keys old.1).mp (List.mem_map_of_mem hold)
    obtain ⟨new, hnew, hk⟩ :=
      List.mem_map.mp ((EntriesDB.mem_slots_iff hkeyed hm'.keys old.1).mpr hslot)
    have hfind := OrdMap.mem_toList_iff.mp hnew
    rw [hk, hgone] at hfind
    cases hfind
  · intro hself
    rw [hself]
    exact hm

/-- `start` appends at index 0 whatever the table holds. -/
theorem mirrors_start_iff {put : PutResult} {iRaftPort iNodeID : Int32} (hkept : m.Kept)
    (hm : m.Mirrors) (h : m.next lib (.launch (.start put iRaftPort iNodeID)) = some m') :
    m'.Mirrors ↔ m.InStep lib (.launch (.start put iRaftPort iNodeID)) := by
  obtain ⟨s, hs, rfl⟩ := next_launch h
  have hserver := RaftServer.launchStart_eq_ok hs
  have hsize := EntriesDB.size_of_keys hm.keys
  rw [InStep, hserver]
  cases hok : put.ok with
  | false =>
    rw [RaftServer.appendCfgLog_of_refused hok, if_neg (by simp)]
    refine ⟨fun hm' => ?_, fun hzero => ⟨?_, fun k hk => absurd hk (Nat.not_lt_zero k)⟩⟩
    · exact le_of_eq (EntriesDB.size_of_keys hm'.keys)
    · show (EntriesDB.keys m.server.entriesDB).map _ = List.range 0
      rw [hm.keys, ← hsize, Nat.le_zero.mp hzero]
  | true =>
    rw [RaftServer.appendCfgLog_of_ok hok, if_pos rfl]
    refine ⟨fun hm' => ?_, fun hone => ⟨?_, fun k hk => ?_⟩⟩
    · -- no key was forgotten
      have hle := EntriesDB.size_of_keys hm'.keys
      exact le_trans (OrdMap.size_le_size_insert m.server.entriesDB 0 _) (le_of_eq hle)
    · exact EntriesDB.keys_put_zero hkept.keyed hm.keys (by omega) _
    · obtain rfl : k = 0 := Nat.lt_one_iff.mp hk
      show wrote put 0 _ _ 0 = _
      rw [wrote, if_pos hok]
      rfl

/-- `join` begins with an empty log. -/
theorem mirrors_join_iff {fd : ℕ} {szAddress : Bytes} {raftPort : UInt32} (hm : m.Mirrors)
    (h : m.next lib (.launch (.join fd szAddress raftPort)) = some m') :
    m'.Mirrors ↔ m.InStep lib (.launch (.join fd szAddress raftPort)) := by
  obtain ⟨s, hs, rfl⟩ := next_launch h
  injection hs with hs
  rw [← hs]
  refine ⟨fun hm' => EntriesDB.size_of_keys hm'.keys, fun hzero => ⟨?_, fun k hk => ?_⟩⟩
  · show (EntriesDB.keys m.server.entriesDB).map _ = List.range 0
    rw [hm.keys, ← EntriesDB.size_of_keys hm.keys]
    exact congrArg List.range hzero
  · exact absurd hk (Nat.not_lt_zero k)

/-- `restart` fills the log from the table. -/
theorem mirrors_restart_iff {memory : ℕ → ℕ → UInt8} {status : Bool} (hm : m.Mirrors)
    (h : m.next lib (.launch (.restart memory status)) = some m') :
    m'.Mirrors ↔ m.InStep lib (.launch (.restart memory status)) := by
  obtain ⟨s, hs, rfl⟩ := next_launch h
  obtain ⟨proxys, hserver⟩ := RaftServer.launchRestart_eq_ok hs
  have hsize := EntriesDB.size_of_keys hm.keys
  have hget : ∀ k : ℕ, s.entries[k]? =
      (m.server.entriesDB.values[k]?).map fun kv => Entry.load lib (memory k) kv.2 := by
    intro k
    rw [hserver]
    exact RaftServer.getElem?_loaded lib memory m.server.entriesDB k
  have hlen : s.entries.length = m.server.entries.length := by
    rw [hserver, ← hsize]
    exact RaftServer.length_loaded lib memory m.server.entriesDB
  have hdb : s.entriesDB = m.server.entriesDB := by
    rw [hserver]
    rfl
  refine ⟨fun hm' k kv hkv => ?_, fun hread => ⟨?_, fun k hk => ?_⟩⟩
  · have hk : k < s.entries.length := by
      rw [hlen, ← hsize, ← OrdMap.length_values]
      exact (List.getElem?_eq_some_iff.mp hkv).1
    have hval : m.written k = s.entries[k]? := hm'.values k hk
    rw [hval, hget, hkv, Option.map_some]
  · show s.entriesDB.keys.map _ = List.range s.entries.length
    rw [hdb, hlen]
    exact hm.keys
  · have hk' : k < m.server.entriesDB.values.length := by
      rw [OrdMap.length_values, hsize, ← hlen]
      exact hk
    show m.written k = s.entries[k]?
    have hkv := List.getElem?_eq_getElem hk'
    rw [hget, hkv, Option.map_some]
    exact hread k _ hkv

/-- **One step keeps log and table in step** exactly if it meets the condition. -/
theorem mirrors_next_iff {e : MachineEvent} (hkept : m.Kept) (hm : m.Mirrors)
    (h : m.next lib e = some m') : m'.Mirrors ↔ m.InStep lib e := by
  cases e with
  | launch l =>
    cases l with
    | start put iRaftPort iNodeID => exact mirrors_start_iff hkept hm h
    | join fd szAddress raftPort => exact mirrors_join_iff hm h
    | restart memory status => exact mirrors_restart_iff hm h
  | appendCfgLog put strHost iRaftPort iNodeID => exact mirrors_append_iff hkept hm h
  | delLogsFromIndex dwIndex => exact mirrors_delete_iff hkept hm h

/-- An `AppendCfgLog` keeps the keys in their places. -/
theorem keyed_appendCfgLog {put : PutResult} {s : RaftServer} {strHost : Bytes}
    {iRaftPort iNodeID : Int32} (h : s.entriesDB.Keyed) :
    (s.appendCfgLog put strHost iRaftPort iNodeID).entriesDB.Keyed := by
  cases hok : put.ok with
  | false =>
    rw [RaftServer.appendCfgLog_of_refused hok]
    exact h
  | true =>
    rw [RaftServer.appendCfgLog_of_ok hok]
    exact EntriesDB.keyed_put h _ _

theorem kept_of_next {e : MachineEvent} (hkept : m.Kept) (h : m.next lib e = some m') :
    m'.Kept := by
  cases e with
  | launch l =>
    obtain ⟨s, hs, rfl⟩ := next_launch h
    cases l with
    | start put iRaftPort iNodeID =>
      obtain ⟨db, happ, _⟩ := RaftServer.appendCfgLog_frame put
        ({ RaftServer.new m.server.disk with role := .Leader } : RaftServer)
        RaftServer.startHost iRaftPort iNodeID
      rw [RaftServer.launchStart_eq_ok hs]
      refine ⟨keyed_appendCfgLog hkept.keyed, ?_⟩
      rw [happ]
      rfl
    | join fd szAddress raftPort =>
      injection hs with hs
      rw [← hs]
      exact ⟨hkept.keyed, rfl⟩
    | restart memory status =>
      obtain ⟨proxys, hserver⟩ := RaftServer.launchRestart_eq_ok hs
      rw [hserver]
      exact ⟨hkept.keyed, rfl⟩
  | appendCfgLog put strHost iRaftPort iNodeID =>
    obtain rfl := Option.some.inj h
    obtain ⟨db, happ, _⟩ := RaftServer.appendCfgLog_frame put m.server strHost iRaftPort iNodeID
    refine ⟨keyed_appendCfgLog hkept.keyed, ?_⟩
    show (m.server.appendCfgLog put strHost iRaftPort iNodeID).logs = []
    rw [happ]
    exact hkept.logs
  | delLogsFromIndex dwIndex =>
    obtain rfl := Option.some.inj h
    show Kept { m with server := m.server.delLogsFromIndex dwIndex }
    rw [RaftServer.delLogsFromIndex]
    split_ifs
    · exact hkept
    · obtain ⟨db, logs, hs, hlogs, hsub, _⟩ :=
        RaftServer.deleteLoop_spec (m.server.entriesDB.seek (indexKey dwIndex)) m.server
      rw [hs]
      exact ⟨fun kv hkv => hkept.keyed kv (hsub kv hkv), hlogs hkept.logs⟩

/-- **The entries DB mirrors the log in memory** in every run whose launches and calls keep
them in step, and a step keeps that up exactly if it is one of these. -/
theorem mirrors_disk (lib : Protobuf) (h : (system lib).Reachable (InStep lib) m) :
    m.Mirrors ∧ ∀ e m', m.next lib e = some m' → (m'.Mirrors ↔ m.InStep lib e) := by
  have hall : m.Kept ∧ m.Mirrors := by
    apply h.invariant (I := fun m => m.Kept ∧ m.Mirrors)
    · rintro m ⟨stateDB, rfl⟩
      exact ⟨⟨fun kv hkv => absurd hkv List.not_mem_nil, rfl⟩, rfl,
        fun k hk => absurd hk (Nat.not_lt_zero k)⟩
    · intro m e m' _ hm hC hn
      exact ⟨kept_of_next hm.1 hn, (mirrors_next_iff hm.1 hm.2 hn).mpr hC⟩
  exact ⟨hall.2, fun e m' hn => mirrors_next_iff hall.1 hall.2 hn⟩

/-- A machine on which nothing has run. -/
def blank : Machine := ⟨.new ⟨none, .empty⟩, fun _ => none⟩

theorem reachable_blank (lib : Protobuf) {C : Machine → MachineEvent → Prop} :
    (system lib).Reachable C blank :=
  System.reachable_init ⟨none, rfl⟩

/-- Node 1 is started at port 7777, and every `Put` succeeds. -/
def starts : MachineEvent := .launch (.start ⟨true, []⟩ 7777 1)

/-- A node that has started and added a second one. -/
theorem mirrors_disk_two : ∃ m,
    (system RaftServer.asciiProtobuf).Reachable (InStep RaftServer.asciiProtobuf) m ∧
      m.server.entries.length = 2 ∧ m.Mirrors := by
  have hinit : (system RaftServer.asciiProtobuf).Reachable
      (InStep RaftServer.asciiProtobuf) blank :=
    reachable_blank RaftServer.asciiProtobuf
  have hstart : (system RaftServer.asciiProtobuf).Allowed (InStep RaftServer.asciiProtobuf) blank
      [starts, .appendCfgLog ⟨true, []⟩ RaftServer.startHost 7778 2] := by
    refine ⟨Nat.zero_le _, fun m' hm' => ⟨fun _ => ?_, fun _ _ => trivial⟩⟩
    obtain rfl := Option.some.inj hm'
    decide
  obtain ⟨m, hm, htest⟩ := System.exists_of_run
    [starts, .appendCfgLog ⟨true, []⟩ RaftServer.startHost 7778 2]
    (fun m : Machine => m.server.entries.length = 2) hinit hstart (by decide +kernel)
  exact ⟨m, hm, of_decide_eq_true htest, (mirrors_disk RaftServer.asciiProtobuf hm).1⟩

/-- A start and a join on the same directories: the table has a key, and the log no entry. -/
theorem join_keeps_keys :
    ¬ ∀ m, (system RaftServer.asciiProtobuf).Reachable System.anyStep m → m.Mirrors := by
  intro hall
  obtain ⟨m, hm, htest⟩ := System.exists_of_run
    [starts, .launch (.join 0 RaftServer.startHost 7778)]
    (fun m : Machine => m.server.entries = [] ∧ m.server.entriesDB.keys = [0])
    (reachable_blank RaftServer.asciiProtobuf) (System.allowed_anyStep _ _) (by decide +kernel)
  obtain ⟨hentries, hkeys⟩ := of_decide_eq_true htest
  have hmirrors := (hall m hm).keys
  rw [hkeys, hentries] at hmirrors
  cases hmirrors

end Machine
end NanoRaft
