import NanoRaft.Wire
import NanoRaft.Node

/-!
# Restarts

`LoadEntries` and the three ways in which `main` launches a process on existing
directories. A crash keeps what the two databases hold, and nothing else.

* `term_survives`: the terms a restarted node has not forgotten. Nothing on the way through
  the constructor and `LoadEntries` reads the state DB.
-/

namespace NanoRaft
namespace RaftServer

/-! ## `LoadEntries` -/

/-- The loop of `LoadEntries` over the values of the table; `memory i` is what lies behind
the `i`-th of them. -/
def loadLoop (lib : Protobuf) (memory : ℕ → ℕ → UInt8) (s : RaftServer) :
    List Bytes → RaftServer
  | [] => s
  | value :: values =>
    let e := Entry.load lib (memory 0) value
    let s := if e.type = .CFGADD then s.addProxy e.nodeid else s
    loadLoop lib (fun i => memory (i + 1)) { s with entries := s.entries ++ [e] } values

/-- `LoadEntries`; `status` is the iterator's at the end. -/
def loadEntries (lib : Protobuf) (memory : ℕ → ℕ → UInt8) (status : Bool) (s : RaftServer) :
    Result RaftServer :=
  let s := loadLoop lib memory { s with entries := [] } (s.entriesDB.values.map Prod.snd)
  if status then .ok s else .error .exit

/-- The entries found in a list of values. -/
def loaded (lib : Protobuf) (memory : ℕ → ℕ → UInt8) (values : List Bytes) : List Entry :=
  values.mapIdx fun i value => Entry.load lib (memory i) value

theorem getElem?_loaded (lib : Protobuf) (memory : ℕ → ℕ → UInt8) (db : EntriesDB) (k : ℕ) :
    (loaded lib memory (db.values.map Prod.snd))[k]? =
      (db.values[k]?).map fun kv => Entry.load lib (memory k) kv.2 := by
  rw [loaded, List.getElem?_mapIdx, List.getElem?_map, Option.map_map]
  rfl

theorem length_loaded (lib : Protobuf) (memory : ℕ → ℕ → UInt8) (db : EntriesDB) :
    (loaded lib memory (db.values.map Prod.snd)).length = db.size := by
  simp [loaded]

/-- The loop pushes the entries and adds proxies. -/
theorem loadLoop_frame (lib : Protobuf) (memory : ℕ → ℕ → UInt8) (s : RaftServer)
    (values : List Bytes) : ∃ proxys, loadLoop lib memory s values = { s with
      proxys := proxys
      entries := s.entries ++ loaded lib memory values } := by
  induction values generalizing s memory with
  | nil => exact ⟨s.proxys, by rw [loadLoop, loaded, List.mapIdx_nil, List.append_nil]⟩
  | cons value values ih =>
    rw [loadLoop, loaded, List.mapIdx_cons]
    -- the proxy of a `CFGADD` is added before the entry is pushed
    by_cases hcfg : (Entry.load lib (memory 0) value).type = .CFGADD
    · rw [if_pos hcfg, addProxy_frame]
      obtain ⟨proxys, h⟩ := ih (fun i => memory (i + 1)) _
      refine ⟨proxys, h.trans ?_⟩
      rw [List.append_assoc]
      rfl
    · rw [if_neg hcfg]
      obtain ⟨proxys, h⟩ := ih (fun i => memory (i + 1)) _
      refine ⟨proxys, h.trans ?_⟩
      rw [List.append_assoc]
      rfl

/-! ## Launching a process -/

/-- The branches of `main`. -/
inductive Launch where
  | start (put : PutResult) (iRaftPort iNodeID : Int32)
  | join (fd : ℕ) (szAddress : Bytes) (raftPort : UInt32)
  | restart (memory : ℕ → ℕ → UInt8) (status : Bool)

/-- What a crash leaves behind. -/
def disk (s : RaftServer) : Disk := ⟨s.stateDB, s.entriesDB⟩

/-- A new process on existing directories, after its start-up code. -/
def launch (lib : Protobuf) (disk : Disk) : Launch → Result RaftServer
  | .start put iRaftPort iNodeID => launchStart put disk iRaftPort iNodeID
  | .join fd szAddress raftPort => .ok (launchJoin disk fd szAddress raftPort)
  | .restart memory status => loadEntries lib memory status (.new disk)

theorem launchRestart_eq_ok {lib : Protobuf} {disk : Disk} {memory : ℕ → ℕ → UInt8}
    {status : Bool} {s : RaftServer} (h : launch lib disk (.restart memory status) = .ok s) :
    ∃ proxys, s = { new disk with
      proxys := proxys
      entries := loaded lib memory (disk.entriesDB.values.map Prod.snd) } := by
  have hload : (if status then _ else _) = Except.ok s := h
  split at hload
  · obtain ⟨proxys, hframe⟩ := loadLoop_frame lib memory { new disk with entries := [] }
      (disk.entriesDB.values.map Prod.snd)
    injection hload with hs
    exact ⟨proxys, hs.symm.trans hframe⟩
  · cases hload

/-! ## The term of a restarted node -/

/-- An event in the life of a node: a callback, or a call of `SetAndPersistTerm` on its own.
A crash inside a handler leaves the directories as they are after some of its calls. -/
inductive LifeEvent where
  | callback (e : NodeEvent)
  | setAndPersistTerm (puts : Puts) (dwTerm : UInt32)

/-- The lives of the processes launched on any directories, each up to a crash. -/
def life (lib : Protobuf) : System RaftServer LifeEvent where
  init s := ∃ disk l, launch lib disk l = .ok s
  next s
    | .callback e => (s.handle e).toOption.map Prod.fst
    | .setAndPersistTerm puts dwTerm => (s.setAndPersistTerm puts dwTerm).toOption

/-- The server is not behind the term `x`, nor does it take or send messages of a term
before it. -/
structure KeepsTerm (s : RaftServer) (x : UInt32) : Prop where
  term : x ≤ s.currentTerm
  accepts : ∀ q, s.Accepts q → x ≤ q.term
  answers : ∀ puts q s' r, s.appendEntriesQ puts q = .ok (s', r) → x ≤ r.term
  sends : ∀ p q, s.buildAppendEntries p = .ok q → x ≤ q.term

theorem keepsTerm_iff {s : RaftServer} {x : UInt32} : s.KeepsTerm x ↔ x ≤ s.currentTerm := by
  refine ⟨KeepsTerm.term, fun hx => ⟨hx, fun q hq => le_trans hx hq.term, ?_, ?_⟩⟩
  · intro puts q s' r h
    rw [(appendEntriesQ_reply h).1, appendEntriesQ_currentTerm h]
    exact le_trans hx (le_max_left _ _)
  · intro p q h
    rw [(buildAppendEntries_cases h).1]
    exact hx

/-- The restart of a node, whatever it finds in its directories, keeps every term it had
stored. -/
def TermSurvives (lib : Protobuf) (s : RaftServer) : Prop :=
  ∀ memory status t, launch lib s.disk (.restart memory status) = .ok t →
    ∀ x, s.stateDB = some x → t.KeepsTerm x

/-- **The term survives a restart** exactly if there was none to keep: the node had stored no
term, or 0 as the last one. -/
theorem term_survives (lib : Protobuf) :
    ∀ s, (life lib).Reachable System.anyStep s →
      (TermSurvives lib s ↔ ∀ x, s.stateDB = some x → x = 0) := by
  intro s _
  constructor
  · intro hall x hx
    -- a restart that comes back, with nothing but zeros behind the values
    have hok : launch lib s.disk (.restart (fun _ _ => 0) true) = .ok _ := rfl
    obtain ⟨proxys, ht⟩ := launchRestart_eq_ok hok
    have hle := (hall _ _ _ hok x hx).term
    rw [ht] at hle
    exact UInt.eq_zero_of_le hle
  · intro hzero memory status t ht x hx
    rw [keepsTerm_iff, hzero x hx]
    exact UInt32.le_iff_toNat_le.mpr (Nat.zero_le _)

/-- A node that stored term 0 and joined keeps it. -/
theorem term_survives_zero :
    ∃ s, (life asciiProtobuf).Reachable System.anyStep s ∧ s.stateDB = some 0 ∧
      TermSurvives asciiProtobuf s := by
  have hinit : (life asciiProtobuf).Reachable System.anyStep
      (launchJoin ⟨none, .empty⟩ 0 startHost 7778) :=
    System.reachable_init ⟨⟨none, .empty⟩, .join 0 startHost 7778, rfl⟩
  obtain ⟨s, hs, htest⟩ := System.exists_of_run [.setAndPersistTerm .allOk 0]
    (fun s : RaftServer => s.stateDB = some 0) hinit (System.allowed_anyStep _ _)
    (by decide +kernel)
  have hzero : s.stateDB = some 0 := of_decide_eq_true htest
  refine ⟨s, hs, hzero, (term_survives asciiProtobuf s hs).mpr fun x hx => ?_⟩
  exact Option.some.inj (hx.symm.trans hzero)

/-- A node that moved to term 5 with a message of its leader comes back in term 0. -/
theorem term_forgotten :
    ¬ ∀ s, (life asciiProtobuf).Reachable System.anyStep s → TermSurvives asciiProtobuf s := by
  intro hall
  have hinit : (life asciiProtobuf).Reachable System.anyStep
      (launchJoin ⟨none, .empty⟩ 0 startHost 7778) :=
    System.reachable_init ⟨⟨none, .empty⟩, .join 0 startHost 7778, rfl⟩
  obtain ⟨s, hs, htest⟩ := System.exists_of_run
    [.callback (.message .allOk 0 (.appendentries_q ⟨5, 0, 0, 0, []⟩))]
    (fun s : RaftServer => s.stateDB = some 5) hinit (System.allowed_anyStep _ _)
    (by decide +kernel)
  have hok : launch asciiProtobuf s.disk (.restart (fun _ _ => 0) true) = .ok _ := rfl
  obtain ⟨proxys, ht⟩ := launchRestart_eq_ok hok
  have hkeeps := (hall s hs _ _ _ hok 5 (of_decide_eq_true htest)).term
  rw [ht] at hkeeps
  exact absurd (show (5 : UInt32) ≤ 0 from hkeeps) (by decide)

end RaftServer
end NanoRaft
