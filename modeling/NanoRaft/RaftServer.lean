import NanoRaft.Proto

/-!
# The server

The state of a `RaftServer` with its proxies and registered connections, and the member
functions of `nanoraft/RaftServer.cpp`, `nanoraft/RaftProxy.cpp` and `net/Conn.cpp` that
read or change it.

A connection is named by its file descriptor and a proxy by the id of its node, so a
`weak_ptr` is the name of the object and locking it is a lookup. What leveldb answers, and
the memory behind a serialized entry, are inputs (`PutResult`). A function that would
leave the process or read outside a container ends in a `Fault` instead of a state.
-/

namespace NanoRaft

/-- The ways in which a handler does not come back. -/
inductive Fault where
  /-- An index outside a deque. -/
  | outOfRange
  /-- `exit(1)` after the state DB refused a `Put`. -/
  | exit
  /-- `operator[]` of the proxy map on an absent id: a null proxy is inserted. -/
  | nullProxy
  /-- `erase(end())` on the connection map. -/
  | eraseEnd
  deriving DecidableEq, Repr

abbrev Result := Except Fault

/-- What one `Put` into the entries DB meets: its status, and the bytes that happen to
lie behind the value's buffer. -/
structure PutResult where
  ok : Bool
  after : Bytes

/-- What the databases answer during one handler call: the status of the `Put` of the
term, and of the `Put` made for the `i`-th entry handed to the append loop. -/
structure Puts where
  term : Bool
  entry : ℕ → PutResult

/-- Every `Put` succeeds. -/
def Puts.allOk : Puts := ⟨true, fun _ => ⟨true, []⟩⟩

/-! ## The state -/

inductive RaftProxyRole where
  | None
  | Candidate
  | Follower
  | Leader
  deriving DecidableEq, Repr

inductive RaftProxyState where
  | IsVoting
  | SufficientLog
  | InActive
  deriving DecidableEq, Repr

/-- The leader's picture of another node. -/
structure RaftProxy where
  state : RaftProxyState
  nextIndex : UInt64
  matchIndex : UInt64
  /-- The connection tied to the proxy; `none` is the initial `m_iConnFd_ = -1`. -/
  connFd : Option ℕ
  deriving DecidableEq, Repr

/-- A connection registered in `m_stConns_`. -/
structure Conn where
  addr : Bytes
  raftPort : UInt32
  /-- The node whose proxy the connection is tied to. -/
  proxy : Option UInt32
  /-- The channel has read interest, so arriving messages are handled. -/
  reading : Bool
  deriving DecidableEq, Repr

/-- An element of the deprecated log `m_stLogs_`; only its term is ever read. -/
structure RaftLogEntry where
  term : UInt32
  deriving DecidableEq, Repr

/-- The one-shot follower heartbeat timer. -/
inductive FollowerTimer where
  | absent
  | armed
  | expired
  deriving DecidableEq, Repr

structure RaftServer where
  currentTerm : UInt32
  commitIndex : UInt32
  role : RaftProxyRole
  logBase : UInt64
  proxys : OrdMap UInt32 RaftProxy
  logs : List RaftLogEntry
  entries : List Entry
  conns : OrdMap ℕ Conn
  /-- The value under key `"term"` of the state DB. -/
  stateDB : Option UInt32
  entriesDB : EntriesDB
  timer : FollowerTimer

/-- What the two database directories hold when a process starts. -/
structure Disk where
  stateDB : Option UInt32
  entriesDB : EntriesDB

/-- Messages put on connections, in the order of the sends. -/
abbrev Sends := List (ℕ × Message)

/-! ## `RaftProxy` -/

def RaftProxy.new : RaftProxy :=
  { state := .IsVoting, nextIndex := 1, matchIndex := 0, connFd := none }

namespace RaftServer

/-- The constructor on existing directories: nothing is read back from them. -/
def new (disk : Disk) : RaftServer where
  currentTerm := 0
  commitIndex := 0
  role := .Follower
  logBase := 0
  proxys := .empty
  logs := []
  entries := []
  conns := .empty
  stateDB := disk.stateDB
  entriesDB := disk.entriesDB
  timer := .absent

/-! ## Proxies and connections -/

/-- `ProxyConnFd`; `none` is the answer `-1`. -/
def proxyConnFd (s : RaftServer) (dwID : UInt32) : Option ℕ :=
  (s.proxys.find? dwID).bind RaftProxy.connFd

def addProxy (s : RaftServer) (dwID : UInt32) : RaftServer :=
  match s.proxys.find? dwID with
  | some _ => { s with proxys := s.proxys.modify dwID fun p => { p with state := .IsVoting } }
  | none => { s with proxys := s.proxys.insert dwID .new }

/-- `Conn::SetRaftPort`. -/
def setRaftPort (s : RaftServer) (fd : ℕ) (raftPort : UInt32) : RaftServer :=
  { s with conns := s.conns.modify fd fun c => { c with raftPort := raftPort } }

/-- `Conn::Tie(uint32_t)`: tie the connection to the proxy and the proxy to it. -/
def tie (s : RaftServer) (fd : ℕ) (dwID : UInt32) : Result RaftServer :=
  match s.proxys.find? dwID with
  | none => .error .nullProxy
  | some _ => .ok { s with
      conns := s.conns.modify fd fun c => { c with proxy := some dwID }
      proxys := s.proxys.modify dwID fun p => { p with connFd := some fd } }

/-- `OfflineConn`. -/
def offlineConn (s : RaftServer) (fd : ℕ) : Result RaftServer :=
  match s.conns.find? fd with
  | none => .error .eraseEnd
  | some _ => .ok { s with conns := s.conns.erase fd }

/-- `Conn::Server_CloseConn(iFd)` called on connection `fd`: the channel that is disabled
is the caller's own. -/
def closeConn (s : RaftServer) (fd iFd : ℕ) : Result RaftServer :=
  offlineConn { s with conns := s.conns.modify fd fun c => { c with reading := false } } iFd

/-! ## The log -/

/-- `LastEntryIndex`: `0` both for the empty and for the one-entry log. -/
def lastEntryIndex (s : RaftServer) : ℕ :=
  if s.entries.isEmpty then 0 else s.entries.length - 1

/-- The common body of `LogTermByIndex` and `EntryTermByIndex`: `-1` beyond the end, with
the comparison made on a 32-bit `dwIndex + 1`, and the term read as a signed number. -/
def termByIndex (terms : List UInt32) (dwIndex : UInt32) : Result Int32 :=
  if terms.length < (dwIndex + 1).toNat then .ok (-1)
  else match terms[dwIndex.toNat]? with
    | some t => .ok t.toInt32
    | none => .error .outOfRange

/-- `LogTermByIndex` looks into the deprecated log. -/
def logTermByIndex (s : RaftServer) (dwIndex : UInt32) : Result Int32 :=
  termByIndex (s.logs.map RaftLogEntry.term) dwIndex

def entryTermByIndex (s : RaftServer) (dwIndex : UInt32) : Result Int32 :=
  termByIndex (s.entries.map Entry.term) dwIndex

def entryByIndex (s : RaftServer) (dwIndex : UInt32) : Result Entry :=
  match s.entries[dwIndex.toNat]? with
  | some e => .ok e
  | none => .error .outOfRange

/-- `LastLogIndex`, of the deprecated log. -/
def lastLogIndex (s : RaftServer) : UInt64 := UInt64.ofNat s.logs.length + s.logBase

/-- `DelLogsFromIndex`: the iterator walks over the table as it was at the call; each key
is deleted from the DB and one element popped from the deprecated log. -/
def delLogsFromIndex (s : RaftServer) (dwIndex : UInt32) : RaftServer :=
  if s.logs.length < (dwIndex + 1).toNat then s
  else (s.entriesDB.seek (indexKey dwIndex)).foldl
    (fun s kv => { s with entriesDB := s.entriesDB.erase kv.1, logs := s.logs.dropLast }) s

/-- The entry `AppendCfgLog` builds: always `CFGADD`, always in the current term. -/
def cfgEntry (s : RaftServer) (strHost : Bytes) (iRaftPort iNodeID : Int32) : Entry where
  type := .CFGADD
  term := s.currentTerm
  nodeid := iNodeID.toUInt32
  port := iRaftPort.toUInt32
  host := strHost
  write_it := 0

/-- `AppendCfgLog`: the entry is pushed only if the DB took it. -/
def appendCfgLog (put : PutResult) (s : RaftServer) (strHost : Bytes)
    (iRaftPort iNodeID : Int32) : RaftServer :=
  let e := s.cfgEntry strHost iRaftPort iNodeID
  if put.ok then
    { s with
      entriesDB := s.entriesDB.put (UInt32.ofNat s.entries.length)
        (sliceOfCStr e.serialize put.after)
      entries := s.entries ++ [e] }
  else s

/-! ## Terms and roles -/

/-- `SetAndPersistTerm`. -/
def setAndPersistTerm (puts : Puts) (s : RaftServer) (dwTerm : UInt32) : Result RaftServer :=
  if puts.term then .ok { s with stateDB := some dwTerm, currentTerm := dwTerm }
  else .error .exit

def becomeFollower (s : RaftServer) : RaftServer := { s with role := .Follower }

/-- `BecomeCandidate` only counts the term up; the role stays. -/
def becomeCandidate (s : RaftServer) : RaftServer := { s with currentTerm := s.currentTerm + 1 }

/-- `FreshTime(FollowerHeartbeatTimer)`: re-arm the timer if the node has one. -/
def freshTime (s : RaftServer) : RaftServer :=
  { s with timer := if s.timer = .absent then .absent else .armed }

/-! ## Sending -/

/-- The message `Conn::SendAppendEntries` builds for a proxy: the entry at `NextIndex()`
if there is one, preceded by entry 0 when `NextIndex()` is 1. -/
def buildAppendEntries (s : RaftServer) (p : RaftProxy) : Result AppendEntriesQ := do
  let iResult ← s.entryTermByIndex (p.nextIndex - 1).toUInt32
  let entries ←
    if p.nextIndex.toNat ≤ s.lastEntryIndex then do
      let first ← if p.nextIndex - 1 = 0 then (fun e => [e]) <$> s.entryByIndex 0 else pure []
      let e ← s.entryByIndex p.nextIndex.toUInt32
      pure (first ++ [e])
    else pure []
  pure {
    term := s.currentTerm
    prelogindex := (p.nextIndex - 1).toUInt32
    prelogterm := if iResult ≠ -1 then iResult.toUInt32 else 0
    leadercommit := s.commitIndex
    entries := entries }

/-- `Conn::SendAppendEntries`: the proxy served is the one the connection is tied to. -/
def connSendAppendEntries (s : RaftServer) (fd : ℕ) : Result Sends :=
  match (s.conns.find? fd).bind Conn.proxy with
  | none => .ok []
  | some dwID =>
    match s.proxys.find? dwID with
    | none => .ok []
    | some p => do
      let q ← s.buildAppendEntries p
      pure [(fd, .appendentries_q q)]

/-- `RaftProxy::SendAppendEntries`. The source locks the `weak_ptr` `m_pstConn_`; here the
connection is looked up by its number, `m_iConnFd_`. The two differ only when the proxy's
connection is closed and the number has gone to a later one: the message of the proxy which that
one is tied to is then built once more. What is sent changes no server, and the broadcast fails
on that proxy's own message already; `Registry.sendAppendEntries` follows the pointer. -/
def proxySendAppendEntries (s : RaftServer) (p : RaftProxy) : Result Sends :=
  match p.connFd with
  | none => .ok []
  | some fd => s.connSendAppendEntries fd

/-- The loop of `BroadCastAppendEntries`. -/
def broadCastLoop (s : RaftServer) : List RaftProxy → Result Sends
  | [] => .ok []
  | p :: ps => do
    let ms ← if p.state = .InActive then pure [] else s.proxySendAppendEntries p
    let rest ← s.broadCastLoop ps
    pure (ms ++ rest)

def broadCastAppendEntries (s : RaftServer) : Result Sends := s.broadCastLoop s.proxys.values

/-- The loop of `BecomeLeader`, over the ids of the proxies: only the inactive ones are
reset and written to. -/
def becomeLeaderLoop (s : RaftServer) : List UInt32 → Result (RaftServer × Sends)
  | [] => .ok (s, [])
  | id :: ids =>
    match s.proxys.find? id with
    | none => .error .nullProxy
    | some p =>
      if p.state ≠ .InActive then s.becomeLeaderLoop ids
      else do
        let p' := { p with nextIndex := s.lastLogIndex + 1, matchIndex := 0 }
        let s' := { s with proxys := s.proxys.modify id fun _ => p' }
        let ms ← s'.proxySendAppendEntries p'
        let (s'', rest) ← s'.becomeLeaderLoop ids
        pure (s'', ms ++ rest)

def becomeLeader (s : RaftServer) : Result (RaftServer × Sends) :=
  becomeLeaderLoop { s with role := .Leader } (s.proxys.toList.map Prod.fst)

/-! ## The commit rule -/

/-- How many proxies have the index after the commit index, which is counted up in 32
bits. -/
def replicaCount (s : RaftServer) : ℕ :=
  s.proxys.values.countP fun p => decide ((s.commitIndex + 1).toUInt64 ≤ p.matchIndex)

/-- `ChangeCommitIndex`: advance by one when more than half of the proxies have the next
index and its entry is of the current term. -/
def changeCommitIndex (s : RaftServer) : Result (RaftServer × Bool) :=
  if s.proxys.size / 2 + 1 ≤ s.replicaCount then
    match s.entries[(s.commitIndex + 1).toNat]? with
    | none => .error .outOfRange
    | some e =>
      if e.term = s.currentTerm then
        .ok ({ s with commitIndex := s.commitIndex + 1 }, true)
      else .ok (s, false)
  else .ok (s, false)

end RaftServer
end NanoRaft
