import NanoRaft.RaftServer

/-!
# The message handlers

The handlers of `mod/ModApi.hpp` and the timer callbacks of `easytimer/Timer.cpp`, as
functions from the server and the message to the server after the call and the messages
sent. `AppendEntriesQ` is cut at its numbered comments; its shared tail `sendreponse` is
the function of that name.
-/

namespace NanoRaft
namespace RaftServer

/-! ## `HandshakeQ` -/

/-- A node whose proxy already has a connection: that connection is closed, unless it is
the one the handshake came on, and the proxy tied to the new one. -/
def handshakeKnown (s : RaftServer) (fd iOldConnFd : ℕ) (dwID : UInt32) : Result RaftServer := do
  let s ← if iOldConnFd ≠ fd then s.closeConn fd iOldConnFd else pure s
  s.tie fd dwID

/-- A node that has no connected proxy yet: add it, log the new configuration and
broadcast. -/
def handshakeNew (put : PutResult) (s : RaftServer) (fd : ℕ) (c : Conn) (q : HandshakeQ) :
    Result (RaftServer × Sends) := do
  let s ← (s.addProxy q.nodeid).tie fd q.nodeid
  let s := s.appendCfgLog put c.addr q.raftport.toInt32 q.nodeid.toInt32
  let ms ← s.broadCastAppendEntries
  pure (s, ms)

/-- `HandshakeQ` on connection `fd`; a connection that is gone is not answered. -/
def handshakeQ (puts : Puts) (s : RaftServer) (fd : ℕ) (q : HandshakeQ) :
    Result (RaftServer × Sends) :=
  match s.conns.find? fd with
  | none => .ok (s, [])
  | some c =>
    if s.role ≠ .Leader then .ok (s, [(fd, .handshake_r ⟨false⟩)])
    else do
      let s := s.setRaftPort fd q.raftport
      let (s, ms) ← match s.proxyConnFd q.nodeid with
        | some iOldConnFd => do
          let s ← s.handshakeKnown fd iOldConnFd q.nodeid
          pure (s, [])
        | none => s.handshakeNew (puts.entry 0) fd c q
      pure (s, ms ++ [(fd, .handshake_r ⟨true⟩)])

/-! ## `AppendEntriesQ` -/

/-- 1: the term check; `none` is the jump of a stale message. -/
def checkTerm (puts : Puts) (s : RaftServer) (q : AppendEntriesQ) : Result (Option RaftServer) :=
  if s.role = .Candidate ∧ s.currentTerm = q.term then .ok (some s.becomeFollower)
  else if s.currentTerm < q.term then do
    let s ← s.setAndPersistTerm puts q.term
    pure (some s.becomeFollower)
  else if q.term < s.currentTerm then .ok none
  else .ok (some s)

/-- The consistency check on the entry before the new ones. -/
def checkPrev (s : RaftServer) (q : AppendEntriesQ) : Result Bool :=
  if 0 < q.prelogindex then do
    let iPrevTerm ← s.entryTermByIndex q.prelogindex
    pure (decide (iPrevTerm ≠ -1 ∧ iPrevTerm.toUInt32 = q.prelogterm))
  else .ok true

/-- 3: the conflict scan, from the `i`-th entry on. It compares with the deprecated log and
passes the term found there to `DelLogsFromIndex`. The entries left for the append loop are
those from the first one that does not conflict. -/
def conflictScan (s : RaftServer) (prelogindex : UInt32) :
    ℕ → List Entry → Result (RaftServer × List Entry)
  | _, [] => .ok (s, [])
  | i, e :: es => do
    let dwNewIndex := prelogindex + 1 + UInt32.ofNat i
    let iExistingTerm ← s.logTermByIndex dwNewIndex
    if iExistingTerm ≠ -1 ∧ iExistingTerm ≠ e.term.toInt32 ∧ s.commitIndex < dwNewIndex then
      (s.delLogsFromIndex iExistingTerm.toUInt32).conflictScan prelogindex (i + 1) es
    else pure (s, e :: es)

/-- 4: the append loop; an entry that is no configuration change is passed over. -/
def appendLoop (put : ℕ → PutResult) (s : RaftServer) : List Entry → RaftServer
  | [] => s
  | e :: es =>
    let s := if e.IsCfg then s.appendCfgLog (put 0) e.host e.port.toInt32 e.nodeid.toInt32 else s
    s.appendLoop (fun i => put (i + 1)) es

/-- The commit update under the label `sendreponse`. -/
def followCommit (s : RaftServer) (q : AppendEntriesQ) : RaftServer :=
  if s.commitIndex < q.leadercommit then
    { s with commitIndex := min q.leadercommit (q.prelogindex + UInt32.ofNat q.entries.length) }
  else s

/-- The tail every path of `AppendEntriesQ` ends in, the rejections included. -/
def sendreponse (s : RaftServer) (q : AppendEntriesQ) (success isheartbeat : Bool) :
    RaftServer × AppendEntriesR :=
  (s.followCommit q, ⟨(s.followCommit q).currentTerm, success, isheartbeat⟩)

/-- 3 and 4: what is done with the entries of an accepted message. -/
def storeEntries (puts : Puts) (s : RaftServer) (q : AppendEntriesQ) : Result RaftServer := do
  let (s, rest) ← s.conflictScan q.prelogindex 0 q.entries
  pure (s.appendLoop puts.entry rest)

def appendEntriesQ (puts : Puts) (s : RaftServer) (q : AppendEntriesQ) :
    Result (RaftServer × AppendEntriesR) := do
  match ← s.checkTerm puts q with
  | none => pure (s.sendreponse q false false)
  | some s =>
    if ← s.checkPrev q then
      if q.entries.isEmpty then pure (s.freshTime.sendreponse q true true)
      else do
        let s ← s.storeEntries puts q
        pure (s.sendreponse q true false)
    else pure (s.sendreponse q false false)

/-! ## `AppendEntriesR` -/

/-- `Proxy_IncrMatchIndex` and `Proxy_IncrNextIndex` on the proxy the connection is tied
to. -/
def incrProxy (s : RaftServer) (fd : ℕ) : RaftServer :=
  match (s.conns.find? fd).bind Conn.proxy with
  | none => s
  | some dwID => { s with proxys := s.proxys.modify dwID fun p =>
      { p with matchIndex := p.matchIndex + 1, nextIndex := p.nextIndex + 1 } }

/-- The counters after a reply: only the answer to a message with entries counts. -/
def countReply (s : RaftServer) (fd : ℕ) (r : AppendEntriesR) : RaftServer :=
  if r.success ∧ ¬ r.isheartbeat then s.incrProxy fd else s

def appendEntriesR (puts : Puts) (s : RaftServer) (fd : ℕ) (r : AppendEntriesR) :
    Result RaftServer :=
  if s.currentTerm < r.term then do
    let s ← s.setAndPersistTerm puts r.term
    pure s.becomeFollower
  else do
    let (s, _) ← (s.countReply fd r).changeCommitIndex
    pure s

/-! ## Dispatch and timers -/

/-- `ModApi::Proc` for a message that arrived on connection `fd`. -/
def proc (puts : Puts) (s : RaftServer) (fd : ℕ) : Message → Result (RaftServer × Sends)
  | .handshake_q q => s.handshakeQ puts fd q
  | .handshake_r _ => .ok (s, [])
  | .appendentries_q q => do
    let (s, r) ← s.appendEntriesQ puts q
    pure (s, [(fd, .appendentries_r r)])
  | .appendentries_r r => do
    let s ← s.appendEntriesR puts fd r
    pure (s, [])

/-- `Timer::HeartBeatTimeoutCallback`; the vote broadcast only prints. -/
def heartBeatTimeout (s : RaftServer) : RaftServer :=
  { s.becomeCandidate with timer := .expired }

/-- `TcpAcceptCallback`: register the accepted connection, with read interest. -/
def accept (s : RaftServer) (fd : ℕ) (addr : Bytes) : RaftServer :=
  { s with conns := s.conns.insert fd ⟨addr, 0, none, true⟩ }

/-! ## Start-up -/

/-- `"192.168.1.46"`. -/
def startHost : Bytes := [49, 57, 50, 46, 49, 54, 56, 46, 49, 46, 52, 54]

/-- The `start` branch of `main`, up to the event loop. -/
def launchStart (put : PutResult) (disk : Disk) (iRaftPort iNodeID : Int32) : Result RaftServer := do
  let (s, _) ← (RaftServer.new disk).becomeLeader
  pure (s.appendCfgLog put startHost iRaftPort iNodeID)

/-- The `join` branch of `main`: the connection `fd` to the start node is registered and
the heartbeat timer armed. -/
def launchJoin (disk : Disk) (fd : ℕ) (szAddress : Bytes) (raftPort : UInt32) : RaftServer :=
  { RaftServer.new disk with
    conns := OrdMap.empty.insert fd ⟨szAddress, raftPort, none, true⟩
    timer := .armed }

end RaftServer
end NanoRaft
