import NanoRaft.Poller
import NanoRaft.Transmit

/-!
# Pending output

What is left in an output buffer goes out in `SendCallback`, for which the channel has to
have write interest. Frames are queued by the message handlers, on their own connection and
by broadcasts on others, by the leader timer and by `AcceptedCallback`; only the loop of
`HandleArrivedMsg` looks at a buffer afterwards, that of its own connection.

* `scheduled_iff`: in which runs of the event loop pending output always has write interest.
-/

namespace NanoRaft

/-! ## Messages on the wire -/

/-- `repeated entry entries = 5`. -/
def entriesField (es : List Entry) : Bytes :=
  es.flatMap fun e => 0x2A :: Entry.varint 9 e.serialize.length ++ e.serialize

/-- A `bool` field: left out when it is false. -/
def boolField (tag : UInt8) (b : Bool) : Bytes := Entry.varintField tag b.toNat

namespace Message

def id : Message → UInt16
  | .handshake_q _ => 257
  | .handshake_r _ => 258
  | .appendentries_q _ => 259
  | .appendentries_r _ => 260

/-- `SerializeToArray`. -/
def serialize : Message → Bytes
  | .handshake_q q =>
    Entry.varintField 0x08 q.raftport.toNat ++ Entry.varintField 0x18 q.nodeid.toNat
  | .handshake_r r => boolField 0x08 r.result
  | .appendentries_q q =>
    Entry.varintField 0x08 q.term.toNat
      ++ Entry.varintField 0x10 q.prelogindex.toNat
      ++ Entry.varintField 0x18 q.prelogterm.toNat
      ++ Entry.varintField 0x20 q.leadercommit.toNat
      ++ entriesField q.entries
  | .appendentries_r r =>
    Entry.varintField 0x08 r.term.toNat ++ boolField 0x10 r.success ++ boolField 0x18 r.isheartbeat

end Message

namespace Registry

/-- The loop of `BroadCastAppendEntries`, over the proxies with their ids. -/
def broadCastLoop (r : Registry) : List (UInt32 × RaftProxy) → Result Sends
  | [] => .ok []
  | (dwID, p) :: ps => do
    let ms ← if p.state = .InActive then pure [] else r.sendAppendEntries dwID
    let rest ← r.broadCastLoop ps
    pure (ms ++ rest)

/-- `BroadCastAppendEntries` through the pointers of the proxies. -/
def broadCastAppendEntries (r : Registry) : Result Sends := r.broadCastLoop r.server.proxys.toList

end Registry

/-- `EnableRead` in `AcceptedCallback`, as the server's connection has it. -/
def RaftServer.startReading (s : RaftServer) (fd : ℕ) : RaftServer :=
  { s with conns := s.conns.modify fd fun c => { c with reading := true } }

theorem RaftServer.isSome_startReading (s : RaftServer) (fd k : ℕ) :
    ((s.startReading fd).conns.find? k).isSome = (s.conns.find? k).isSome := by
  rw [startReading, OrdMap.find?_modify]
  split_ifs with hk
  · rw [Option.isSome_map, hk]
  · rfl

/-! ## Connections that messages close -/

/-- A leader in term `t` steps down on this message. -/
def Message.deposes (t : UInt32) : Message → Bool
  | .appendentries_q q => t < q.term
  | .appendentries_r r => t < r.term
  | .handshake_q _ => false
  | .handshake_r _ => false

namespace RaftServer

/-- One of the messages on connection `fd` is a handshake that replaces connection `k`, and none
before it makes the leader step down. -/
def ClosedBy (s : RaftServer) (fd : ℕ) (ms : List Message) (k : ℕ) : Prop :=
  ∃ m ∈ ms.takeWhile (fun m => !m.deposes s.currentTerm), s.closes fd m = some k

instance decidableClosedBy (s : RaftServer) (fd : ℕ) (ms : List Message) (k : ℕ) :
    Decidable (s.ClosedBy fd ms k) :=
  inferInstanceAs (Decidable (∃ m ∈ _, _))

variable {s s' : RaftServer} {puts : Puts} {fd k : ℕ} {m : Message} {sent : Sends}

/-- A leader stays in office unless the message makes it step down, and nobody else becomes
leader. -/
theorem proc_leader_iff (h : s.proc puts fd m = .ok (s', sent)) :
    s'.role = .Leader ↔ s.role = .Leader ∧ m.deposes s.currentTerm = false := by
  cases m with
  | handshake_q q =>
    rw [(handshakeQ_role h).1]
    exact (and_iff_left rfl).symm
  | handshake_r r =>
    obtain ⟨rfl, _⟩ := Prod.mk.inj (Except.ok.inj h)
    exact (and_iff_left rfl).symm
  | appendentries_q q =>
    obtain ⟨r, ht, _⟩ := proc_appendEntriesQ h
    rw [appendEntriesQ_role ht, Message.deposes, decide_eq_false_iff_not]
    by_cases hst : q.term < s.currentTerm
    · rw [if_pos hst]
      exact (and_iff_left (not_lt.mpr hst.le)).symm
    · rw [if_neg hst]
      show (if s.currentTerm < q.term ∨ s.role = .Candidate then RaftProxyRole.Follower
        else s.role) = .Leader ↔ _
      by_cases hlt : s.currentTerm < q.term
      · simp [hlt]
      · rw [and_iff_left hlt]
        split_ifs with hcand
        · simp [hcand.resolve_left hlt]
        · exact Iff.rfl
  | appendentries_r r =>
    rw [Message.deposes, decide_eq_false_iff_not]
    rcases appendEntriesR_cases (proc_appendEntriesR h).1 with ⟨hlt, rfl⟩ | ⟨hle, b, hb⟩
    · simp [hlt]
    · obtain ⟨n, rfl⟩ := changeCommitIndex_frame hb
      rw [countReply_frame]
      exact (and_iff_left (not_lt.mpr hle)).symm

/-- On any other message the term stays. -/
theorem proc_currentTerm (h : s.proc puts fd m = .ok (s', sent))
    (hm : m.deposes s.currentTerm = false) : s'.currentTerm = s.currentTerm := by
  cases m with
  | handshake_q q => exact (handshakeQ_role h).2
  | handshake_r r =>
    obtain ⟨rfl, _⟩ := Prod.mk.inj (Except.ok.inj h)
    rfl
  | appendentries_q q =>
    obtain ⟨r, ht, _⟩ := proc_appendEntriesQ h
    rw [appendEntriesQ_currentTerm ht]
    exact max_eq_left (not_lt.mp (of_decide_eq_false hm))
  | appendentries_r r =>
    rcases appendEntriesR_cases (proc_appendEntriesR h).1 with ⟨hlt, _⟩ | ⟨_, b, hb⟩
    · exact absurd hlt (of_decide_eq_false hm)
    · obtain ⟨n, rfl⟩ := changeCommitIndex_frame hb
      rw [countReply_frame]

/-- As long as the leader is in office, a connection that a message does not replace is replaced
by the same messages afterwards as before. -/
theorem closes_proc {c : Conn} (hc : s.conns.find? fd = some c) (hlead : s.role = .Leader)
    (hlead' : s'.role = .Leader) (h : s.proc puts fd m = .ok (s', sent))
    (hk : s.closes fd m ≠ some k) (m' : Message) :
    s'.closes fd m' = some k ↔ s.closes fd m' = some k := by
  cases m' with
  | handshake_r | appendentries_q | appendentries_r => exact Iff.rfl
  | handshake_q q' =>
    show s'.replaced fd q' = some k ↔ s.replaced fd q' = some k
    rw [replaced_eq_some, replaced_eq_some, and_iff_right hlead', and_iff_right hlead]
    by_cases hm : ∃ q, m = .handshake_q q
    · obtain ⟨q, rfl⟩ := hm
      rw [(Registry.handshakeQ_links hc hlead h).2.1]
      split_ifs with heq
      · -- the node of the first handshake is on the new connection by now
        rw [heq]
        refine iff_of_false ?_ fun hold => hk (replaced_eq_some.mpr ⟨hlead, hold⟩)
        rintro ⟨hfd, hne⟩
        exact hne (Option.some.inj hfd).symm
      · exact Iff.rfl
    · rw [(proc_other (fun q hq => hm ⟨q, hq⟩) h).2]

theorem closedBy_cons_of_closes (hk : s.closes fd m = some k) (ms : List Message) :
    s.ClosedBy fd (m :: ms) k := by
  cases m with
  | handshake_q q => exact ⟨_, List.mem_cons_self, hk⟩
  | handshake_r | appendentries_q | appendentries_r => cases hk

/-- **One message.** What the rest closes is the same before and after a message. -/
theorem closedBy_cons_iff {c : Conn} (hc : s.conns.find? fd = some c)
    (h : s.proc puts fd m = .ok (s', sent)) (hk : s.closes fd m ≠ some k) (ms : List Message) :
    s.ClosedBy fd (m :: ms) k ↔ s'.ClosedBy fd ms k := by
  have hleader : ∀ (u : RaftServer) m, u.closes fd m = some k → u.role = .Leader := by
    intro u m hu
    cases m with
    | handshake_q q => exact (replaced_eq_some.mp hu).1
    | handshake_r | appendentries_q | appendentries_r => cases hu
  unfold ClosedBy
  by_cases hlead' : s'.role = .Leader
  · obtain ⟨hlead, hm⟩ := (proc_leader_iff h).mp hlead'
    rw [List.takeWhile_cons_of_pos (by rw [hm]; rfl), proc_currentTerm h hm]
    simp only [closes_proc hc hlead hlead' h hk, List.mem_cons, exists_eq_or_imp, hk, false_or]
  · refine iff_of_false ?_ fun ⟨m', _, hu⟩ => hlead' (hleader s' m' hu)
    rintro ⟨m', hm', hu⟩
    -- a leader that is one no longer has stepped down on this message
    have hm : m.deposes s.currentTerm = true := by
      rw [← Bool.not_eq_false]
      exact fun hfalse => hlead' ((proc_leader_iff h).mpr ⟨hleader s m' hu, hfalse⟩)
    rw [List.takeWhile_cons_of_neg (by rw [hm]; decide)] at hm'
    cases hm'

end RaftServer

/-! ## The event loop with its output buffers -/

/-- A call of `::send`: the bytes it is given, and its result. -/
structure Sending where
  fd : ℕ
  buffered : Int32
  iSended : Int32
  deriving DecidableEq, Repr

namespace Sending

/-- The call takes all it is given. -/
def TakesAll (x : Sending) : Prop := x.buffered ≤ 0 ∨ x.buffered ≤ x.iSended

instance decidableTakesAll (x : Sending) : Decidable x.TakesAll :=
  inferInstanceAs (Decidable (_ ∨ _))

/-- The last call on a connection. -/
def lastOn (xs : List Sending) (fd : ℕ) : Option Sending := xs.reverse.find? fun x => x.fd = fd

end Sending

/-- The server with its channels, the connection objects with their output buffers, and the
`send`s of the last callback. -/
structure Outbound where
  poller : Poller
  gen : ℕ → ℕ
  ref : UInt32 → Option ConnId
  /-- `m_stOutBuffer_` of the connection registered under each number. -/
  out : ℕ → Buffer
  /-- The write callback is still `AcceptedCallback`. -/
  connecting : ℕ → Bool
  /-- What `SendHandShakeQ` says of the node. -/
  hello : HandshakeQ
  sendings : List Sending

/-- A message handled by `HandleArrivedMsg`: what the databases answer, and the results of the
`send`s of its handler. -/
structure Incoming where
  puts : Puts
  message : Message
  iSended : ℕ → Int32

inductive OutEvent where
  /-- `TcpAcceptCallback`. -/
  | accept (fd : ℕ) (addr : Bytes)
  /-- `CloseCallback`. -/
  | close (fd : ℕ)
  /-- `RecvCallback` that finds these messages complete. -/
  | arrived (fd : ℕ) (msgs : List Incoming)
  /-- `Timer::SendAppendEntriesCallback`. -/
  | tick (iSended : ℕ → Int32)
  /-- `AcceptedCallback` when the connection is there. -/
  | connected (fd : ℕ) (iSended : Int32)
  /-- `SendCallback`. -/
  | written (fd : ℕ) (iSended : Int32)

namespace Outbound

def registry (o : Outbound) : Registry where
  server := o.poller.server
  isOpen fd := (o.poller.server.conns.find? fd).isSome
  gen := o.gen
  ref := o.ref

/-- Queue a message on a connection and send directly; `send` takes at most what it is given. -/
def push (o : Outbound) (fd : ℕ) (m : Message) (iSended : Int32) : Option Outbound :=
  let q := (o.out fd).queue m.id m.serialize
  if iSended ≤ q.size then
    some { o with
      out := Function.update o.out fd (q.sentDirectly iSended)
      sendings := o.sendings ++ [⟨fd, q.size, iSended⟩] }
  else none

/-- One message after the other. -/
def pushAll (o : Outbound) (iSended : ℕ → Int32) : Sends → Option Outbound
  | [] => some o
  | (fd, m) :: ms => do
    let o ← o.push fd m (iSended 0)
    o.pushAll (fun i => iSended (i + 1)) ms

/-- The handshake of a node that is new to the leader is broadcast. -/
def Welcomes (s : RaftServer) (fd : ℕ) : Message → Prop
  | .handshake_q q =>
    s.role = .Leader ∧ s.proxyConnFd q.nodeid = none ∧ (s.conns.find? fd).isSome
  | _ => False

instance decidableWelcomes (s : RaftServer) (fd : ℕ) : (m : Message) → Decidable (Welcomes s fd m)
  | .handshake_q _ => inferInstanceAs (Decidable (_ ∧ _))
  | .handshake_r _ => isFalse id
  | .appendentries_q _ => isFalse id
  | .appendentries_r _ => isFalse id

/-- The pointers of the proxies after a message that leaves the server `s`. -/
def tied (o : Outbound) (fd : ℕ) (s : RaftServer) : Message → UInt32 → Option ConnId
  | .handshake_q q => (o.registry.handshaken fd q s).ref
  | _ => o.ref

/-- `Proc`, with what the handler sends. -/
def proc (o : Outbound) (fd : ℕ) (a : Incoming) : Option Outbound := do
  let (s, ms) ← (o.poller.server.proc a.puts fd a.message).toOption
  let p ← (o.poller.proc fd ⟨a.puts, a.message, 0⟩).toOption
  let o' := { o with poller := p, ref := o.tied fd s a.message }
  if Welcomes o.poller.server fd a.message then
    let bs ← o'.registry.broadCastAppendEntries.toOption
    o'.pushAll a.iSended (bs ++ [(fd, .handshake_r ⟨true⟩)])
  else o'.pushAll a.iSended ms

/-- One iteration of `HandleArrivedMsg`: its own buffer decides about the write interest. -/
def arrivedMsg (o : Outbound) (fd : ℕ) (a : Incoming) : Option Outbound := do
  let o ← o.proc fd a
  some { o with poller := o.poller.writeInterest fd (o.out fd).size }

def handleArrivedMsg (o : Outbound) (fd : ℕ) : List Incoming → Option Outbound
  | [] => some o
  | a :: as => do
    let o ← o.arrivedMsg fd a
    o.handleArrivedMsg fd as

/-- `SendCallback`. -/
def sendCallback (o : Outbound) (fd : ℕ) (iSended : Int32) : Option Outbound :=
  if (o.out fd).size ≤ 0 then some o
  else if iSended ≤ (o.out fd).size then
    some { o with
      poller :=
        if 0 < iSended ∧ (o.out fd).size - iSended = 0 then o.poller.disableWrite fd else o.poller
      out := Function.update o.out fd ((o.out fd).sendCallback iSended) }
  else none

/-- The kernel reports what it has been asked to report. -/
def enabled (o : Outbound) : OutEvent → Bool
  | .accept fd addr => o.poller.enabled (.accept fd addr)
  | .close fd => o.poller.enabled (.close fd)
  | .arrived fd _ => o.poller.enabled (.arrived fd [])
  | .tick _ => true
  | .connected fd _ => o.poller.enabled (.sentAll fd) && o.connecting fd
  | .written fd _ => o.poller.enabled (.sentAll fd) && !o.connecting fd

/-- One callback. -/
def handle (o : Outbound) : OutEvent → Option Outbound
  | .accept fd addr => do
    let p ← (o.poller.handle (.accept fd addr)).toOption
    some { o with
      poller := p
      gen := Function.update o.gen fd (o.gen fd + 1)
      out := Function.update o.out fd ⟨fun _ => 0, 0⟩
      connecting := Function.update o.connecting fd false }
  | .close fd => do
    let p ← (o.poller.handle (.close fd)).toOption
    some { o with poller := p }
  | .arrived fd msgs => o.handleArrivedMsg fd msgs
  | .tick iSended => do
    let ms ← o.registry.broadCastAppendEntries.toOption
    o.pushAll iSended ms
  | .connected fd iSended =>
    push { o with
      poller := { (o.poller.disableWrite fd).enableRead fd with
        server := o.poller.server.startReading fd }
      connecting := Function.update o.connecting fd false } fd (.handshake_q o.hello) iSended
  | .written fd iSended => o.sendCallback fd iSended

def next (o : Outbound) (e : OutEvent) : Option Outbound :=
  if o.enabled e then handle { o with sendings := [] } e else none

/-- `start` has reached the event loop. -/
def Started (o : Outbound) : Prop :=
  (∃ put disk iRaftPort iNodeID,
    RaftServer.launchStart put disk iRaftPort iNodeID = .ok o.poller.server) ∧
  (∀ fd, o.poller.epoll fd = none) ∧ ∀ x, o.ref x = none

/-- `join` has reached the event loop: the connection `fd` is waiting for `connect`, with
write interest. -/
def Joined (o : Outbound) : Prop :=
  ∃ disk fd szAddress raftPort, ∃ p : Poller, (∀ k, p.epoll k = none) ∧
    o.poller = { (p.newConn fd).enableWrite fd with
      server := .launchJoin disk fd szAddress raftPort } ∧
    o.out fd = ⟨fun _ => 0, 0⟩ ∧ o.connecting fd = true ∧ ∀ x, o.ref x = none

/-- The runs of a server launched by `start` or by `join`. -/
def outgoing : System Outbound OutEvent := ⟨fun o => o.Started ∨ o.Joined, next⟩

/-- Pending output has write interest. -/
def Scheduled (o : Outbound) : Prop :=
  ∀ fd c, o.poller.server.conns.find? fd = some c → 0 < (o.out fd).size →
    (o.poller.channel fd).events.write = true

/-- The last `send` of the callback on a connection. -/
def last (o : Outbound) (fd : ℕ) : Option Sending := Sending.lastOn o.sendings fd

/-- The connection whose buffer the callback looks at when it is done. -/
def own : OutEvent → Option ℕ
  | .arrived fd _ => some fd
  | _ => none

/-- Before the callback: connection `k` has no write interest that would be left to it, and the
callback neither looks at its buffer nor closes it. `AcceptedCallback` takes the write interest
of its own connection away itself. -/
def Unwatched (o : Outbound) (k : ℕ) : OutEvent → Prop
  | .arrived fd msgs => k ≠ fd ∧ (o.poller.channel k).events.write = false ∧
      ¬ o.poller.server.ClosedBy fd (msgs.map Incoming.message) k
  | .tick _ => (o.poller.channel k).events.write = false
  | .connected fd _ => k = fd ∨ (o.poller.channel k).events.write = false
  | .accept _ _ => False
  | .close _ => False
  | .written _ _ => False

instance decidableUnwatched (o : Outbound) (k : ℕ) : (e : OutEvent) → Decidable (o.Unwatched k e)
  | .arrived _ _ => inferInstanceAs (Decidable (_ ∧ _))
  | .tick _ => inferInstanceAs (Decidable (_ = _))
  | .connected _ _ => inferInstanceAs (Decidable (_ ∨ _))
  | .accept _ _ => isFalse id
  | .close _ => isFalse id
  | .written _ _ => isFalse id

/-- What passes between a callback and the kernel: its calls of `::send`, with the bytes they are
given and the results. Nothing else of what the callback leaves is looked at. -/
def sends (o : Outbound) (e : OutEvent) : List Sending := ((o.next e).map sendings).getD []

/-- On every registered connection without write interest, the last `send` of the callback takes
all it is given. -/
def GoesOut (o : Outbound) (e : OutEvent) : Prop :=
  ∀ fc ∈ o.poller.server.conns.toList, o.Unwatched fc.1 e →
    ∀ x ∈ Sending.lastOn (o.sends e) fc.1, x.TakesAll

instance decidableGoesOut (o : Outbound) (e : OutEvent) : Decidable (o.GoesOut e) :=
  inferInstanceAs (Decidable (∀ fc ∈ _, _ → ∀ x ∈ _, _))

end Outbound

namespace Buffer

/-- What the code after a direct `send` leaves is nothing if all has been sent. -/
theorem size_sentDirectly_pos_iff {b : Buffer} {iSended : Int32} (hle : iSended ≤ b.size) :
    0 < (b.sentDirectly iSended).size ↔ ¬ (b.size ≤ 0 ∨ b.size ≤ iSended) := by
  have hzero : (0 : Int32).toInt = 0 := rfl
  have hsize : (b.sentDirectly iSended).size =
      if 0 < iSended then b.size - iSended else b.size := by
    unfold sentDirectly
    by_cases hpos : 0 < iSended
    · rw [if_pos hpos, if_pos hpos]
      dsimp only
      split_ifs
      · rfl
      · rfl
    · rw [if_neg hpos, if_neg hpos]
  rw [hsize, Int32.le_iff_toInt_le, Int32.le_iff_toInt_le, hzero]
  rw [Int32.le_iff_toInt_le] at hle
  split_ifs with hpos
  · rw [Int32.lt_iff_toInt_lt, hzero] at hpos
    have hhigh := Int32.toInt_le b.size
    have hmax : Int32.maxValue.toInt = 2 ^ 31 - 1 := rfl
    rw [Int32.lt_iff_toInt_lt, UInt.toInt_sub32 (by omega) (by omega), hzero]
    omega
  · rw [Int32.lt_iff_toInt_lt, hzero] at hpos ⊢
    omega

end Buffer

namespace Poller

variable {p p' : Poller} {fd k : ℕ}

/-- Handling a message on one connection leaves the channels of the others alone. -/
theorem channel_proc_of_ne {a : ArrivedMsg} (h : p.proc fd a = .ok p') (hk : k ≠ fd) :
    p'.channel k = p.channel k := by
  obtain ⟨⟨s, ms⟩, _, h⟩ := Except.bind_eq_ok.mp h
  dsimp only at h
  split at h
  · obtain rfl := Except.ok.inj h
    exact ((setEvents_frame p fd .none).2.2 k hk).1
  · obtain rfl := Except.ok.inj h
    rfl

theorem channel_writeInterest_of_ne (p : Poller) (n : Int32) (hk : k ≠ fd) :
    (p.writeInterest fd n).channel k = p.channel k := by
  unfold writeInterest
  split_ifs
  · exact ((setEvents_frame p fd _).2.2 k hk).1
  · exact ((setEvents_frame p fd _).2.2 k hk).1
  · rfl

theorem write_writeInterest (p : Poller) {n : Int32} (h : 0 < n) :
    ((p.writeInterest fd n).channel fd).events.write = true := by
  unfold writeInterest
  rw [if_pos h, enableWrite, (setEvents_frame p fd _).1]

/-- `AcceptedCallback` changes its own channel only, and takes its write interest away. -/
theorem channel_connected_of_ne (p : Poller) (hk : k ≠ fd) :
    ((p.disableWrite fd).enableRead fd).channel k = p.channel k := by
  rw [enableRead, ((setEvents_frame _ fd _).2.2 k hk).1, disableWrite,
    ((setEvents_frame _ fd _).2.2 k hk).1]

theorem write_connected (p : Poller) (fd : ℕ) :
    (((p.disableWrite fd).enableRead fd).channel fd).events.write = false := by
  rw [enableRead, (setEvents_frame _ fd _).1, disableWrite, (setEvents_frame _ fd _).1]

/-- The kernel watches for output exactly when the channel does. -/
theorem Synced.write {ch : Channel} {entry : Option Events} (h : Synced ch entry) :
    entry.any Events.write = ch.events.write := by
  rcases h with ⟨_, he⟩ | ⟨_, he, hn⟩
  · rw [he]
    rfl
  · rw [he, hn]
    rfl

/-- The connection that has been waiting for `connect` reads from now on. -/
theorem inStep_connected (h : p.InStep) {c : Conn} (hc : p.server.conns.find? fd = some c) :
    InStep { (p.disableWrite fd).enableRead fd with server := p.server.startReading fd } := by
  have h1 : (p.disableWrite fd).InStep := inStep_setEvents h hc rfl
  have hserver : (p.disableWrite fd).server = p.server := (setEvents_frame p fd _).2.1
  obtain ⟨hsync, hev, _, hothers⟩ := setEvents_spec
    (h1.ready (hserver.symm ▸ hc)) { ((p.disableWrite fd).channel fd).events with read := true }
  have hfind : ∀ k, (p.server.startReading fd).conns.find? k =
      if k = fd then some { c with reading := true } else p.server.conns.find? k := by
    intro k
    unfold RaftServer.startReading
    rw [OrdMap.find?_modify, hc]
    rfl
  refine ⟨fun k c' hk => ?_, fun k hk => ?_⟩
  · change (p.server.startReading fd).conns.find? k = _ at hk
    rw [hfind] at hk
    show Synced (((p.disableWrite fd).enableRead fd).channel k)
      (((p.disableWrite fd).enableRead fd).epoll k) ∧
      c'.reading = (((p.disableWrite fd).enableRead fd).channel k).events.read
    split_ifs at hk with hkf
    · rw [hkf, ← Option.some.inj hk]
      exact ⟨hsync, (congrArg Events.read hev).symm⟩
    · obtain ⟨hch, hep⟩ := hothers k hkf
      unfold enableRead
      rw [hch, hep]
      exact h1.synced k c' (hserver.symm ▸ hk)
  · change (p.server.startReading fd).conns.find? k = _ at hk
    rw [hfind] at hk
    split_ifs at hk with hkf
    exact (hothers k hkf).2.trans (h1.absent k (hserver.symm ▸ hk))

/-- A message closes the connection it replaces and no other one, and registers none. -/
theorem registered_proc_iff {c : Conn} (hc : p.server.conns.find? fd = some c) {puts : Puts}
    {m : Message} {s : RaftServer} {ms : Sends} (h : p.server.proc puts fd m = .ok (s, ms)) :
    (s.conns.find? k).isSome ↔ (p.server.conns.find? k).isSome ∧ p.server.closes fd m ≠ some k := by
  rw [← Option.isSome_map (f := Conn.reading), proc_reading hc h k]
  split_ifs with hk
  · simp [hk]
  · simp [hk]

end Poller

namespace Outbound

variable {o o' o₀ : Outbound} {fd k : ℕ}

/-! ## What is left after the `send`s -/

/-- The buffers account for the `send`s since `o₀`: a buffer without one is as it was, and one
with any is empty if the last one has taken everything. -/
structure Accounts (o₀ o : Outbound) : Prop where
  quiet : ∀ k, o.last k = none → o.out k = o₀.out k
  sent : ∀ k x, o.last k = some x → (0 < (o.out k).size ↔ ¬ x.TakesAll)

theorem accounts_refl (h : o.sendings = []) : Accounts o o := by
  refine ⟨fun k _ => rfl, fun k x hx => ?_⟩
  unfold last Sending.lastOn at hx
  rw [h] at hx
  cases hx

/-- A `send` on a connection is the last one there. -/
theorem last_push {x : Sending} (h : o'.sendings = o.sendings ++ [x]) (k : ℕ) :
    o'.last k = if x.fd = k then some x else o.last k := by
  unfold last Sending.lastOn
  rw [h, List.reverse_append, List.reverse_singleton, List.singleton_append, List.find?_cons]
  split_ifs with hk
  · rw [decide_eq_true hk]
  · rw [decide_eq_false hk]

theorem last_of_push {m : Message} {iSended : Int32} (h : o.push fd m iSended = some o') (k : ℕ) :
    o'.last k =
      if fd = k then some ⟨fd, ((o.out fd).queue m.id m.serialize).size, iSended⟩
      else o.last k := by
  unfold push at h
  rw [Option.ite_none_right_eq_some] at h
  have hsendings : o'.sendings =
      o.sendings ++ [⟨fd, ((o.out fd).queue m.id m.serialize).size, iSended⟩] := by
    rw [← Option.some.inj h.2]
  exact last_push hsendings k

theorem push_frame {m : Message} {iSended : Int32} (h : o.push fd m iSended = some o') :
    o'.poller = o.poller := by
  unfold push at h
  rw [Option.ite_none_right_eq_some] at h
  rw [← Option.some.inj h.2]

theorem Accounts.push {m : Message} {iSended : Int32} (ha : Accounts o₀ o)
    (h : o.push fd m iSended = some o') : Accounts o₀ o' := by
  have hlast := last_of_push h
  unfold Outbound.push at h
  rw [Option.ite_none_right_eq_some] at h
  obtain ⟨hle, h⟩ := h
  have hout : ∀ k, o'.out k = if k = fd then
      ((o.out fd).queue m.id m.serialize).sentDirectly iSended else o.out k := by
    intro k
    rw [← Option.some.inj h]
    exact Function.update_apply _ _ _ _
  refine ⟨fun k hk => ?_, fun k x hx => ?_⟩
  · rw [hlast] at hk
    split_ifs at hk with hfd
    rw [hout, if_neg (Ne.symm hfd)]
    exact ha.quiet k hk
  · rw [hlast] at hx
    rw [hout]
    split_ifs at hx with hfd
    · rw [if_pos hfd.symm, ← Option.some.inj hx]
      exact Buffer.size_sentDirectly_pos_iff hle
    · rw [if_neg (Ne.symm hfd)]
      exact ha.sent k x hx

/-- A broadcast or the messages of a handler. -/
theorem pushAll_spec {ms : Sends} {iSended : ℕ → Int32} (ha : Accounts o₀ o)
    (h : o.pushAll iSended ms = some o') : o'.poller = o.poller ∧ Accounts o₀ o' := by
  induction ms generalizing o iSended with
  | nil =>
    obtain rfl := Option.some.inj h
    exact ⟨rfl, ha⟩
  | cons p ms ih =>
    obtain ⟨o1, h1, h⟩ := Option.bind_eq_some_iff.mp h
    obtain ⟨hpoller, ha'⟩ := ih (ha.push h1) h
    exact ⟨hpoller.trans (push_frame h1), ha'⟩

/-! ## One callback -/

/-- What the buffers and channels after a callback show. -/
structure Explains (o : Outbound) (e : OutEvent) (o' : Outbound) : Prop where
  own : ∀ k c, o'.poller.server.conns.find? k = some c → own e = some k →
    0 < (o'.out k).size → (o'.poller.channel k).events.write = true
  quiet : ∀ k c, o'.poller.server.conns.find? k = some c → Outbound.own e ≠ some k →
    o'.last k = none → 0 < (o'.out k).size → (o'.poller.channel k).events.write = true
  sent : ∀ k x, o'.last k = some x → (0 < (o'.out k).size ↔ ¬ x.TakesAll)
  /-- Registration and write interest are told by what they were. -/
  unwatched : ∀ k x, o'.last k = some x →
    ((o.poller.server.conns.find? k).isSome ∧ o.Unwatched k e ↔
      (o'.poller.server.conns.find? k).isSome ∧ Outbound.own e ≠ some k ∧
        (o'.poller.channel k).events.write = false)

/-- A callback starts with nothing sent. -/
theorem Explains.of_cleared {e : OutEvent} (h : Explains { o with sendings := [] } e o') :
    Explains o e o' := by
  refine ⟨h.own, h.quiet, h.sent, fun k x hx => ?_⟩
  have hunwatched := h.unwatched k x hx
  cases e <;> exact hunwatched

/-- Then pending output is scheduled if the `send`s say so. -/
theorem Explains.scheduled_iff_goesOut {e : OutEvent} (h : Explains o e o')
    (hn : o.next e = some o') : o'.Scheduled ↔ o.GoesOut e := by
  have hsends : ∀ k, Sending.lastOn (o.sends e) k = o'.last k := by
    intro k
    rw [sends, hn]
    rfl
  constructor
  · intro hsched fc hfc hunwatched x hx
    by_contra hpending
    rw [hsends] at hx
    have hthere : (o.poller.server.conns.find? fc.1).isSome := by
      rw [OrdMap.mem_toList_iff.mp hfc]
      rfl
    obtain ⟨hthere', _, hwrite⟩ := (h.unwatched fc.1 x hx).mp ⟨hthere, hunwatched⟩
    obtain ⟨c, hc⟩ := Option.isSome_iff_exists.mp hthere'
    have htrue := hsched fc.1 c hc ((h.sent fc.1 x hx).mpr hpending)
    rw [hwrite] at htrue
    cases htrue
  · intro hout k c hc hpending
    by_cases hown : Outbound.own e = some k
    · exact h.own k c hc hown hpending
    · cases hlast : o'.last k with
      | none => exact h.quiet k c hc hown hlast hpending
      | some x =>
        rw [← Bool.not_eq_false]
        intro hwrite
        obtain ⟨hthere, hunwatched⟩ :=
          (h.unwatched k x hlast).mpr ⟨by rw [hc]; rfl, hown, hwrite⟩
        obtain ⟨c0, hc0⟩ := Option.isSome_iff_exists.mp hthere
        have hall := hout (k, c0) (OrdMap.mem_toList_iff.mpr hc0) hunwatched x
          ((hsends k).trans hlast)
        exact (h.sent k x hlast).mp hpending hall

/-- In the loop of `HandleArrivedMsg` of connection `fd`, called in `o₀`. -/
structure Handling (o₀ : Outbound) (fd : ℕ) (o : Outbound) : Prop where
  inStep : o.poller.InStep
  there : ∃ c, o.poller.server.conns.find? fd = some c
  channel : ∀ k, k ≠ fd → o.poller.channel k = o₀.poller.channel k
  accounts : Accounts o₀ o

/-- The handler leaves the channels to `Proc`, and accounts for what it sends. -/
theorem proc_spec {a : Incoming} (ha : Accounts o₀ o) (h : o.proc fd a = some o') :
    o.poller.proc fd ⟨a.puts, a.message, 0⟩ = .ok o'.poller ∧ Accounts o₀ o' := by
  obtain ⟨⟨s, ms⟩, _, h⟩ := Option.bind_eq_some_iff.mp h
  obtain ⟨p, hp, h⟩ := Option.bind_eq_some_iff.mp h
  rw [Except.toOption_eq_some] at hp
  have ha' : Accounts o₀ { o with poller := p, ref := o.tied fd s a.message } :=
    ⟨ha.quiet, ha.sent⟩
  dsimp only at h
  split_ifs at h with hwelcome
  · obtain ⟨bs, _, h⟩ := Option.bind_eq_some_iff.mp h
    obtain ⟨hpoller, hout⟩ := pushAll_spec ha' h
    rw [hpoller]
    exact ⟨hp, hout⟩
  · obtain ⟨hpoller, hout⟩ := pushAll_spec ha' h
    rw [hpoller]
    exact ⟨hp, hout⟩

/-- One iteration keeps this, and looks at the buffer of its own connection. -/
theorem Handling.arrivedMsg {a : Incoming} (h : Handling o₀ fd o)
    (hok : o.arrivedMsg fd a = some o') :
    Handling o₀ fd o' ∧
      (0 < (o'.out fd).size → (o'.poller.channel fd).events.write = true) ∧
      ∃ ms, o.poller.server.proc a.puts fd a.message = .ok (o'.poller.server, ms) := by
  obtain ⟨o1, h1, hok⟩ := Option.bind_eq_some_iff.mp hok
  obtain rfl := Option.some.inj hok
  obtain ⟨hproc, ha⟩ := proc_spec h.accounts h1
  obtain ⟨c, hc⟩ := h.there
  -- the iteration as the poller sees it
  have hstep : o.poller.arrivedMsg fd ⟨a.puts, a.message, (o1.out fd).size⟩ =
      .ok (o1.poller.writeInterest fd (o1.out fd).size) := by
    have hproc' : o.poller.proc fd ⟨a.puts, a.message, (o1.out fd).size⟩ = .ok o1.poller := hproc
    unfold Poller.arrivedMsg
    rw [hproc']
    rfl
  obtain ⟨hin, hthere, _⟩ := Poller.arrivedMsg_spec h.inStep hc hstep
  refine ⟨⟨hin, hthere, fun k hk => ?_, ⟨ha.quiet, ha.sent⟩⟩, fun hpos => ?_,
    Poller.server_arrivedMsg h.inStep hc hstep⟩
  · show (o1.poller.writeInterest fd _).channel k = _
    rw [Poller.channel_writeInterest_of_ne _ _ hk, Poller.channel_proc_of_ne hproc hk]
    exact h.channel k hk
  · exact Poller.write_writeInterest _ hpos

/-- The loop: a connection is still registered unless a message has closed it. -/
theorem Handling.handleArrivedMsg {as : List Incoming} (h : Handling o₀ fd o)
    (hown : 0 < (o.out fd).size → (o.poller.channel fd).events.write = true)
    (hok : o.handleArrivedMsg fd as = some o') :
    Handling o₀ fd o' ∧
      (0 < (o'.out fd).size → (o'.poller.channel fd).events.write = true) ∧
      ∀ k, (o'.poller.server.conns.find? k).isSome ↔ (o.poller.server.conns.find? k).isSome ∧
        ¬ o.poller.server.ClosedBy fd (as.map Incoming.message) k := by
  induction as generalizing o with
  | nil =>
    obtain rfl := Option.some.inj hok
    refine ⟨h, hown, fun k => (and_iff_left ?_).symm⟩
    rintro ⟨m, hm, _⟩
    cases hm
  | cons a as ih =>
    obtain ⟨o1, h1, hok⟩ := Option.bind_eq_some_iff.mp hok
    obtain ⟨h', hown', ms, hserver⟩ := h.arrivedMsg h1
    obtain ⟨h'', hown'', hrest⟩ := ih h' hown' hok
    obtain ⟨c, hc⟩ := h.there
    refine ⟨h'', hown'', fun k => ?_⟩
    rw [hrest, Poller.registered_proc_iff hc hserver, List.map_cons, and_assoc]
    refine and_congr_right fun _ => ?_
    by_cases hk : o.poller.server.closes fd a.message = some k
    · -- this message closes it
      exact iff_of_false (fun hno => hno.1 hk) fun hno =>
        hno (RaftServer.closedBy_cons_of_closes hk _)
    · rw [and_iff_right hk, RaftServer.closedBy_cons_iff hc hserver hk]

/-! ### Events -/

variable {e : OutEvent}

theorem last_of_nil (h : o.sendings = []) (k : ℕ) : o.last k = none := by
  unfold last Sending.lastOn
  rw [h]
  rfl

/-- A callback that sends nothing directly, on `fd` at most. -/
theorem explains_of_silent (fd : ℕ) (hsched : o.Scheduled) (hnil : o'.sendings = [])
    (hown : own e = none)
    (hfd : ∀ c, o'.poller.server.conns.find? fd = some c → 0 < (o'.out fd).size →
      (o'.poller.channel fd).events.write = true)
    (hothers : ∀ k, k ≠ fd →
      o'.poller.server.conns.find? k = o.poller.server.conns.find? k ∧
      o'.poller.channel k = o.poller.channel k ∧ o'.out k = o.out k) : Explains o e o' := by
  refine ⟨fun k c _ h => ?_, fun k c hc _ _ hpos => ?_, fun k x hx => ?_, fun k x hx => ?_⟩
  · rw [hown] at h
    cases h
  · by_cases hk : k = fd
    · rw [hk] at hc hpos ⊢
      exact hfd c hc hpos
    · obtain ⟨hconn, hch, hout⟩ := hothers k hk
      rw [hconn] at hc
      rw [hout] at hpos
      rw [hch]
      exact hsched k c hc hpos
  · rw [last_of_nil hnil] at hx
    cases hx
  · rw [last_of_nil hnil] at hx
    cases hx

/-- The number of a new connection is free, and its buffer empty. -/
theorem explains_accept {addr : Bytes} (hin : o.poller.InStep) (hsched : o.Scheduled)
    (hnil : o.sendings = []) (hfree : o.poller.server.conns.find? fd = none)
    (hn : o.handle (.accept fd addr) = some o') :
    o'.poller.InStep ∧ Explains o (.accept fd addr) o' := by
  have hok : o.poller.handle (.accept fd addr) = .ok _ := rfl
  have hin' := Poller.inStep_accept hin hfree hok
  obtain ⟨_, _, hserver, hothers⟩ := Poller.newConn_spec (hin.absent fd hfree)
  obtain rfl := Option.some.inj hn
  refine ⟨hin', explains_of_silent fd hsched hnil rfl ?_ fun k hk => ⟨?_, ?_, ?_⟩⟩
  · intro c _ hpos
    change 0 < (Function.update o.out fd ⟨fun _ => 0, 0⟩ fd).size at hpos
    rw [Function.update_self] at hpos
    exact absurd hpos (by decide)
  · show ((o.poller.newConn fd).server.conns.insert fd _).find? k = _
    rw [OrdMap.find?_insert, if_neg hk, hserver]
  · exact (hothers k hk).1
  · exact Function.update_of_ne hk _ _

theorem explains_close {c : Conn} (hin : o.poller.InStep) (hsched : o.Scheduled)
    (hnil : o.sendings = []) (hc : o.poller.server.conns.find? fd = some c)
    (hn : o.handle (.close fd) = some o') :
    o'.poller.InStep ∧ Explains o (.close fd) o' := by
  obtain ⟨p, hp, hn⟩ := Option.bind_eq_some_iff.mp hn
  rw [Except.toOption_eq_some] at hp
  have hin' := Poller.inStep_close hin hc hp
  obtain ⟨_, hserver, hothers⟩ := Poller.setEvents_frame o.poller fd .none
  change (o.poller.disableAll fd).server = _ at hserver
  rw [Poller.handle, hserver, RaftServer.offlineConn, hc] at hp
  obtain rfl := Except.ok.inj hp
  obtain rfl := Option.some.inj hn
  have hconns : ∀ k, (o.poller.server.conns.erase fd).find? k =
      if k = fd then none else o.poller.server.conns.find? k := OrdMap.find?_erase _ _
  refine ⟨hin', explains_of_silent fd hsched hnil rfl ?_ fun k hk => ⟨?_, ?_, rfl⟩⟩
  · intro c' hc' _
    -- the connection is gone
    change (o.poller.server.conns.erase fd).find? fd = some c' at hc'
    rw [hconns, if_pos rfl] at hc'
    cases hc'
  · exact (hconns k).trans (if_neg hk)
  · exact (hothers k hk).1

/-- The loop of the callback starts with nothing sent. -/
theorem explains_arrived {as : List Incoming} {c : Conn} (hin : o.poller.InStep)
    (hsched : o.Scheduled) (hnil : o.sendings = [])
    (hc : o.poller.server.conns.find? fd = some c)
    (hn : o.handle (.arrived fd as) = some o') :
    o'.poller.InStep ∧ Explains o (.arrived fd as) o' := by
  have hstart : Handling o fd o :=
    ⟨hin, ⟨c, hc⟩, fun _ _ => rfl, accounts_refl hnil⟩
  obtain ⟨h, hown, hregistered⟩ := hstart.handleArrivedMsg (hsched fd c hc) hn
  refine ⟨h.inStep, fun k _ _ hk => ?_, fun k c' hc' hk hlast hpos => ?_, h.accounts.sent,
    fun k x _ => ?_⟩
  · rw [← Option.some.inj hk]
    exact hown
  · have hkf : k ≠ fd := fun heq => hk (heq ▸ rfl)
    obtain ⟨hthere, _⟩ := (hregistered k).mp (hc' ▸ rfl)
    obtain ⟨c0, hc0⟩ := Option.isSome_iff_exists.mp hthere
    rw [h.accounts.quiet k hlast] at hpos
    rw [h.channel k hkf]
    exact hsched k c0 hc0 hpos
  · have hother : own (.arrived fd as) ≠ some k ↔ k ≠ fd :=
      not_congr ⟨fun heq => (Option.some.inj heq).symm, fun heq => congrArg some heq.symm⟩
    rw [hregistered k, hother]
    show _ ∧ (k ≠ fd ∧ (o.poller.channel k).events.write = false ∧ ¬ _) ↔ _
    by_cases hk : k = fd
    · simp [hk]
    · rw [h.channel k hk]
      tauto

theorem explains_tick {iSended : ℕ → Int32} (hin : o.poller.InStep) (hsched : o.Scheduled)
    (hnil : o.sendings = []) (hn : o.handle (.tick iSended) = some o') :
    o'.poller.InStep ∧ Explains o (.tick iSended) o' := by
  obtain ⟨ms, _, hn⟩ := Option.bind_eq_some_iff.mp hn
  obtain ⟨hpoller, ha⟩ := pushAll_spec (accounts_refl hnil) hn
  rw [hpoller]
  refine ⟨hin, fun k _ _ hk => (by cases hk), fun k c hc _ hlast hpos => ?_, ha.sent,
    fun k x _ => ?_⟩
  · rw [hpoller] at hc ⊢
    rw [ha.quiet k hlast] at hpos
    exact hsched k c hc hpos
  · rw [hpoller]
    exact and_congr_right fun _ => (and_iff_right (Option.some_ne_none k).symm).symm

/-- The handshake is sent on a channel whose write interest has just been taken away. -/
theorem explains_connected {iSended : Int32} {c : Conn} (hin : o.poller.InStep)
    (hsched : o.Scheduled) (hnil : o.sendings = [])
    (hc : o.poller.server.conns.find? fd = some c)
    (hn : o.handle (.connected fd iSended) = some o') :
    o'.poller.InStep ∧ Explains o (.connected fd iSended) o' := by
  have hpoller := push_frame hn
  have ha := (accounts_refl (o := { o with
    poller := { (o.poller.disableWrite fd).enableRead fd with
      server := o.poller.server.startReading fd }
    connecting := Function.update o.connecting fd false }) hnil).push hn
  have hown := (last_of_push hn fd).trans (if_pos rfl)
  have hconns : ∀ k, (o'.poller.server.conns.find? k).isSome =
      (o.poller.server.conns.find? k).isSome := by
    rw [hpoller]
    exact o.poller.server.isSome_startReading fd
  have hchannel : ∀ k, k ≠ fd → o'.poller.channel k = o.poller.channel k := by
    rw [hpoller]
    exact fun k hk => Poller.channel_connected_of_ne o.poller hk
  refine ⟨by rw [hpoller]; exact Poller.inStep_connected hin hc, fun k _ _ hk => (by cases hk),
    fun k c' hc' _ hlast hpos => ?_, ha.sent, fun k x _ => ?_⟩
  · have hkf : k ≠ fd := by
      intro heq
      rw [heq, hown] at hlast
      cases hlast
    obtain ⟨c0, hc0⟩ := Option.isSome_iff_exists.mp ((hconns k).symm.trans (by rw [hc']; rfl))
    rw [ha.quiet k hlast] at hpos
    rw [hchannel k hkf]
    exact hsched k c0 hc0 hpos
  · have hother : own (.connected fd iSended) ≠ some k := (Option.some_ne_none k).symm
    rw [hconns, and_iff_right hother]
    refine and_congr_right fun _ => ?_
    show (k = fd ∨ (o.poller.channel k).events.write = false) ↔ _
    by_cases hk : k = fd
    · rw [hk, hpoller]
      exact iff_of_true (Or.inl rfl) (Poller.write_connected o.poller fd)
    · rw [hchannel k hk]
      exact or_iff_right hk

/-- `SendCallback` gives up the write interest with the last byte. -/
theorem explains_written {iSended : Int32} {c : Conn} (hin : o.poller.InStep)
    (hsched : o.Scheduled) (hnil : o.sendings = [])
    (hc : o.poller.server.conns.find? fd = some c)
    (hwatched : (o.poller.epoll fd).any Events.write = true)
    (hn : o.handle (.written fd iSended) = some o') :
    o'.poller.InStep ∧ Explains o (.written fd iSended) o' := by
  rw [(hin.synced fd c hc).1.write] at hwatched
  change o.sendCallback fd iSended = some o' at hn
  unfold sendCallback at hn
  by_cases hempty : (o.out fd).size ≤ 0
  · rw [if_pos hempty] at hn
    obtain rfl := Option.some.inj hn
    exact ⟨hin, explains_of_silent fd hsched hnil rfl (fun c hc => hsched fd c hc)
      fun k _ => ⟨rfl, rfl, rfl⟩⟩
  · rw [if_neg hempty, Option.ite_none_right_eq_some] at hn
    obtain rfl := Option.some.inj hn.2
    have hothers : ∀ k, k ≠ fd →
        Function.update o.out fd ((o.out fd).sendCallback iSended) k = o.out k :=
      fun k hk => Function.update_of_ne hk _ _
    by_cases hall : 0 < iSended ∧ (o.out fd).size - iSended = 0
    · rw [if_pos hall]
      obtain ⟨_, hserver, hchannels⟩ := Poller.setEvents_frame o.poller fd
        { (o.poller.channel fd).events with write := false }
      refine ⟨Poller.inStep_setEvents hin hc rfl,
        explains_of_silent fd hsched hnil rfl ?_ fun k hk => ⟨?_, ?_, hothers k hk⟩⟩
      · intro c' _ hpos
        -- nothing is left
        change 0 < (Function.update o.out fd ((o.out fd).sendCallback iSended) fd).size at hpos
        rw [Function.update_self, Buffer.sendCallback, if_neg hempty, if_pos hall.1] at hpos
        dsimp only at hpos
        rw [if_pos hall.2] at hpos
        exact (Int32.lt_irrefl hpos).elim
      · exact congrArg (fun s : RaftServer => s.conns.find? k) hserver
      · exact (hchannels k hk).1
    · rw [if_neg hall]
      exact ⟨hin, explains_of_silent fd hsched hnil rfl (fun _ _ _ => hwatched)
        fun k hk => ⟨rfl, rfl, hothers k hk⟩⟩

/-- **One event** from a state in which pending output is scheduled. -/
theorem explains_next (hin : o.poller.InStep) (hsched : o.Scheduled) (hn : o.next e = some o') :
    o'.poller.InStep ∧ Explains o e o' := by
  unfold next at hn
  rw [Option.ite_none_right_eq_some] at hn
  obtain ⟨hen, hn⟩ := hn
  refine And.imp_right Explains.of_cleared ?_
  cases e with
  | accept fd addr =>
    exact explains_accept (o := { o with sendings := [] }) hin hsched rfl
      (by simpa [enabled, Poller.enabled] using hen) hn
  | close fd =>
    obtain ⟨c, hc⟩ := Option.isSome_iff_exists.mp hen
    exact explains_close (o := { o with sendings := [] }) hin hsched rfl hc hn
  | arrived fd msgs =>
    obtain ⟨hthere, _⟩ := Bool.and_eq_true_iff.mp hen
    obtain ⟨c, hc⟩ := Option.isSome_iff_exists.mp hthere
    exact explains_arrived (o := { o with sendings := [] }) hin hsched rfl hc hn
  | tick iSended => exact explains_tick (o := { o with sendings := [] }) hin hsched rfl hn
  | connected fd iSended =>
    obtain ⟨hthere, _⟩ := Bool.and_eq_true_iff.mp hen
    obtain ⟨hthere, _⟩ := Bool.and_eq_true_iff.mp hthere
    obtain ⟨c, hc⟩ := Option.isSome_iff_exists.mp hthere
    exact explains_connected (o := { o with sendings := [] }) hin hsched rfl hc hn
  | written fd iSended =>
    obtain ⟨hthere, _⟩ := Bool.and_eq_true_iff.mp hen
    obtain ⟨hthere, hwatched⟩ := Bool.and_eq_true_iff.mp hthere
    obtain ⟨c, hc⟩ := Option.isSome_iff_exists.mp hthere
    exact explains_written (o := { o with sendings := [] }) hin hsched rfl hc hwatched hn

/-! ## Runs -/

/-- The connection that waits for `connect` is the only one, and its channel is in step. -/
theorem inStep_of_joined (h : o.Joined) : o.poller.InStep ∧ o.Scheduled := by
  obtain ⟨disk, fd, szAddress, raftPort, p, hfree, hpoller, hout, _⟩ := h
  obtain ⟨hsync1, hread1, _, hothers1⟩ := Poller.newConn_spec (hfree fd)
  obtain ⟨hsync, hev, _, hothers⟩ := Poller.setEvents_spec (Or.inl hsync1)
    { ((p.newConn fd).channel fd).events with write := true }
  have hfind : ∀ k, o.poller.server.conns.find? k =
      if k = fd then some ⟨szAddress, raftPort, none, true⟩ else none := by
    intro k
    rw [hpoller]
    exact OrdMap.find?_insert _ _ _ _
  refine ⟨⟨fun k c hk => ?_, fun k hk => ?_⟩, fun k c hk hpos => ?_⟩
  · rw [hfind] at hk
    split_ifs at hk with hkf
    rw [hkf, ← Option.some.inj hk, hpoller]
    exact ⟨hsync, hread1.symm.trans (congrArg Events.read hev).symm⟩
  · rw [hfind] at hk
    split_ifs at hk with hkf
    rw [hpoller]
    exact (hothers k hkf).2.trans ((hothers1 k hkf).2.trans (hfree k))
  · rw [hfind] at hk
    split_ifs at hk with hkf
    rw [hkf, hout] at hpos
    exact absurd hpos (by decide)

theorem inStep_of_init (h : outgoing.init o) : o.poller.InStep ∧ o.Scheduled := by
  rcases h with ⟨hstart, hepoll, _⟩ | hjoined
  · refine ⟨Poller.inStep_init ⟨hstart, hepoll⟩, fun k c hk => ?_⟩
    -- there is no connection yet
    obtain ⟨put, disk, iRaftPort, iNodeID, hs⟩ := hstart
    rw [RaftServer.launchStart_eq_ok hs, RaftServer.appendCfgLog] at hk
    split_ifs at hk <;> cases hk
  · exact inStep_of_joined hjoined

/-- **Pending output.** In a run of the event loop every registered connection with output left
has write interest after every event if and only if what each event queues on a connection
without write interest goes out at once, unless its handler looks at the buffer again. -/
theorem scheduled_iff {t : Outbound} {es : List OutEvent} (hinit : outgoing.init o)
    (hrun : outgoing.run o es = some t) :
    (∀ bs u, bs <+: es → outgoing.run o bs = some u → u.Scheduled) ↔
      outgoing.Allowed GoesOut o es := by
  obtain ⟨hin, hsched⟩ := inStep_of_init hinit
  exact (System.allowed_iff_always (K := fun o => o.poller.InStep) (P := Scheduled)
    (fun o e o' hin hsched (hn : o.next e = some o') =>
      ⟨(explains_next hin hsched hn).2.scheduled_iff_goesOut hn,
        fun _ => (explains_next hin hsched hn).1⟩)
    es hin hsched hrun).symm

/-- Node 1 has been started. -/
def launched : Outbound where
  poller := Poller.launched
  gen _ := 0
  ref _ := none
  out _ := ⟨fun _ => 0, 0⟩
  connecting _ := false
  hello := ⟨7777, 1⟩
  sendings := []

theorem init_launched : outgoing.init launched :=
  Or.inl ⟨⟨⟨true, []⟩, ⟨none, .empty⟩, 7777, 1, rfl⟩, fun _ => rfl, fun _ => rfl⟩

/-- Node 2 presents itself. The kernel takes the two answers later, in one piece. -/
def greeting : List OutEvent :=
  [.accept 5 [49], .arrived 5 [⟨.allOk, .handshake_q ⟨7778, 2⟩, fun _ => -1⟩], .written 5 49]

/-- A heartbeat that the kernel takes at once. -/
theorem scheduled_greeting :
    ∃ t, outgoing.run launched (greeting ++ [.tick fun _ => 41]) = some t ∧ t.Scheduled := by
  have hsome : (outgoing.run launched (greeting ++ [.tick fun _ => 41])).isSome := by
    decide +kernel
  obtain ⟨t, ht⟩ := Option.isSome_iff_exists.mp hsome
  exact ⟨t, ht, (scheduled_iff init_launched ht).mpr (by decide +kernel) _ t
    (List.prefix_refl _) ht⟩

/-- A heartbeat that it does not take stays in the buffer. -/
theorem stays_pending : ¬ ∀ o, outgoing.Reachable System.anyStep o → o.Scheduled := by
  intro hall
  obtain ⟨o, ho, hpending⟩ := System.exists_of_run (greeting ++ [.tick fun _ => -1])
    (fun o : Outbound => (o.poller.server.conns.find? 5).isSome && decide (0 < (o.out 5).size) &&
      !(o.poller.channel 5).events.write)
    (System.reachable_init init_launched) (System.allowed_anyStep _ _) (by decide +kernel)
  simp only [Bool.and_eq_true, decide_eq_true_iff, Bool.not_eq_true'] at hpending
  obtain ⟨⟨hconn, hsize⟩, hwrite⟩ := hpending
  obtain ⟨c, hc⟩ := Option.isSome_iff_exists.mp hconn
  have hsched := hall o ho 5 c hc hsize
  rw [hwrite] at hsched
  cases hsched

end Outbound
end NanoRaft
