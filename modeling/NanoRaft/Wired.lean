import NanoRaft.Pipe
import NanoRaft.Provenance

/-!
# The cluster, byte by byte

The processes of `Cluster` with the buffers of their connections. A callback of the event loop
is one event: `RecvCallback` with what `recv` returned, down through the loop of
`HandleArrivedMsg` and the parsers to the handlers and what these send; `SendCallback`; and the
timers. `send` takes as many bytes as it likes, and `recv` delivers as many. A write callback
may come at any time here, whether the channel has write interest or not.

As in `Cluster`, the connection of the `i`-th peer has descriptor `i` on the side of the start
node, and a peer has one connection, of descriptor `0`.
-/

namespace NanoRaft

/-- A joined process, and its connection in both directions. -/
structure WiredPeer where
  server : RaftServer
  toPeer : Pipe
  toLeader : Pipe

structure Wired where
  leader : RaftServer
  peers : List WiredPeer

/-- What a handler meets: what the databases answer, and what the `send`s return. -/
structure Reaction where
  puts : Puts
  iSended : ℕ → Int32

/-- The events of a run. In the `k`-th iteration of a loop the handler meets `reacts k`. -/
inductive WiredEvent where
  /-- `join`, up to `AcceptedCallback`. -/
  | join (disk : Disk) (addr : Bytes) (raftPort nodeID : UInt32) (iSended : Int32)
  /-- `RecvCallback` of the start node on connection `i`; `recv` returns `n` bytes. -/
  | leaderRecv (i n : ℕ) (reacts : ℕ → Reaction)
  /-- `RecvCallback` of peer `i`. -/
  | peerRecv (i n : ℕ) (reacts : ℕ → Reaction)
  /-- `SendCallback` of the start node on connection `i`. -/
  | leaderSend (i : ℕ) (iSended : Int32)
  /-- `SendCallback` of peer `i`. -/
  | peerSend (i : ℕ) (iSended : Int32)
  /-- The leader timer of the start node. -/
  | tick (iSended : ℕ → Int32)
  /-- The heartbeat timer of peer `i`. -/
  | timeout (i : ℕ)

namespace RaftServer

/-- The body of the loop in `HandleArrivedMsg` from `NewMessage` on: the payload is parsed into a
new object of the frame's type, whatever comes of it, and handled. -/
def procFrame (lib : Protobuf) (puts : Puts) (s : RaftServer) (fd : ℕ) (f : Frame) :
    Result (RaftServer × Sends) :=
  match Mod.messageType f.id with
  | none => .error .outOfRange
  | some t => s.procObject puts fd t (MessageType.parseFromArray lib t f.payload).2

end RaftServer

namespace WiredPeer

/-- The loop of `HandleArrivedMsg` on the connection of a peer. -/
def handleArrivedMsg (lib : Protobuf) : (fuel : ℕ) → (ℕ → Reaction) → WiredPeer → Option WiredPeer
  | 0, _, _ => none
  | fuel + 1, reacts, p =>
    match p.toPeer.inn.arrivedMsg with
    | .returned => some p
    | .outOfTables => none
    | .dispatched f b =>
      match p.server.procFrame lib (reacts 0).puts 0 f with
      | .error _ => none
      | .ok (s, ms) => do
        let toLeader ← p.toLeader.pushAll (reacts 0).iSended (Cluster.sentTo ms 0)
        handleArrivedMsg lib fuel (fun k => reacts (k + 1))
          ⟨s, { p.toPeer with inn := b }, toLeader⟩

/-- No buffer of its connection has been overrun. -/
def Fits (p : WiredPeer) : Prop := p.toPeer.fits = true ∧ p.toLeader.fits = true

instance (p : WiredPeer) : Decidable p.Fits := inferInstanceAs (Decidable (_ ∧ _))

end WiredPeer

namespace Wired

def setPeer (w : Wired) (i : ℕ) (p : WiredPeer) : Wired := { w with peers := w.peers.set i p }

/-- Queue a message of the start node on connection `fd`. -/
def push (w : Wired) (fd : ℕ) (m : Message) (iSended : Int32) : Option Wired :=
  match w.peers[fd]? with
  | none => some w
  | some p => (p.toPeer.push m iSended).map fun toPeer => w.setPeer fd { p with toPeer := toPeer }

/-- One message after the other. -/
def send (w : Wired) (iSended : ℕ → Int32) : Sends → Option Wired
  | [] => some w
  | (fd, m) :: ms => do
    let w ← w.push fd m (iSended 0)
    w.send (fun k => iSended (k + 1)) ms

/-- The channel of connection `i` is registered and has read interest. -/
def listens (w : Wired) (i : ℕ) : Bool :=
  match w.leader.conns.find? i with
  | none => false
  | some cn => cn.reading

/-- The loop of `HandleArrivedMsg` of the start node on connection `i`. It does not look at the
read interest. -/
def handleArrivedMsg (lib : Protobuf) (i : ℕ) : (fuel : ℕ) → (ℕ → Reaction) → Wired → Option Wired
  | 0, _, _ => none
  | fuel + 1, reacts, w =>
    match w.peers[i]? with
    | none => none
    | some p =>
      match p.toLeader.inn.arrivedMsg with
      | .returned => some w
      | .outOfTables => none
      | .dispatched f b =>
        match w.leader.procFrame lib (reacts 0).puts i f with
        | .error _ => none
        | .ok (s, ms) => do
          let w ← (({ w with leader := s }).setPeer i
            { p with toLeader := { p.toLeader with inn := b } }).send (reacts 0).iSended ms
          handleArrivedMsg lib i fuel (fun k => reacts (k + 1)) w

/-- There are never more iterations than that in one callback. -/
def loopFuel : ℕ := bufferSize + 1

/-- One event; a handler that ends in a fault has no successor state. -/
def next (lib : Protobuf) (w : Wired) : WiredEvent → Option Wired
  | .join disk addr raftPort nodeID iSended => do
    let toLeader ← Pipe.new.push (.handshake_q ⟨raftPort, nodeID⟩) iSended
    some {
      leader := w.leader.accept w.peers.length addr
      peers := w.peers ++ [{
        server := .launchJoin disk 0 RaftServer.startHost raftPort
        toPeer := Pipe.new
        toLeader := toLeader }] }
  | .leaderRecv i n reacts =>
    match w.peers[i]? with
    | none => none
    | some p =>
      if w.listens i then do
        let toLeader ← p.toLeader.recv n
        (w.setPeer i { p with toLeader := toLeader }).handleArrivedMsg lib i loopFuel reacts
      else none
  | .peerRecv i n reacts =>
    match w.peers[i]? with
    | none => none
    | some p => do
      let toPeer ← p.toPeer.recv n
      let p ← ({ p with toPeer := toPeer } : WiredPeer).handleArrivedMsg lib loopFuel reacts
      some (w.setPeer i p)
  | .leaderSend i iSended =>
    match w.peers[i]? with
    | none => none
    | some p =>
      (p.toPeer.flush iSended).map fun toPeer => w.setPeer i { p with toPeer := toPeer }
  | .peerSend i iSended =>
    match w.peers[i]? with
    | none => none
    | some p =>
      (p.toLeader.flush iSended).map fun toLeader => w.setPeer i { p with toLeader := toLeader }
  | .tick iSended =>
    match w.leader.broadCastAppendEntries with
    | .error _ => none
    | .ok ms => w.send iSended ms
  | .timeout i =>
    match w.peers[i]? with
    | none => none
    | some p =>
      if p.server.timer = .armed then
        some (w.setPeer i { p with server := p.server.heartBeatTimeout })
      else none

/-- A start node that is up, and nobody has joined yet. -/
def Launched (w : Wired) : Prop :=
  ∃ put disk port id, RaftServer.launchStart put disk port id = .ok w.leader ∧ w.peers = []

/-- The runs of a cluster, byte by byte. -/
def system (lib : Protobuf) : System Wired WiredEvent := ⟨Launched, next lib⟩

/-- No buffer has been overrun. -/
def Fits (w : Wired) : Prop := ∀ p ∈ w.peers, p.Fits

instance (w : Wired) : Decidable w.Fits := inferInstanceAs (Decidable (∀ p ∈ w.peers, p.Fits))

/-- The text of an address, as `inet_ntop` writes it. -/
def IsText (addr : Bytes) : Prop := ∀ b ∈ addr, b.toNat < 128

instance (addr : Bytes) : Decidable (IsText addr) :=
  inferInstanceAs (Decidable (∀ b ∈ addr, b.toNat < 128))

/-- The log has room for the entry of a node that presents itself on connection `i`. What comes on
a connection later brings no entry. -/
def RoomOn (s : RaftServer) (i : ℕ) : Prop := s.tiedTo i = none → s.entries.length + 1 < 2 ^ 32

instance (s : RaftServer) (i : ℕ) : Decidable (RoomOn s i) :=
  inferInstanceAs (Decidable (_ = _ → _ < _))

/-- The runs in which no buffer is overrun, addresses are text, and the log of the start node has
room for a node that presents itself. -/
def Sound (lib : Protobuf) (w : Wired) (e : WiredEvent) : Prop :=
  (∀ w' ∈ next lib w e, w'.Fits) ∧ match e with
    | .join _ addr _ _ _ => IsText addr
    | .leaderRecv i _ _ => RoomOn w.leader i
    | _ => True

instance (lib : Protobuf) : ∀ (w : Wired) (e : WiredEvent), Decidable (Sound lib w e)
  | w, .join disk addr raftPort nodeID k => inferInstanceAs (Decidable
      ((∀ w' ∈ next lib w (.join disk addr raftPort nodeID k), w'.Fits) ∧ IsText addr))
  | w, .leaderRecv i n reacts => inferInstanceAs (Decidable
      ((∀ w' ∈ next lib w (.leaderRecv i n reacts), w'.Fits) ∧ RoomOn w.leader i))
  | w, .peerRecv i n reacts =>
    inferInstanceAs (Decidable ((∀ w' ∈ next lib w (.peerRecv i n reacts), w'.Fits) ∧ True))
  | w, .leaderSend i k =>
    inferInstanceAs (Decidable ((∀ w' ∈ next lib w (.leaderSend i k), w'.Fits) ∧ True))
  | w, .peerSend i k =>
    inferInstanceAs (Decidable ((∀ w' ∈ next lib w (.peerSend i k), w'.Fits) ∧ True))
  | w, .tick iSended =>
    inferInstanceAs (Decidable ((∀ w' ∈ next lib w (.tick iSended), w'.Fits) ∧ True))
  | w, .timeout i =>
    inferInstanceAs (Decidable ((∀ w' ∈ next lib w (.timeout i), w'.Fits) ∧ True))

end Wired
end NanoRaft
