import NanoRaft.Lib.System
import NanoRaft.ModApi

/-!
# The cluster

One process launched by `start` and any number launched by `join`, each with one reliable
FIFO connection to the first. On the side of the start node the connection of the `i`-th
peer has descriptor `i`; a peer has one connection, of descriptor `0`.

A label of the system is one event of one process: a new process that connects, a timer
that expires, or the handling of the message at the head of one direction of one
connection. What the databases answer in a handler is part of its label.
-/

namespace NanoRaft

/-- A joined process and the two directions of its connection. -/
structure Peer where
  server : RaftServer
  toPeer : List Message
  toLeader : List Message

structure Cluster where
  leader : RaftServer
  peers : List Peer

/-- The events of a run. -/
inductive Event where
  /-- `join`: the process starts, connects from `addr` and sends its `handshake_q`. -/
  | join (disk : Disk) (addr : Bytes) (raftPort nodeID : UInt32)
  /-- The start node handles the next message of connection `i`. -/
  | toLeader (i : ℕ) (puts : Puts)
  /-- Peer `i` handles its next message. -/
  | toPeer (i : ℕ) (puts : Puts)
  /-- The leader timer of the start node. -/
  | tick
  /-- The heartbeat timer of peer `i`. -/
  | timeout (i : ℕ)

namespace Cluster

/-- Put the messages of `ms` that go to connection `i` on it, in order. -/
def sentTo (ms : Sends) (i : ℕ) : List Message := (ms.filter fun m => m.1 = i).map Prod.snd

/-- Put the messages of the start node on their connections. -/
def send (c : Cluster) (ms : Sends) : Cluster :=
  { c with peers := c.peers.mapIdx fun i p => { p with toPeer := p.toPeer ++ sentTo ms i } }

/-- The start node takes a message from connection `i` as long as it is registered and its
channel has read interest. -/
def listens (c : Cluster) (i : ℕ) : Bool :=
  match c.leader.conns.find? i with
  | none => false
  | some cn => cn.reading

def setPeer (c : Cluster) (i : ℕ) (p : Peer) : Cluster := { c with peers := c.peers.set i p }

/-- One event; a handler that ends in a fault has no successor state. -/
def next (c : Cluster) : Event → Option Cluster
  | .join disk addr raftPort nodeID =>
    some {
      leader := c.leader.accept c.peers.length addr
      peers := c.peers ++ [{
        server := .launchJoin disk 0 RaftServer.startHost raftPort
        toPeer := []
        toLeader := [.handshake_q ⟨raftPort, nodeID⟩] }] }
  | .toLeader i puts =>
    match c.peers[i]? with
    | none => none
    | some p =>
      match p.toLeader with
      | [] => none
      | m :: rest =>
        if c.listens i then
          match c.leader.proc puts i m with
          | .error _ => none
          | .ok (s, ms) =>
            some (({ c with leader := s }.setPeer i { p with toLeader := rest }).send ms)
        else none
  | .toPeer i puts =>
    match c.peers[i]? with
    | none => none
    | some p =>
      match p.toPeer with
      | [] => none
      | m :: rest =>
        match p.server.proc puts 0 m with
        | .error _ => none
        | .ok (s, ms) =>
          some (c.setPeer i
            { server := s, toPeer := rest, toLeader := p.toLeader ++ sentTo ms 0 })
  | .tick =>
    match c.leader.broadCastAppendEntries with
    | .error _ => none
    | .ok ms => some (c.send ms)
  | .timeout i =>
    match c.peers[i]? with
    | none => none
    | some p =>
      if p.server.timer = .armed then
        some (c.setPeer i { p with server := p.server.heartBeatTimeout })
      else none

/-- A start node that is up, and nobody has joined yet. -/
def Launched (c : Cluster) : Prop :=
  ∃ put disk port id, RaftServer.launchStart put disk port id = .ok c.leader ∧ c.peers = []

/-- The runs of a cluster. -/
def system : System Cluster Event := ⟨Launched, next⟩

/-- The servers of all nodes. -/
def nodes (c : Cluster) : List RaftServer := c.leader :: c.peers.map Peer.server

end Cluster
end NanoRaft
