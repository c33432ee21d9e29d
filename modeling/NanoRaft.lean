import NanoRaft.Cluster
import NanoRaft.RaftServerTheorems
import NanoRaft.ModApi
import NanoRaft.ModApiTheorems
import NanoRaft.FollowerLog
import NanoRaft.Node
import NanoRaft.CommitIndex
import NanoRaft.ClusterInvariant
import NanoRaft.ClusterCopies
import NanoRaft.ClusterCounters
import NanoRaft.Buffers
import NanoRaft.Receive
import NanoRaft.Transmit
import NanoRaft.Wire
import NanoRaft.Process
import NanoRaft.Restart
import NanoRaft.DurableLog
import NanoRaft.CatchUp
import NanoRaft.HoldBack
import NanoRaft.Dispatch
import NanoRaft.Lib.Pairing
import NanoRaft.Registry
import NanoRaft.Links
import NanoRaft.Poller
import NanoRaft.EventLoop
import NanoRaft.Membership
import NanoRaft.Recovery
import NanoRaft.Commitment
import NanoRaft.Positions
import NanoRaft.Output
import NanoRaft.Compaction
import NanoRaft.WriteInterest
import NanoRaft.Parsers
import NanoRaft.Malformed
import NanoRaft.IndexOrder
import NanoRaft.Suffix
import NanoRaft.Interest
import NanoRaft.Lib.CString
import NanoRaft.Payload
import NanoRaft.SocketWrapper
import NanoRaft.Heartbeat
import NanoRaft.Building
import NanoRaft.Lib.Text
import NanoRaft.Logger
import NanoRaft.Journal
import NanoRaft.Codec
import NanoRaft.Lib.Simulation
import NanoRaft.Provenance
import NanoRaft.Pipe
import NanoRaft.Wired
import NanoRaft.WiredRefinement
import NanoRaft.Realization
import NanoRaft.Lib.Pipeline
import NanoRaft.Timer
import NanoRaft.TimerTheorems
import NanoRaft.TimerLog
import NanoRaft.Exchange
import NanoRaft.Publishing
import NanoRaft.Leadership
import NanoRaft.FollowerCommit
import NanoRaft.Pacing
import NanoRaft.Convergence
