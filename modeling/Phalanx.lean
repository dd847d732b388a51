import Phalanx.Go.Map
import Phalanx.Go.Chan
import Phalanx.Go.RWMutex
import Phalanx.Go.Utf8
import Phalanx.Go.Json
import Phalanx.Go.Decimal
import Phalanx.Go.Base64
import Phalanx.Go.Literal
import Phalanx.Go.Value
import Phalanx.Go.Coder
import Phalanx.KeyValue.Bytes
import Phalanx.KeyValue.Table
import Phalanx.Transition
import Phalanx.Consensus.Quorum
import Phalanx.Consensus.Splice
import Phalanx.Consensus.Protocol
import Phalanx.Consensus.Election
import Phalanx.Consensus.Matching
import Phalanx.Consensus.Completeness
import Phalanx.Consensus.Run
import Phalanx.Raft.Types
import Phalanx.Pb
import Phalanx.Raft.Machine
import Phalanx.Storage.Store
import Phalanx.Storage.Badger
import Phalanx.Storage.Entries
import Phalanx.FSM.KV
import Phalanx.FSM.Commands
import Phalanx.FSM.Text
import Phalanx.Node
import Phalanx.Cluster
import Phalanx.Replay
import Phalanx.Raft.Moves
import Phalanx.Raft.Log
import Phalanx.Raft.Reference
import Phalanx.Raft.Returns
import Phalanx.Raft.Timers
import Phalanx.Raft.Operations
import Phalanx.Raft.Repeat
import Phalanx.Raft.PreVotes
import Phalanx.Raft.Stopwatch
import Phalanx.Raft.Terms
import Phalanx.Invariant
import Phalanx.Refinement.Node
import Phalanx.Raft.Outbox
import Phalanx.Traffic
import Phalanx.Record
import Phalanx.Refinement.Tracks
import Phalanx.Raft.Exchange
import Phalanx.Refinement.Moves
import Phalanx.Refinement.Cluster
import Phalanx.Safety.Election
import Phalanx.Safety.Logs
import Phalanx.Safety.Applied
import Phalanx.Safety.Restart
import Phalanx.Safety.Clients
import Phalanx.Safety.Reads
import Phalanx.Safety.Lockstep
import Phalanx.Safety.Lease
import Phalanx.Safety.Ballots
import Phalanx.Safety.Votes
import Phalanx.Safety.Joins
import Phalanx.Safety.WellFormed
import Phalanx.Safety.Hints
import Phalanx.Safety.Commit
import Phalanx.Safety.Watermarks
import Phalanx.Safety.Canvass
import Phalanx.Safety.Disruption
import Phalanx.Safety.Rounds
import Phalanx.Safety.Persistence
import Phalanx.Safety.Reigns
import Phalanx.Safety.Cursors
import Phalanx.Safety.Replies
import Phalanx.Safety.Acks
import Phalanx.Safety.Matches
import Phalanx.Safety.Backoff
import Phalanx.Safety.Service
import Phalanx.Safety.Origins
import Phalanx.Safety.Proposals
import Phalanx.Progress.Delivery
import Phalanx.Progress.Election
import Phalanx.Progress.Replication
import Phalanx.Progress.Convergence
import Phalanx.Progress.Stability
import Phalanx.Network.Local
import Phalanx.Network.Closing
import Phalanx.Network.Conns
import Phalanx.Network.Sharing
import Phalanx.Network.Wire
import Phalanx.Safety.Wire
import Phalanx.Safety.Disk
