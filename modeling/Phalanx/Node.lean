import Phalanx.FSM.KV
import Phalanx.Raft.Machine
import Phalanx.Storage.Store

/-! The node of `node.go`: one Raft instance, its store and its state machine,
driven by handlers that run one at a time under `n.mu`. A handler changes memory
(`act`), then writes the term and the vote (`persistState`), then drains the
outbox; what a crash keeps depends on which of these it interrupts. -/
namespace Phalanx

open Go

structure NodeConfig where
  id : String
  peers : List String
  electionTimeout : Int
  heartbeatTimeout : Int

/-- What a node gets from outside its own code: the generator behind
`rand.NewSource`, the JSON decoder, and who answers when a node dials an address. -/
structure Env where
  newSource : Int → Nat → Nat
  unmarshal : List UInt8 → Option Command
  dial : String → String → String

/-- One call of `HandlePropose` that reached the log. Its number is the identity
of its `doneCh`, and `signalled` says that the channel is closed. -/
structure Call where
  index : Nat
  term : Nat
  data : List UInt8
  signalled : Bool := false
  outcome : Option Bool := none
deriving DecidableEq

structure Node where
  id : String
  raft : Raft
  store : Store
  fsm : KV := {}
  proposals : GoMap Nat Nat := .make
  peerAddrs : GoMap String String := .make
  /-- Every call so far. -/
  calls : List Call := []
  /-- Everything `ApplicableEntries` has returned so far. -/
  applied : List LogEntry := []

inductive Input where
  | tick
  | propose (data : List UInt8)
  /-- The server side of an RPC. -/
  | request (msg : Message)
  /-- The continuation of an RPC, with the message it steps. -/
  | response (msg : Message)
  /-- A `NodeJoin` event. -/
  | join (nodeID raftAddr : String)

/-- What `HandleAppendEntries` and `HandleRequestVote` rebuild from the wire. -/
def Message.received (msg : Message) (id : String) : Message :=
  if msg.type = .appendEntries then
    { type := .appendEntries, sender := msg.sender, recipient := id, term := msg.term,
      prevLogIndex := msg.prevLogIndex, prevLogTerm := msg.prevLogTerm, entries := msg.entries,
      leaderCommit := msg.leaderCommit }
  else
    { type := .requestVote, sender := msg.sender, recipient := id, term := msg.term,
      lastLogIndex := msg.lastLogIndex, lastLogTerm := msg.lastLogTerm,
      isPreVote := msg.isPreVote }

/-- What the continuation of the RPC for `msg` steps when `reply` comes back. The
sender is whoever the request was meant for. -/
def Message.answered (msg reply : Message) : Message :=
  if msg.type = .appendEntries then
    { type := .appendEntriesResp, sender := msg.recipient, recipient := msg.sender,
      term := reply.term, reject := reply.reject, index := reply.index }
  else
    { type := .requestVoteResp, sender := msg.recipient, recipient := msg.sender,
      term := reply.term, reject := reply.reject, isPreVote := reply.isPreVote }

namespace Node

variable (env : Env)

def newNode (cfg : NodeConfig) (store : Store) : Option Node := do
  let (savedTerm, savedVote) := store.loadState
  let raft ← Raft.newRaft env.newSource
    { id := cfg.id, peers := cfg.peers, electionTimeout := cfg.electionTimeout
      heartbeatTimeout := cfg.heartbeatTimeout, initialTerm := savedTerm
      initialVotedFor := savedVote, initialLog := store.loadLog }
  pure { id := cfg.id, raft, store }

def setPeerAddr (n : Node) (nodeID addr : String) : Option Node := do
  let peerAddrs ← n.peerAddrs.write nodeID addr
  pure { n with peerAddrs }

def resolvePeerAddr (n : Node) (nodeID : String) : String :=
  (n.peerAddrs.lookup nodeID).getD nodeID

def resolveLeaderAddr (n : Node) : String :=
  (n.peerAddrs.lookup n.raft.leaderID).getD n.raft.leaderID

def redirect (n : Node) : Option String :=
  if n.raft.state ≠ .leader then some n.resolveLeaderAddr else none

def applyEntry (n : Node) (entry : LogEntry) : Node :=
  let fsm := if entry.type = .command ∧ entry.data ≠ [] then
    n.fsm.applied env.unmarshal entry.data else n.fsm
  match n.proposals.lookup entry.index with
  | none => { n with fsm }
  | some call =>
    { n with
      fsm
      calls := n.calls.modify call fun c => { c with signalled := true }
      proposals := n.proposals.delete entry.index }

def applyCommitted (n : Node) : Node :=
  let (entries, raft) := n.raft.applicableEntries
  entries.foldl (applyEntry env) { n with raft, applied := n.applied ++ entries }

def persistState (n : Node) (saved : Bool) : Node :=
  if saved then { n with store := n.store.saveState n.raft.currentTerm n.raft.votedFor } else n

/-- `HandlePropose` up to the write to the store, at a leader. -/
def register (n : Node) (data : List UInt8) : Option Node := do
  let (proposed, raft) ← n.raft.propose data
  match proposed with
  | none => pure { n with raft }
  | some idx =>
    let proposals ← n.proposals.write idx n.calls.length
    pure { n with
      raft, proposals
      calls := n.calls ++ [{ index := idx, term := raft.currentTerm, data }] }

/-- The part of a handler that only touches memory. -/
def act (n : Node) : Input → Option Node
  | .tick => do
    let raft ← n.raft.tick
    pure (applyCommitted env { n with raft })
  | .propose data => n.register data
  | .request msg => do
    let raft ← n.raft.step (msg.received n.id)
    if msg.type = .appendEntries then pure (applyCommitted env { n with raft })
    else pure { n with raft }
  | .response msg => do
    let raft ← n.raft.step msg
    if msg.type = .appendEntriesResp then pure (applyCommitted env { n with raft })
    else pure { n with raft }
  | .join nodeID raftAddr => { n with raft := n.raft.addPeer nodeID }.setPeerAddr nodeID raftAddr

/-- The handlers that return before they change, write or send anything. -/
def declines (n : Node) : Input → Bool
  | .propose _ => n.raft.state ≠ .leader
  | _ => false

def release (n : Node) (saved : Bool) : Node × List Message :=
  let n := n.persistState saved
  ({ n with raft := n.raft.messages.2 }, n.raft.messages.1)

/-- How `HandlePropose` returns once it waits: with success if the channel is
closed, without if the timer or the client's context ends first. -/
def answer (n : Node) (call : Nat) (success : Bool) : Option Node :=
  match n.calls[call]? with
  | some c =>
    if c.outcome = none ∧ (success → c.signalled) then
      some { n with calls := n.calls.set call { c with outcome := some success } }
    else none
  | none => none

def servesRead (n : Node) : Bool := n.raft.state = .leader ∧ n.raft.hasLeaderQuorum

end Node
end Phalanx
