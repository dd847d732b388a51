import Phalanx.Go.Map
import Phalanx.Raft.Types

/-! The Raft state machine of `raft.go`, function by function. `none` is a
run-time panic: a slice bound past the log, a write to a nil map, or
`rand.Intn` on a non-positive bound. Logging and the shared term gauge are left
out; no modelled function reads them. -/
namespace Phalanx

open Go

structure Config where
  id : String
  peers : List String
  electionTimeout : Int
  heartbeatTimeout : Int
  randSeed : Int := 0
  initialTerm : Nat := 0
  initialVotedFor : String := None
  initialLog : List LogEntry := []

structure Raft where
  id : String
  currentTerm : Nat := 0
  votedFor : String := None
  /-- The slice `r.log` after its sentinel; `slots` is the whole slice. -/
  log : List LogEntry := []
  commitIndex : Nat := 0
  lastApplied : Nat := 0
  nextIndex : GoMap String Nat := .nil
  matchIndex : GoMap String Nat := .nil
  state : NodeState := .follower
  leaderID : String := None
  electionElapsed : Int := 0
  heartbeatElapsed : Int := 0
  electionTimeout : Int := 0
  heartbeatTimeout : Int
  baseElectionTimeout : Int
  heartbeatAcked : Int := 0
  leaderActive : Bool := false
  votes : GoMap String Bool := .nil
  preVotes : GoMap String Bool := .nil
  peers : List String
  msgs : List Message := []
  /-- The values the random source has yet to produce. -/
  rand : Nat → Nat

/-- The `Index` field of the last slot, which need not be its position. -/
def lastIndexOf (log : List LogEntry) : Nat := (log.getLast?.getD sentinel).index

def djb2 (s : String) : UInt64 :=
  s.toUTF8.foldl (fun h b => (h <<< 5) + h + b.toUInt64) 5381

namespace Raft

/-! Log helpers. -/

def slots (r : Raft) : List LogEntry := sentinel :: r.log

def lastLogIndex (r : Raft) : Nat := lastIndexOf r.log

def lastLogTerm (r : Raft) : Nat := (r.log.getLast?.getD sentinel).term

def logTerm (r : Raft) (index : Nat) : Nat :=
  match r.slots[index]? with
  | some entry => entry.term
  | none => 0

def isLogUpToDate (r : Raft) (lastIndex lastTerm : Nat) : Bool :=
  if lastTerm ≠ r.lastLogTerm then r.lastLogTerm < lastTerm
  else r.lastLogIndex ≤ lastIndex

/-! Quorum. -/

def clusterSize (r : Raft) : Nat := r.peers.length + 1

def quorumSize (r : Raft) : Nat := r.clusterSize / 2 + 1

def quorum (r : Raft) : Bool := r.quorumSize ≤ r.votes.trueKeys.card

def commitAt (r : Raft) (n : Nat) : Raft :=
  if r.logTerm n ≠ r.currentTerm then r
  else if r.quorumSize ≤ 1 + (r.peers.filter fun peer => n ≤ r.matchIndex.read peer).length then
    { r with commitIndex := n }
  else r

def maybeAdvanceCommit (r : Raft) : Raft :=
  (List.range' (r.commitIndex + 1) (r.lastLogIndex - r.commitIndex)).foldl commitAt r

/-! Internal helpers. -/

def send (r : Raft) (msg : Message) : Raft := { r with msgs := r.msgs ++ [msg] }

def redraw (r : Raft) : Raft :=
  { r with
    electionTimeout := wrapInt (r.baseElectionTimeout + (r.rand 0 : Int) % r.baseElectionTimeout)
    rand := fun k => r.rand (k + 1) }

def resetElectionTimeout (r : Raft) : Option Raft :=
  if 0 < r.baseElectionTimeout then some r.redraw else none

def addPeer (r : Raft) (nodeID : String) : Raft :=
  if nodeID = r.id then r
  else if nodeID ∈ r.peers then r
  else { r with peers := r.peers ++ [nodeID] }

/-! Broadcast. -/

def broadcastRequestVote (r : Raft) : Raft :=
  { r with
    msgs := r.msgs ++ r.peers.map fun peer =>
      { type := .requestVote, sender := r.id, recipient := peer, term := r.currentTerm,
        lastLogIndex := r.lastLogIndex, lastLogTerm := r.lastLogTerm } }

def appendEntriesFor (r : Raft) (peer : String) : Option Message := do
  let next := r.nextIndex.read peer
  let prevIdx := pred64 next
  let entries ←
    if next ≤ r.lastLogIndex then
      if next ≤ r.slots.length then some (r.slots.drop next) else none
    else some []
  pure { type := .appendEntries, sender := r.id, recipient := peer, term := r.currentTerm,
         prevLogIndex := prevIdx, prevLogTerm := r.logTerm prevIdx, entries,
         leaderCommit := r.commitIndex }

def broadcastHeartbeat (r : Raft) : Option Raft := do
  let out ← r.peers.mapM r.appendEntriesFor
  pure { r with msgs := r.msgs ++ out }

/-! State transitions. -/

def becomeFollower (r : Raft) (term : Nat) (leaderID : String) : Option Raft :=
  { r with
    state := .follower
    currentTerm := term
    votedFor := None
    leaderID := leaderID
    leaderActive := leaderID ≠ None
    electionElapsed := 0 }.resetElectionTimeout

def initialCursors (peers : List String) (cursor : Nat) : GoMap String Nat :=
  ⟨some (peers.foldl (fun table peer => table.insert peer cursor) ∅)⟩

def becomeLeader (r : Raft) : Option Raft :=
  let lastIdx := r.lastLogIndex
  let noop : LogEntry := { index := lastIdx + 1, term := r.currentTerm }
  { r with
    state := .leader
    leaderID := r.id
    heartbeatElapsed := 0
    heartbeatAcked := 1
    nextIndex := initialCursors r.peers (lastIdx + 1)
    matchIndex := initialCursors r.peers 0
    log := r.log ++ [noop] }.broadcastHeartbeat

def becomeCandidate (r : Raft) : Option Raft := do
  let votes ← GoMap.make.write r.id true
  let r ← ({ r with
    state := .candidate
    currentTerm := succ64 r.currentTerm
    votedFor := r.id
    leaderID := None
    votes
    electionElapsed := 0 } : Raft).resetElectionTimeout
  if r.quorum then r.becomeLeader
  else some r.broadcastRequestVote

/-! Tick handlers. -/

def tickElection (r : Raft) : Option Raft :=
  let r := { r with electionElapsed := r.electionElapsed + 1 }
  if r.electionTimeout ≤ r.electionElapsed then
    { r with electionElapsed := 0, leaderActive := false }.becomeCandidate
  else some r

def tickHeartbeat (r : Raft) : Option Raft :=
  let r := { r with heartbeatElapsed := r.heartbeatElapsed + 1 }
  if r.heartbeatTimeout ≤ r.heartbeatElapsed then
    { r with heartbeatElapsed := 0, heartbeatAcked := 1 }.broadcastHeartbeat
  else some r

def tick (r : Raft) : Option Raft :=
  match r.state with
  | .follower | .candidate => r.tickElection
  | .leader => r.tickHeartbeat

/-! Message handlers. -/

def handleRequestVote (r : Raft) (msg : Message) : Raft :=
  let reply : Message :=
    { type := .requestVoteResp, sender := r.id, recipient := msg.sender, term := r.currentTerm,
      reject := true }
  if r.leaderActive ∧ msg.term ≤ r.currentTerm then
    r.send { reply with isPreVote := msg.isPreVote }
  else if msg.isPreVote then
    let canGrant := decide (r.currentTerm ≤ msg.term) &&
      r.isLogUpToDate msg.lastLogIndex msg.lastLogTerm
    r.send { reply with reject := !canGrant, isPreVote := true }
  else if msg.term < r.currentTerm then
    r.send reply
  else if (r.votedFor = None ∨ r.votedFor = msg.sender) ∧
      r.isLogUpToDate msg.lastLogIndex msg.lastLogTerm then
    { r with votedFor := msg.sender, electionElapsed := 0 }.send { reply with reject := false }
  else r.send reply

def handlePreVoteResp (r : Raft) (msg : Message) : Option Raft := do
  let preVotes ← match r.preVotes.table with
    | none => GoMap.make.write r.id true
    | some _ => some r.preVotes
  let preVotes ← preVotes.write msg.sender (!msg.reject)
  let r := { r with preVotes }
  if r.quorumSize ≤ preVotes.trueKeys.card then r.becomeCandidate
  else some r

def handleRequestVoteResp (r : Raft) (msg : Message) : Option Raft :=
  if r.state ≠ .candidate then some r
  else if msg.isPreVote then r.handlePreVoteResp msg
  else if msg.term ≠ r.currentTerm then some r
  else do
    let votes ← r.votes.write msg.sender (!msg.reject)
    let r := { r with votes }
    if r.quorum then r.becomeLeader
    else some r

/-- The back-off hint: walk down while the preceding slot has the same term. -/
def conflictHint (r : Raft) (conflictTerm : Nat) : Nat → Nat
  | 0 => 0
  | hint + 1 =>
    if 0 < hint ∧ r.logTerm hint = conflictTerm then r.conflictHint conflictTerm hint
    else hint + 1

/-- The append loop, at position `idx` with the sent entries still to place.
The log is only replaced where the loop breaks. -/
def appendLoop (r : Raft) (idx : Nat) : List LogEntry → Option (List LogEntry)
  | [] => some r.log
  | entry :: rest =>
    if idx ≤ r.lastLogIndex then
      if r.logTerm idx ≠ entry.term then
        -- A bound between the length and the capacity of the slice is taken for a panic too.
        if idx ≤ r.slots.length then some (r.log.take (idx - 1) ++ entry :: rest) else none
      else r.appendLoop (idx + 1) rest
    else some (r.log ++ entry :: rest)

def followCommit (r : Raft) (msg : Message) : Raft :=
  if r.commitIndex < msg.leaderCommit then
    let lastNewIdx := msg.prevLogIndex + msg.entries.length
    { r with commitIndex := if msg.leaderCommit < lastNewIdx then msg.leaderCommit else lastNewIdx }
  else r

def replicate (r : Raft) (reply msg : Message) : Option Raft :=
  if 0 < msg.prevLogIndex ∧ r.lastLogIndex < msg.prevLogIndex then
    some (r.send { reply with index := r.lastLogIndex })
  else if 0 < msg.prevLogIndex ∧ r.logTerm msg.prevLogIndex ≠ msg.prevLogTerm then
    let hint := r.conflictHint (r.logTerm msg.prevLogIndex) msg.prevLogIndex
    some (r.send { reply with index := hint - 1 })
  else do
    let log ← r.appendLoop (msg.prevLogIndex + 1) msg.entries
    let r := { r with log }.followCommit msg
    pure (r.send { reply with reject := false, index := r.lastLogIndex })

def handleAppendEntries (r : Raft) (msg : Message) : Option Raft := do
  let reply : Message :=
    { type := .appendEntriesResp, sender := r.id, recipient := msg.sender, term := r.currentTerm,
      reject := true }
  if msg.term < r.currentTerm then some (r.send reply)
  else
    let r := { r with electionElapsed := 0, leaderID := msg.sender, leaderActive := true }
    let r ← if r.state ≠ .follower then r.becomeFollower msg.term msg.sender else some r
    r.replicate { reply with term := r.currentTerm } msg

def handleAppendEntriesResp (r : Raft) (msg : Message) : Option Raft :=
  if r.state ≠ .leader then some r
  else if msg.term ≠ r.currentTerm then some r
  else if msg.reject then
    if 0 < msg.index then do
      let nextIndex ← r.nextIndex.write msg.sender (msg.index + 1)
      pure { r with nextIndex }
    else if 1 < r.nextIndex.read msg.sender then do
      let nextIndex ← r.nextIndex.write msg.sender (r.nextIndex.read msg.sender - 1)
      pure { r with nextIndex }
    else some r
  else do
    let r ←
      if 0 < msg.index then do
        let matchIndex ← r.matchIndex.write msg.sender msg.index
        let nextIndex ← r.nextIndex.write msg.sender (msg.index + 1)
        pure { r with matchIndex, nextIndex }
      else pure r
    pure { r with heartbeatAcked := r.heartbeatAcked + 1 }.maybeAdvanceCommit

/-! Public operations. -/

def newRaft (newSource : Int → Nat → Nat) (cfg : Config) : Option Raft :=
  let seed := if cfg.randSeed = 0 then (djb2 cfg.id).toInt64.toInt else cfg.randSeed
  { id := cfg.id
    currentTerm := cfg.initialTerm
    votedFor := cfg.initialVotedFor
    log := cfg.initialLog
    heartbeatTimeout := cfg.heartbeatTimeout
    baseElectionTimeout := cfg.electionTimeout
    peers := cfg.peers
    rand := newSource seed : Raft }.resetElectionTimeout

/-- The term rule at the head of `Step`. -/
def observeTerm (r : Raft) (msg : Message) : Option Raft :=
  if r.currentTerm < msg.term ∧
      ¬ (msg.isPreVote ∧ (msg.type = .requestVote ∨ msg.type = .requestVoteResp)) then
    r.becomeFollower msg.term (if msg.type = .appendEntries then msg.sender else None)
  else some r

def handle (r : Raft) (msg : Message) : Option Raft :=
  match msg.type with
  | .requestVote => some (r.handleRequestVote msg)
  | .requestVoteResp => r.handleRequestVoteResp msg
  | .appendEntries => r.handleAppendEntries msg
  | .appendEntriesResp => r.handleAppendEntriesResp msg
  | .unknown => some r

def step (r : Raft) (msg : Message) : Option Raft := do
  let r ← r.observeTerm msg
  r.handle msg

def messages (r : Raft) : List Message × Raft := (r.msgs, { r with msgs := [] })

/-- `Propose`: the index of the new entry, or `none` for `ErrNotLeader`. -/
def propose (r : Raft) (data : List UInt8) : Option (Option Nat × Raft) :=
  if r.state ≠ .leader then some (none, r)
  else do
    let entry : LogEntry := { index := r.lastLogIndex + 1, term := r.currentTerm, data }
    let matchIndex ← match r.matchIndex.table with
      | none => some r.matchIndex
      | some _ => r.matchIndex.write r.id entry.index
    let r ← { r with log := r.log ++ [entry], matchIndex }.broadcastHeartbeat
    pure (some entry.index, r)

def applicableEntries (r : Raft) : List LogEntry × Raft :=
  if r.commitIndex ≤ r.lastApplied then ([], r)
  else
    let stop := if r.slots.length ≤ r.commitIndex then r.slots.length - 1 else r.commitIndex
    if stop ≤ r.lastApplied then ([], r)
    else ((r.slots.drop (r.lastApplied + 1)).take (stop - r.lastApplied),
      { r with lastApplied := stop })

def hasLeaderQuorum (r : Raft) : Bool :=
  r.state = .leader ∧ (r.quorumSize : Int) ≤ r.heartbeatAcked

end Raft
end Phalanx
