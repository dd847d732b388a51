import Phalanx.Node
import Phalanx.Storage.Entries

/-! A consensus RPC as text. The sender makes a request of the message and marshals it; the
handler steps the message that it rebuilds from what it has unmarshalled, and the response
goes back the same way. Node IDs are UTF-8 here, so that `json.Marshal` leaves them alone.
Whatever fits into the fields arrives as it was sent. -/
namespace Phalanx

open Go

namespace Message

/-- Its numbers are `uint64` values. -/
structure Fits (msg : Message) : Prop where
  term : msg.term < uint64Size
  prevLogIndex : msg.prevLogIndex < uint64Size
  prevLogTerm : msg.prevLogTerm < uint64Size
  entries : ∀ e ∈ msg.entries, e.Fits
  leaderCommit : msg.leaderCommit < uint64Size
  lastLogIndex : msg.lastLogIndex < uint64Size
  lastLogTerm : msg.lastLogTerm < uint64Size
  index : msg.index < uint64Size

/-! The requests that `sendAppendEntries` and `sendRequestVote` make. -/

def appendEntriesRequest (msg : Message) : Pb.AppendEntriesRequest where
  term := .ofNat msg.term
  leaderID := msg.sender
  prevLogIndex := .ofNat msg.prevLogIndex
  prevLogTerm := .ofNat msg.prevLogTerm
  -- `broadcastHeartbeat` leaves the slice nil when there is nothing to send.
  entries := if msg.entries = [] then none else some (msg.entries.map fun e => some e.clone)
  leaderCommit := .ofNat msg.leaderCommit

def requestVoteRequest (msg : Message) : Pb.RequestVoteRequest where
  term := .ofNat msg.term
  candidateID := msg.sender
  lastLogIndex := .ofNat msg.lastLogIndex
  lastLogTerm := .ofNat msg.lastLogTerm
  isPreVote := msg.isPreVote

/-! The responses that the handlers make of the reply in the outbox. -/

def appendEntriesReply (m : Message) : Pb.AppendEntriesResponse where
  term := .ofNat m.term
  success := !m.reject
  lastLogIndex := .ofNat m.index

def requestVoteReply (m : Message) : Pb.RequestVoteResponse where
  term := .ofNat m.term
  voteGranted := !m.reject
  isPreVote := m.isPreVote

end Message

/-- The message that `HandleAppendEntries` steps. There is none if an entry is nil. -/
def Pb.AppendEntriesRequest.message (req : Pb.AppendEntriesRequest) (id : String) :
    Option Message := do
  let entries ← (req.entries.getD []).mapM fun e => e
  pure
    { type := .appendEntries, sender := req.leaderID, recipient := id, term := req.term.toNat,
      prevLogIndex := req.prevLogIndex.toNat, prevLogTerm := req.prevLogTerm.toNat,
      entries := entries.map Pb.LogEntry.held, leaderCommit := req.leaderCommit.toNat }

def Pb.RequestVoteRequest.message (req : Pb.RequestVoteRequest) (id : String) : Message :=
  { type := .requestVote, sender := req.candidateID, recipient := id, term := req.term.toNat,
    lastLogIndex := req.lastLogIndex.toNat, lastLogTerm := req.lastLogTerm.toNat,
    isPreVote := req.isPreVote }

/-- The message that `sendAppendEntries` steps when the RPC for `msg` has returned. -/
def Pb.AppendEntriesResponse.message (resp : Pb.AppendEntriesResponse) (msg : Message) : Message :=
  { type := .appendEntriesResp, sender := msg.recipient, recipient := msg.sender,
    term := resp.term.toNat, reject := !resp.success, index := resp.lastLogIndex.toNat }

def Pb.RequestVoteResponse.message (resp : Pb.RequestVoteResponse) (msg : Message) : Message :=
  { type := .requestVoteResp, sender := msg.recipient, recipient := msg.sender,
    term := resp.term.toNat, reject := !resp.voteGranted, isPreVote := resp.isPreVote }

/-- `jsonCodec` at both ends of a connection. -/
def relay {α : Type} (c : Coder α) (a : α) : Option α := c.unmarshal (c.marshal a)

namespace Message

def requested (msg : Message) (id : String) : Option Message :=
  if msg.type = .appendEntries then
    (relay Pb.Codec.appendEntriesRequest msg.appendEntriesRequest).bind fun req => req.message id
  else
    (relay Pb.Codec.requestVoteRequest msg.requestVoteRequest).map fun req => req.message id

def responded (msg reply : Message) : Option Message :=
  if msg.type = .appendEntries then
    (relay Pb.Codec.appendEntriesResponse reply.appendEntriesReply).map fun resp =>
      resp.message msg
  else
    (relay Pb.Codec.requestVoteResponse reply.requestVoteReply).map fun resp => resp.message msg

theorem mapM_clone (entries : List LogEntry) :
    (entries.map fun e => some e.clone).mapM (fun e => e) = some (entries.map LogEntry.clone) := by
  induction entries with
  | nil => rfl
  | cons e rest ih =>
    rw [List.map_cons, List.mapM_cons, ih]
    rfl

theorem held_clones {entries : List LogEntry} (h : ∀ e ∈ entries, e.Fits) :
    (entries.map LogEntry.clone).map Pb.LogEntry.held = entries := by
  rw [List.map_map]
  conv_rhs => rw [← List.map_id entries]
  exact List.map_congr_left fun e he => LogEntry.held_clone (h e he)

theorem message_appendEntriesRequest {msg : Message} (h : msg.Fits) (id : String) :
    msg.appendEntriesRequest.message id = some
      { type := .appendEntries, sender := msg.sender, recipient := id, term := msg.term,
        prevLogIndex := msg.prevLogIndex, prevLogTerm := msg.prevLogTerm, entries := msg.entries,
        leaderCommit := msg.leaderCommit } := by
  have hentries : (msg.appendEntriesRequest.entries.getD []).mapM (fun e => e) =
      some (msg.entries.map LogEntry.clone) := by
    simp only [appendEntriesRequest]
    split
    next hempty =>
      rw [hempty]
      rfl
    next => exact mapM_clone msg.entries
  rw [Pb.AppendEntriesRequest.message, hentries]
  simp only [Option.bind_eq_bind, Option.bind_some, held_clones h.entries, appendEntriesRequest,
    toNat_ofNat_uint64 h.term, toNat_ofNat_uint64 h.prevLogIndex, toNat_ofNat_uint64 h.prevLogTerm,
    toNat_ofNat_uint64 h.leaderCommit]
  rfl

theorem requested_eq {msg : Message} (h : msg.Fits) (id : String) :
    msg.requested id = some (msg.received id) := by
  unfold requested received
  split
  next =>
    rw [relay, Coder.unmarshal_marshal]
    exact message_appendEntriesRequest h id
  next =>
    rw [relay, Coder.unmarshal_marshal]
    change some (msg.requestVoteRequest.message id) = _
    simp only [Pb.RequestVoteRequest.message, requestVoteRequest, toNat_ofNat_uint64 h.term,
      toNat_ofNat_uint64 h.lastLogIndex, toNat_ofNat_uint64 h.lastLogTerm]

theorem responded_eq {reply : Message} (h : reply.Fits) (msg : Message) :
    msg.responded reply = some (msg.answered reply) := by
  unfold responded answered
  split
  next =>
    rw [relay, Coder.unmarshal_marshal]
    change some (reply.appendEntriesReply.message msg) = _
    simp only [Pb.AppendEntriesResponse.message, appendEntriesReply, toNat_ofNat_uint64 h.term,
      toNat_ofNat_uint64 h.index, Bool.not_not]
  next =>
    rw [relay, Coder.unmarshal_marshal]
    change some (reply.requestVoteReply.message msg) = _
    simp only [Pb.RequestVoteResponse.message, requestVoteReply, toNat_ofNat_uint64 h.term,
      Bool.not_not]

end Message
end Phalanx
