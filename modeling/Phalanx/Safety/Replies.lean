import Phalanx.Raft.Repeat
import Phalanx.Safety.Persistence
import Phalanx.Safety.WellFormed

/-! The handlers of a node from lock to unlock. The two consensus RPCs pick their reply out
of the outbox by type and addressee and route the rest; every other handler routes all of it.
Nothing is known of the requests and of the responses that come in. -/
namespace Phalanx

open Go Raft

inductive Route where
  | sendAppendEntries
  | sendRequestVote
  | unroutable
deriving DecidableEq

def routeMessage (msg : Message) : Route :=
  match msg.type with
  | .appendEntries => .sendAppendEntries
  | .requestVote => .sendRequestVote
  | _ => .unroutable

theorem routeMessage_of_isRequest {m : Message} (h : m.isRequest = true) :
    routeMessage m ≠ .unroutable := by
  have htype : m.type = .appendEntries ∨ m.type = .requestVote := of_decide_eq_true h
  unfold routeMessage
  rcases htype with htype | htype <;> simp [htype]

inductive Response where
  | appendEntries (term : Nat) (success : Bool) (lastLogIndex : Nat)
  | requestVote (term : Nat) (voteGranted isPreVote : Bool)
deriving DecidableEq

def Message.appendEntriesResponse (m : Message) : Response :=
  .appendEntries m.term (!m.reject) m.index

def Message.requestVoteResponse (m : Message) : Response :=
  .requestVote m.term (!m.reject) m.isPreVote

/-- The critical sections of `n.mu`. The last two are what runs when an RPC of this node
has come back. -/
inductive Handler where
  | tick
  | propose (data : List UInt8)
  | appendEntries (req : Message)
  | requestVote (req : Message)
  | read (key : String)
  | join (nodeID raftAddr : String)
  | leave (nodeID : String)
  | appendEntriesSent (req resp : Message)
  | requestVoteSent (req resp : Message)

/-- A handler at its unlock: what it gave to `routeMessage`, and what it returns if it is
one of the consensus RPCs. -/
structure Handled where
  node : Node
  routed : List Message
  returned : Option (Except String Response) := none

/-- The loop over the outbox: the last message of the kind to the addressee is the reply. -/
def pickReply (kind : MessageType) (addressee : String) (out : List Message) :
    Option Message × List Message :=
  out.foldl (fun picked m =>
    if m.type = kind ∧ m.recipient = addressee then (some m, picked.2)
    else (picked.1, picked.2 ++ [m])) (none, [])

theorem pickReply_singleton {kind : MessageType} {addressee : String} {m : Message}
    (htype : m.type = kind) (hrecipient : m.recipient = addressee) :
    pickReply kind addressee [m] = (some m, []) := by
  simp [pickReply, htype, hrecipient]

namespace Node

section Handlers

variable (env : Env) (n : Node) (saved : Bool)

def dispatched (served : Node × List Message) : Handled :=
  { node := served.1, routed := served.2 }

def replied (kind : MessageType) (addressee : String) (response : Message → Response)
    (failure : String) (served : Node × List Message) : Handled :=
  let picked := pickReply kind addressee served.2
  { node := served.1
    routed := picked.2
    returned := some (match picked.1 with
      | some m => .ok (response m)
      | none => .error failure) }

def handleAppendEntries (req : Message) : Option Handled :=
  (n.serve env (.request { req with type := .appendEntries }) saved).map
    (replied .appendEntriesResp req.sender Message.appendEntriesResponse
      "node: no response generated for AppendEntries")

def handleRequestVote (req : Message) : Option Handled :=
  (n.serve env (.request { req with type := .requestVote }) saved).map
    (replied .requestVoteResp req.sender Message.requestVoteResponse
      "node: no response generated for RequestVote")

def attend : Handler → Option Handled
  | .tick => (n.serve env .tick saved).map dispatched
  | .propose data => (n.serve env (.propose data) saved).map dispatched
  | .appendEntries req => n.handleAppendEntries env saved req
  | .requestVote req => n.handleRequestVote env saved req
  | .join nodeID raftAddr => (n.serve env (.join nodeID raftAddr) saved).map dispatched
  | .appendEntriesSent req resp =>
    (n.serve env (.response ({ req with type := .appendEntries }.answered resp)) saved).map
      dispatched
  | .requestVoteSent req resp =>
    (n.serve env (.response ({ req with type := .requestVote }.answered resp)) saved).map
      dispatched
  -- one only reads, the other only logs
  | .read _ | .leave _ => some { node := n, routed := [] }

end Handlers

/-- An AppendEntries that passes the check against the log continues its previous index. -/
def Admits (n : Node) : Handler → Prop
  | .appendEntries req => n.raft.currentTerm ≤ req.term → n.raft.passes req →
      Numbered req.prevLogIndex req.entries
  | _ => True

instance decidableAdmits (n : Node) : (handler : Handler) → Decidable (n.Admits handler)
  | .appendEntries _ => inferInstanceAs (Decidable (_ → _))
  | .tick | .propose _ | .requestVote _ | .read _ | .join _ _ | .leave _
  | .appendEntriesSent _ _ | .requestVoteSent _ _ => inferInstanceAs (Decidable True)

abbrev Attended (env : Env) (cfg : NodeConfig) (store : Store)
    (ok : Node → Handler × Bool → Prop) : Node → Prop :=
  Reachable (newNode env cfg store)
    (fun n event => (n.attend env event.2 event.1).map Handled.node) ok

end Node

namespace Raft

variable {r r' : Raft} {msg : Message}

def Replies (kind : MessageType) (msg : Message) (r r' : Raft) : Prop :=
  ∃ m, r'.msgs = r.msgs ++ [m] ∧ m.type = kind ∧ m.recipient = msg.sender

theorem handleRequestVote_replies (r : Raft) (msg : Message) :
    Replies .requestVoteResp msg r (r.handleRequestVote msg) := by
  unfold handleRequestVote
  simp only
  split
  · exact ⟨_, rfl, rfl, rfl⟩
  · split
    · exact ⟨_, rfl, rfl, rfl⟩
    · split
      · exact ⟨_, rfl, rfl, rfl⟩
      · split <;> exact ⟨_, rfl, rfl, rfl⟩

theorem step_requestVote_replies (htype : msg.type = .requestVote) (h : r.step msg = some r') :
    Replies .requestVoteResp msg r r' ∧ r'.log = r.log := by
  obtain ⟨r₁, hr₁, h⟩ := Option.bind_eq_some_iff.mp h
  have hsame : r₁.msgs = r.msgs ∧ r₁.log = r.log := by
    rcases observeTerm_cases hr₁ with rfl | ⟨-, leaderID, rfl⟩ <;> exact ⟨rfl, rfl⟩
  simp only [handle, htype] at h
  cases h
  constructor
  · obtain ⟨m, hm, hkind⟩ := handleRequestVote_replies r₁ msg
    exact ⟨m, hsame.1 ▸ hm, hkind⟩
  · obtain ⟨votedFor, electionElapsed, msgs, hframe⟩ := handleRequestVote_frame r₁ msg
    rw [hframe]
    exact hsame.2

theorem replicate_replies {reply : Message} (h : r.replicate reply msg = some r') :
    ∃ m, r'.msgs = r.msgs ++ [m] ∧ m.type = reply.type ∧ m.recipient = reply.recipient := by
  by_cases hpasses : r.passes msg
  · rw [replicate_takes hpasses] at h
    obtain ⟨log, -, rfl⟩ := Option.map_eq_some_iff.mp h
    rw [followCommit_eq]
    exact ⟨_, rfl, rfl, rfl⟩
  · rw [replicate_refuses hpasses] at h
    cases h
    exact ⟨_, rfl, rfl, rfl⟩

theorem step_appendEntries_replies (htype : msg.type = .appendEntries)
    (h : r.step msg = some r') : Replies .appendEntriesResp msg r r' := by
  rcases step_appendEntries_cases htype h with ⟨-, rfl⟩ | ⟨-, h⟩
  · exact ⟨_, rfl, rfl, rfl⟩
  · obtain ⟨m, hm, hkind⟩ := replicate_replies h
    rw [(following_frame r msg).2.2.2] at hm
    exact ⟨m, hm, hkind⟩

/-- What the calls do that answer nobody: they number what they append, and all they put
into an empty outbox are requests. -/
structure Asks (r r' : Raft) : Prop where
  indexed : Indexed r.log → Indexed r'.log
  requests : r.msgs = [] → ∀ m ∈ r'.msgs, m.isRequest = true

theorem Moves.asks {inbox : Message → Prop} {clock : Nat → Prop}
    (hinbox : ∀ m, inbox m → m.isRequest = false) (hmoves : Moves inbox clock r r') :
    Asks r r' where
  indexed := by
    apply hmoves.indexed
    intro m hm htype
    have := hinbox m hm
    simp [Message.isRequest, htype] at this
  requests := by
    intro hempty m hm
    obtain ⟨-, -, hkind⟩ := (hmoves.sends hempty).2.2 m hm
    rcases hkind with ⟨hrequest, -⟩ | ⟨-, msg, hin, hanswers⟩
    · exact hrequest
    · have hresp := hinbox msg hin
      rw [isRequest_of_type (hanswers.type.imp And.left And.left)] at hresp
      cases hresp

theorem step_asks (hresp : msg.isRequest = false) (h : r.step msg = some r') : Asks r r' := by
  rcases step_cases h with ⟨-, hreal⟩ | ⟨-, htype, -⟩ | ⟨-, -, rfl | ⟨-, hpre⟩⟩
  · have hmoves : Moves (fun m => m = { msg with isPreVote := false }) (fun _ => True) r r' :=
      step_moves rfl rfl hreal
    apply hmoves.asks
    rintro m rfl
    exact hresp
  · rw [isRequest_of_type (.inl htype)] at hresp
    cases hresp
  · exact ⟨fun hlog => hlog, fun hempty m hm => by simp [hempty] at hm⟩
  · obtain ⟨tally, preVotes, -, -, ⟨-, hcand⟩ | ⟨-, rfl⟩⟩ := handlePreVoteResp_cases hpre
    · have hmoves : Moves (fun _ => False) (fun _ => True) _ r' := becomeCandidate_moves hcand
      have hasks := hmoves.asks fun _ hno => hno.elim
      exact ⟨hasks.indexed, hasks.requests⟩
    · exact ⟨fun hlog => hlog, fun hempty m hm => by simp [hempty] at hm⟩

end Raft

namespace Node

variable {env : Env} {cfg : NodeConfig} {store : Store} {n n' : Node} {input : Input}
  {saved : Bool} {out : List Message} {r : Raft}

/-- A node between two handlers. -/
structure Ready (n : Node) : Prop where
  drained : n.raft.msgs = []
  log : Indexed n.raft.log
  equipped : n.raft.Equipped
  proposals : n.proposals.table.isSome = true
  peerAddrs : n.peerAddrs.table.isSome = true

theorem newNode_ready (hlog : Indexed store.loadLog) (h : newNode env cfg store = some n) :
    n.Ready := by
  obtain ⟨raft, hraft, h⟩ := Option.bind_eq_some_iff.mp h
  cases h
  obtain ⟨rand, hbase, rfl⟩ := newRaft_eq hraft
  exact ⟨rfl, hlog, .of_follower hbase rfl, rfl, rfl⟩

theorem foldl_applyEntry_proposals (entries : List LogEntry) (n : Node)
    (h : n.proposals.table.isSome = true) :
    (entries.foldl (applyEntry env) n).proposals.table.isSome = true := by
  induction entries generalizing n with
  | nil => exact h
  | cons entry rest ih =>
    apply ih
    unfold applyEntry
    simp only
    split
    · exact h
    · simp [GoMap.delete, h]

theorem act_of_performs (env : Env) (hproposals : n.proposals.table.isSome = true)
    (haddrs : n.peerAddrs.table.isSome = true) (h : n.Performs input r) :
    ∃ n', n.act env input = some n' ∧ n'.proposals.table.isSome = true ∧
      n'.peerAddrs.table.isSome = true := by
  have happly : ∀ r : Raft,
      (applyCommitted env { n with raft := r }).proposals.table.isSome = true ∧
        (applyCommitted env { n with raft := r }).peerAddrs.table.isSome = true := by
    intro r
    refine ⟨foldl_applyEntry_proposals _ _ hproposals, ?_⟩
    rw [(applyCommitted_frame env { n with raft := r }).2.2.2.1]
    exact haddrs
  cases h with
  | tick htick =>
    refine ⟨_, ?_, happly r⟩
    rw [act, htick]
    rfl
  | @propose data index _ hpropose =>
    cases index with
    | none =>
      refine ⟨{ n with raft := r }, ?_, hproposals, haddrs⟩
      rw [act, register, hpropose]
      rfl
    | some idx =>
      obtain ⟨proposals, hwrite, hmade⟩ := GoMap.write_of_made hproposals idx n.calls.length
      refine ⟨{ n with
        raft := r, proposals
        calls := n.calls ++ [{ index := idx, term := r.currentTerm, data }] }, ?_, hmade, haddrs⟩
      rw [act, register, hpropose]
      simp only [Option.bind_eq_bind, Option.bind_some, hwrite]
      rfl
  | step hm hstep =>
    cases input with
    | request msg =>
      cases hm
      rw [act, hstep, Option.bind_eq_bind, Option.bind_some]
      split
      · exact ⟨_, rfl, happly r⟩
      · exact ⟨_, rfl, hproposals, haddrs⟩
    | response msg =>
      cases hm
      rw [act, hstep, Option.bind_eq_bind, Option.bind_some]
      split
      · exact ⟨_, rfl, happly r⟩
      · exact ⟨_, rfl, hproposals, haddrs⟩
    | tick | propose data | join nodeID raftAddr => cases hm
  | @join nodeID raftAddr =>
    obtain ⟨peerAddrs, hwrite, hmade⟩ := GoMap.write_of_made haddrs nodeID raftAddr
    refine ⟨{ n with raft := n.raft.addPeer nodeID, peerAddrs }, ?_, hproposals, hmade⟩
    rw [act, setPeerAddr]
    simp only [hwrite]
    rfl

theorem release_ready (saved : Bool) (hlog : Indexed n.raft.log) (hequipped : n.raft.Equipped)
    (hproposals : n.proposals.table.isSome = true) (haddrs : n.peerAddrs.table.isSome = true) :
    (n.release saved).1.Ready ∧ (n.release saved).2 = n.raft.msgs := by
  have hdrained : Equipped { n.raft with msgs := [] } :=
    ⟨hequipped.base, hequipped.votes, hequipped.cursors⟩
  cases saved <;> exact ⟨⟨rfl, hlog, hdrained, hproposals, haddrs⟩, rfl⟩

theorem serve_ready (env : Env) (saved : Bool) (h : n.Ready)
    (hindexed : ∀ r, n.Performs input r → Indexed r.log) :
    ∃ n' out, n.serve env input saved = some (n', out) ∧ n'.Ready ∧
      (n.declines input = true ∧ out = [] ∨ ∃ r, n.Performs input r ∧ out = r.msgs) := by
  unfold serve
  split
  next hdeclines => exact ⟨n, [], rfl, h, .inl ⟨hdeclines, rfl⟩⟩
  next =>
    obtain ⟨r₀, hr₀⟩ := n.performs h.log h.equipped input
    obtain ⟨n₁, hact, hproposals, haddrs⟩ :=
      act_of_performs env h.proposals h.peerAddrs hr₀
    obtain ⟨r, lastApplied, hperforms, hraft, -⟩ := act_performs hact
    have hlog : Indexed n₁.raft.log := by
      rw [hraft]
      exact hindexed r hperforms
    obtain ⟨hready, hout⟩ := release_ready saved hlog
      (act_equipped h.log h.equipped hact) hproposals haddrs
    refine ⟨(n₁.release saved).1, (n₁.release saved).2, ?_, hready, .inr ⟨r, hperforms, ?_⟩⟩
    · rw [hact]
      rfl
    · rw [hout, hraft]

theorem Performs.asks (h : n.Performs input r)
    (hresp : ∀ m, input.stepped n.id = some m → m.isRequest = false) : Asks n.raft r := by
  cases h with
  | tick htick =>
    have hmoves : Moves (fun _ => False) (fun _ => True) n.raft r := tick_moves trivial htick
    exact hmoves.asks fun _ hno => hno.elim
  | propose hpropose =>
    have hmoves : Moves (fun _ => False) (fun _ => True) n.raft r := propose_moves hpropose
    exact hmoves.asks fun _ hno => hno.elim
  | step hm hstep => exact step_asks (hresp _ hm) hstep
  | @join nodeID =>
    rw [(addPeer_frame n.raft nodeID).1]
    exact ⟨fun hlog => hlog, fun hempty m hm => by simp [hempty] at hm⟩

theorem serve_dispatched (h : n.Ready)
    (hresp : ∀ m, input.stepped n.id = some m → m.isRequest = false) :
    ∃ handled, (n.serve env input saved).map dispatched = some handled ∧ handled.node.Ready ∧
      (∀ m ∈ handled.routed, m.isRequest = true) ∧ handled.returned = none := by
  have hasks : ∀ r, n.Performs input r → Asks n.raft r := fun r hr => hr.asks hresp
  obtain ⟨n', out, hserve, hready, hout⟩ :=
    serve_ready env saved h fun r hr => (hasks r hr).indexed h.log
  refine ⟨_, by rw [hserve]; rfl, hready, ?_, rfl⟩
  change ∀ m ∈ out, m.isRequest = true
  rcases hout with ⟨-, rfl⟩ | ⟨r, hperforms, rfl⟩
  · exact nofun
  · exact (hasks r hperforms).requests h.drained

/-- `handled` returns the reply that the step of `msg` has put into the outbox, where it is
alone. -/
def Returns (n : Node) (msg : Message) (kind : MessageType) (response : Message → Response)
    (handled : Handled) : Prop :=
  ∃ r m, n.raft.step msg = some r ∧ r.msgs = [m] ∧ m.type = kind ∧ m.recipient = msg.sender ∧
    handled.routed = [] ∧ handled.returned = some (.ok (response m))

theorem serve_replied (env : Env) (saved : Bool) (h : n.Ready) (msg : Message)
    (kind : MessageType) (response : Message → Response) (failure : String)
    (hreplies : ∀ r, n.raft.step (msg.received n.id) = some r →
      Replies kind (msg.received n.id) n.raft r ∧ Indexed r.log) :
    ∃ handled, (n.serve env (.request msg) saved).map
        (replied kind (msg.received n.id).sender response failure) = some handled ∧
      handled.node.Ready ∧ n.Returns (msg.received n.id) kind response handled := by
  have hstep : ∀ r, n.Performs (.request msg) r → n.raft.step (msg.received n.id) = some r := by
    intro r hr
    cases hr with
    | step hm hstep =>
      cases hm
      exact hstep
  obtain ⟨n', out, hserve, hready, hout⟩ :=
    serve_ready env saved h fun r hr => (hreplies r (hstep r hr)).2
  rcases hout with ⟨hno, -⟩ | ⟨r, hperforms, rfl⟩
  · cases hno
  · obtain ⟨⟨m, hmsgs, htype, hrecipient⟩, -⟩ := hreplies r (hstep r hperforms)
    rw [h.drained, List.nil_append] at hmsgs
    have hpick := pickReply_singleton htype hrecipient
    refine ⟨_, by rw [hserve]; rfl, hready, r, m, hstep r hperforms, hmsgs, htype, hrecipient,
      ?_, ?_⟩
    · simp only [replied, hmsgs, hpick]
    · simp only [replied, hmsgs, hpick]

def Replied (n : Node) (handled : Handled) : Handler → Prop
  | .appendEntries req => n.Returns ({ req with type := .appendEntries }.received n.id)
      .appendEntriesResp Message.appendEntriesResponse handled
  | .requestVote req => n.Returns ({ req with type := .requestVote }.received n.id)
      .requestVoteResp Message.requestVoteResponse handled
  | _ => handled.returned = none

theorem attend_ready (env : Env) (saved : Bool) (h : n.Ready) {handler : Handler}
    (hadmits : n.Admits handler) :
    ∃ handled, n.attend env saved handler = some handled ∧ handled.node.Ready ∧
      (∀ m ∈ handled.routed, m.isRequest = true) ∧ n.Replied handled handler := by
  have hreplied : ∀ {msg : Message} {kind : MessageType} {response : Message → Response}
      {handled : Handled}, n.Returns msg kind response handled →
        ∀ m ∈ handled.routed, m.isRequest = true := by
    rintro msg kind response handled ⟨r, reply, -, -, -, -, hrouted, -⟩ m hm
    rw [hrouted] at hm
    cases hm
  have hanswered : ∀ (req resp m : Message),
      (Input.response (req.answered resp)).stepped n.id = some m → m.isRequest = false := by
    rintro req resp m hm
    cases hm
    exact req.answered_isRequest resp
  cases handler with
  | tick => exact serve_dispatched h nofun
  | propose data => exact serve_dispatched h nofun
  | join nodeID raftAddr => exact serve_dispatched h nofun
  | appendEntriesSent req resp => exact serve_dispatched h (hanswered _ resp)
  | requestVoteSent req resp => exact serve_dispatched h (hanswered _ resp)
  | read key => exact ⟨_, rfl, h, nofun, rfl⟩
  | leave nodeID => exact ⟨_, rfl, h, nofun, rfl⟩
  | appendEntries req =>
    obtain ⟨handled, hattend, hready, hreturns⟩ := serve_replied env saved h
      { req with type := .appendEntries } .appendEntriesResp Message.appendEntriesResponse
      "node: no response generated for AppendEntries" fun r hstep => by
        refine ⟨step_appendEntries_replies rfl hstep, ?_⟩
        refine step_appendEntries_indexed rfl h.log ?_ hstep
        exact hadmits
    exact ⟨handled, hattend, hready, hreplied hreturns, hreturns⟩
  | requestVote req =>
    obtain ⟨handled, hattend, hready, hreturns⟩ := serve_replied env saved h
      { req with type := .requestVote } .requestVoteResp Message.requestVoteResponse
      "node: no response generated for RequestVote" fun r hstep => by
        obtain ⟨hreplies, hlog⟩ := step_requestVote_replies rfl hstep
        exact ⟨hreplies, hlog ▸ h.log⟩
    exact ⟨handled, hattend, hready, hreplied hreturns, hreturns⟩

theorem Attended.ready (hlog : Indexed store.loadLog)
    (h : Attended env cfg store (fun n event => n.Admits event.1) n) : n.Ready := by
  induction h with
  | start hnew => exact newNode_ready hlog hnew
  | @step n₁ n₂ event _ hadmits hstep ih =>
    obtain ⟨handled, hattend, hready, -⟩ :=
      attend_ready env event.2 ih hadmits
    rw [hattend] at hstep
    cases hstep
    exact hready

end Node

/-- Every handler returns. It leaves the outbox empty, routes requests only, and as one of the
consensus RPCs returns the one reply that its own request has produced. -/
theorem every_request_gets_its_reply {env : Env} {cfg : NodeConfig} {store : Store} {n : Node}
    (hlog : Indexed store.loadLog)
    (hrun : Node.Attended env cfg store (fun n event => n.Admits event.1) n)
    (handler : Handler) (hadmits : n.Admits handler) (saved : Bool) :
    n.raft.msgs = [] ∧ ∃ handled, n.attend env saved handler = some handled ∧
      handled.node.raft.msgs = [] ∧ (∀ m ∈ handled.routed, routeMessage m ≠ .unroutable) ∧
      n.Replied handled handler := by
  have hready := hrun.ready hlog
  obtain ⟨handled, hattend, hdone, hrequests, hreplied⟩ :=
    Node.attend_ready env saved hready hadmits
  exact ⟨hready.drained, handled, hattend, hdone.drained,
    fun m hm => routeMessage_of_isRequest (hrequests m hm), hreplied⟩

def forged (prevLogIndex index term : Nat) : Message :=
  { type := .appendEntries, sender := "a", recipient := "b", term := 1, prevLogIndex
    entries := [{ index, term }] }

/-- A candidate that hears of a leader of its term, after it has asked for votes itself. -/
theorem every_request_gets_its_reply_candidate :
    ∃ n, Node.Attended (mesh ["a", "b", "c"] 1 1).env ballotBox {}
        (fun n event => n.Admits event.1) n ∧ n.raft.state = .candidate ∧
      ∃ handled, n.attend (mesh ["a", "b", "c"] 1 1).env true (.appendEntries (forged 0 1 1)) =
        some handled ∧ handled.node.raft.msgs = [] ∧
        (∀ m ∈ handled.routed, routeMessage m ≠ .unroutable) ∧
        n.Replied handled (.appendEntries (forged 0 1 1)) := by
  obtain ⟨n, hrun, hstate⟩ :
      ∃ n, Node.Attended (mesh ["a", "b", "c"] 1 1).env ballotBox {}
          (fun n event => n.Admits event.1) n ∧
        n.raft.state = .candidate :=
    Reachable.of_any [(.tick, true)] rfl
  have hempty : Indexed ({} : Store).loadLog := Indexed.nil
  refine ⟨n, hrun, hstate, (every_request_gets_its_reply hempty hrun _ ?_ true).2⟩
  exact fun _ _ => by decide

/-- An entry numbered 1000 in an empty log lets the next request pass a check at 500, and
cutting the log there is out of range: the handler never returns. -/
theorem forged_entries_stop_the_node :
    ∃ n, Node.Attended (mesh ["a", "b", "c"] 1 1).env ballotBox {} (fun _ _ => True) n ∧
      (n.attend (mesh ["a", "b", "c"] 1 1).env true
        (.appendEntries (forged 500 501 5))).isNone = true :=
  Reachable.of_any [(.appendEntries (forged 0 1000 1), true)] rfl

end Phalanx
