import Mathlib.Logic.Relation
import Phalanx.Raft.Machine

/-! What a Raft instance can do, in moves small enough that each changes the state
in one way. `Tick`, `Propose` and `Step` on a message that is no pre-vote are
sequences of moves, so an invariant of a cluster is checked against the moves and
not against the handlers. `inbox` holds the messages that the instance may be
stepped with, and `clock` the terms in which its election clock may tick. -/
namespace Phalanx

open Go

namespace Raft

/-- A call of `becomeCandidate` before it looks for a quorum. -/
def candidacy (r : Raft) : Raft :=
  { r with
    state := .candidate
    currentTerm := succ64 r.currentTerm
    votedFor := r.id
    leaderID := None
    votes := ⟨some (Finmap.insert r.id true ∅)⟩
    electionElapsed := 0 }.redraw

/-- A call of `becomeLeader` before it broadcasts. -/
def crowned (r : Raft) : Raft :=
  { r with
    state := .leader
    leaderID := r.id
    heartbeatElapsed := 0
    heartbeatAcked := 1
    nextIndex := initialCursors r.peers (r.lastLogIndex + 1)
    matchIndex := initialCursors r.peers 0
    log := r.log ++ [{ index := r.lastLogIndex + 1, term := r.currentTerm }] }

/-- A call of `becomeFollower` that finds a timeout to draw from. -/
def demoted (r : Raft) (term : Nat) (leaderID : String) : Raft :=
  { r with
    state := .follower
    currentTerm := term
    votedFor := None
    leaderID := leaderID
    leaderActive := leaderID ≠ None
    electionElapsed := 0 }.redraw

/-- What a valid AppendEntries does before its entries are looked at. -/
def heeding (r : Raft) (msg : Message) : Raft :=
  if r.state = .follower then
    { r with electionElapsed := 0, leaderID := msg.sender, leaderActive := true }
  else r.demoted msg.term msg.sender

/-- What an AppendEntries that passes the consistency check does, given the log it
leaves. -/
def accepting (r : Raft) (msg : Message) (log : List LogEntry) : Raft :=
  let r' := { r with log }.followCommit msg
  r'.send { type := .appendEntriesResp, sender := r.id, recipient := msg.sender,
            term := r.currentTerm, index := r'.lastLogIndex }

def passes (r : Raft) (msg : Message) : Prop :=
  msg.prevLogIndex = 0 ∨
    msg.prevLogIndex ≤ r.lastLogIndex ∧ r.logTerm msg.prevLogIndex = msg.prevLogTerm

instance (r : Raft) (msg : Message) : Decidable (r.passes msg) :=
  inferInstanceAs (Decidable (_ ∨ _))

section Relation

variable (inbox : Message → Prop) (clock : Nat → Prop)

inductive Move : Raft → Raft → Prop
  | wait (r : Raft) (hstate : r.state ≠ .leader) (hclock : clock r.currentTerm)
      (hearly : r.electionElapsed + 1 < r.electionTimeout) :
      Move r { r with electionElapsed := r.electionElapsed + 1 }
  | stand (r : Raft) (hstate : r.state ≠ .leader) (hclock : clock r.currentTerm)
      (hdue : r.electionTimeout ≤ r.electionElapsed + 1) :
      Move r { r with electionElapsed := 0, leaderActive := false }.candidacy
  | canvass (r : Raft) (hstate : r.state = .candidate) : Move r r.broadcastRequestVote
  | win (r : Raft) (hstate : r.state = .candidate) (hquorum : r.quorum = true) :
      Move r r.crowned
  | beat (r : Raft) (elapsed acked : Int) (hstate : r.state = .leader)
      (hclock : clock r.currentTerm) :
      Move r { r with heartbeatElapsed := elapsed, heartbeatAcked := acked }
  | count (r : Raft) (msg : Message) (hin : inbox msg) (htype : msg.type = .appendEntriesResp)
      (hstate : r.state = .leader) :
      Move r { r with heartbeatAcked := r.heartbeatAcked + 1 }
  | broadcast (r r' : Raft) (hstate : r.state = .leader) (h : r.broadcastHeartbeat = some r') :
      Move r r'
  | observe (r : Raft) (msg : Message) (hin : inbox msg) (hterm : r.currentTerm < msg.term) :
      Move r (r.demoted msg.term (if msg.type = .appendEntries then msg.sender else None))
  | refuse (r : Raft) (msg reply : Message) (hin : inbox msg) (hsender : reply.sender = r.id)
      (hrecipient : reply.recipient = msg.sender) (hterm : reply.term = r.currentTerm)
      (htype : msg.type = .requestVote ∧ reply.type = .requestVoteResp ∨
        msg.type = .appendEntries ∧ reply.type = .appendEntriesResp)
      (hreal : reply.isPreVote = false) (hreject : reply.reject = true) :
      Move r (r.send reply)
  | grant (r : Raft) (msg : Message) (hin : inbox msg) (htype : msg.type = .requestVote)
      (hterm : msg.term = r.currentTerm) (hidle : r.leaderActive = false)
      (hvote : r.votedFor = None ∨ r.votedFor = msg.sender)
      (hlog : r.isLogUpToDate msg.lastLogIndex msg.lastLogTerm = true) :
      Move r ({ r with votedFor := msg.sender, electionElapsed := 0 }.send
        { type := .requestVoteResp, sender := r.id, recipient := msg.sender,
          term := r.currentTerm })
  | tally (r : Raft) (msg : Message) (votes : GoMap String Bool) (hin : inbox msg)
      (htype : msg.type = .requestVoteResp) (hstate : r.state = .candidate)
      (hterm : msg.term = r.currentTerm)
      (hvotes : r.votes.write msg.sender (!msg.reject) = some votes) :
      Move r { r with votes }
  | heed (r : Raft) (msg : Message) (hin : inbox msg) (htype : msg.type = .appendEntries)
      (hterm : msg.term = r.currentTerm) : Move r (r.heeding msg)
  | accept (r : Raft) (msg : Message) (log : List LogEntry) (hin : inbox msg)
      (htype : msg.type = .appendEntries) (hterm : msg.term = r.currentTerm)
      (hstate : r.state = .follower) (hactive : msg.sender ≠ None → r.leaderActive = true)
      (hpasses : r.passes msg)
      (hlog : r.appendLoop (msg.prevLogIndex + 1) msg.entries = some log) :
      Move r (r.accepting msg log)
  | aim (r : Raft) (peer : String) (next : Nat) (nextIndex : GoMap String Nat)
      (hstate : r.state = .leader) (hpos : 0 < next)
      (hnext : r.nextIndex.write peer next = some nextIndex) :
      Move r { r with nextIndex }
  | matched (r : Raft) (msg : Message) (matchIndex : GoMap String Nat) (hin : inbox msg)
      (htype : msg.type = .appendEntriesResp) (hstate : r.state = .leader)
      (hterm : msg.term = r.currentTerm) (hreject : msg.reject = false) (hpos : 0 < msg.index)
      (hmatch : r.matchIndex.write msg.sender msg.index = some matchIndex) :
      Move r { r with matchIndex }
  | advance (r : Raft) (msg : Message) (n : Nat) (hin : inbox msg)
      (htype : msg.type = .appendEntriesResp) (hstate : r.state = .leader) (hn : r.commitIndex < n)
      (hlast : n ≤ r.lastLogIndex) (hterm : r.logTerm n = r.currentTerm)
      (hquorum : r.quorumSize ≤
        1 + (r.peers.filter fun peer => n ≤ r.matchIndex.read peer).length) :
      Move r { r with commitIndex := n }
  | extend (r : Raft) (data : List UInt8) (matchIndex : GoMap String Nat)
      (hstate : r.state = .leader)
      (hmatch : ∀ peer, peer ≠ r.id → matchIndex.read peer = r.matchIndex.read peer) :
      Move r { r with
        log := r.log ++ [{ index := r.lastLogIndex + 1, term := r.currentTerm, data }]
        matchIndex }

abbrev Moves : Raft → Raft → Prop := Relation.ReflTransGen (Move inbox clock)

end Relation

variable {inbox : Message → Prop} {clock : Nat → Prop} {r r' : Raft} {msg : Message}

theorem followCommit_eq (r : Raft) (msg : Message) :
    r.followCommit msg = { r with commitIndex := (r.followCommit msg).commitIndex } := by
  unfold followCommit
  split <;> rfl

theorem commitIndex_followCommit (r : Raft) (msg : Message) :
    (r.followCommit msg).commitIndex =
      if r.commitIndex < msg.leaderCommit then
        min msg.leaderCommit (msg.prevLogIndex + msg.entries.length)
      else r.commitIndex := by
  unfold followCommit
  split
  · simp only
    split <;> omega
  · rfl

theorem accepting_eq (r : Raft) (msg : Message) (log : List LogEntry) :
    r.accepting msg log =
      { r with
        log
        commitIndex := (followCommit { r with log } msg).commitIndex
        msgs := r.msgs ++
          [{ type := .appendEntriesResp, sender := r.id, recipient := msg.sender,
             term := r.currentTerm, index := lastIndexOf log }] } := by
  unfold accepting followCommit
  split <;> rfl

theorem exists_of_mem_mapM {α β : Type} {f : α → Option β} {l : List α} {out : List β}
    (h : l.mapM f = some out) {b : β} (hb : b ∈ out) : ∃ a ∈ l, f a = some b := by
  induction l generalizing out with
  | nil =>
    rw [List.mapM_nil] at h
    cases h
    cases hb
  | cons a rest ih =>
    rw [List.mapM_cons] at h
    obtain ⟨x, hx, h⟩ := Option.bind_eq_some_iff.mp h
    obtain ⟨xs, hxs, h⟩ := Option.bind_eq_some_iff.mp h
    cases h
    cases hb with
    | head => exact ⟨a, List.mem_cons_self, hx⟩
    | tail _ hmem =>
      obtain ⟨a', ha', hf⟩ := ih hxs hmem
      exact ⟨a', List.mem_cons_of_mem a ha', hf⟩

theorem initialCursors_lookup (peers : List String) (cursor : Nat) (peer : String) :
    (initialCursors peers cursor).lookup peer = if peer ∈ peers then some cursor else none := by
  have hfold : ∀ (peers : List String) (table : Finmap fun _ : String => Nat),
      (peers.foldl (fun table peer => table.insert peer cursor) table).lookup peer =
        if peer ∈ peers then some cursor else table.lookup peer := by
    intro peers
    induction peers with
    | nil =>
      intro table
      simp
    | cons p rest ih =>
      intro table
      rw [List.foldl_cons, ih]
      by_cases heq : peer = p
      · subst heq
        simp
      · simp [heq, Finmap.lookup_insert_of_ne table heq]
  unfold initialCursors GoMap.lookup
  rw [Option.bind_some, hfold]
  rfl

theorem initialCursors_read (peers : List String) (cursor : Nat) {peer : String}
    (hpeer : peer ∈ peers) : (initialCursors peers cursor).read peer = cursor := by
  rw [GoMap.read, initialCursors_lookup, if_pos hpeer]
  rfl

theorem initialCursors_le (peers : List String) (cursor : Nat) (peer : String) :
    (initialCursors peers cursor).read peer ≤ cursor := by
  rw [GoMap.read, initialCursors_lookup]
  split
  · exact le_rfl
  · exact Nat.zero_le _

theorem appendEntriesFor_eq {peer : String} {m : Message}
    (h : r.appendEntriesFor peer = some m) :
    ∃ entries, m =
      { type := .appendEntries, sender := r.id, recipient := peer, term := r.currentTerm,
        prevLogIndex := pred64 (r.nextIndex.read peer)
        prevLogTerm := r.logTerm (pred64 (r.nextIndex.read peer)), entries,
        leaderCommit := r.commitIndex } := by
  unfold appendEntriesFor at h
  simp only at h
  split at h
  · split at h
    · cases h
      exact ⟨_, rfl⟩
    · cases h
  · cases h
    exact ⟨_, rfl⟩

theorem broadcastHeartbeat_eq (h : r.broadcastHeartbeat = some r') :
    ∃ out, r.peers.mapM r.appendEntriesFor = some out ∧ r' = { r with msgs := r.msgs ++ out } := by
  obtain ⟨out, hout, h⟩ := Option.bind_eq_some_iff.mp h
  cases h
  exact ⟨out, hout, rfl⟩

theorem becomeFollower_eq_some {term : Nat} {leaderID : String}
    (h : r.becomeFollower term leaderID = some r') : r' = r.demoted term leaderID := by
  unfold becomeFollower resetElectionTimeout at h
  split at h
  · exact (Option.some.inj h).symm
  · cases h

theorem becomeLeader_moves (hstate : r.state = .candidate) (hquorum : r.quorum = true)
    (h : r.becomeLeader = some r') : Moves inbox clock r r' :=
  .tail (.single (.win r hstate hquorum)) (.broadcast _ _ rfl h)

theorem becomeCandidate_eq (r : Raft) :
    r.becomeCandidate =
      if 0 < r.baseElectionTimeout then
        if r.candidacy.quorum then r.candidacy.becomeLeader
        else some r.candidacy.broadcastRequestVote
      else none := by
  unfold becomeCandidate
  rw [GoMap.write_make]
  simp only [resetElectionTimeout, Option.bind_eq_bind, Option.bind_some]
  split <;> rfl

theorem becomeCandidate_cases (h : r.becomeCandidate = some r') :
    (r.candidacy.quorum = true ∧ r.candidacy.becomeLeader = some r') ∨
      (r.candidacy.quorum = false ∧ r' = r.candidacy.broadcastRequestVote) := by
  rw [becomeCandidate_eq] at h
  split at h
  · split at h
    next hquorum => exact .inl ⟨hquorum, h⟩
    next hquorum => exact .inr ⟨eq_false_of_ne_true hquorum, (Option.some.inj h).symm⟩
  · cases h

theorem candidacy_no_quorum (r : Raft) (hpeers : r.peers ≠ []) : r.candidacy.quorum = false := by
  have hkeys : r.candidacy.votes.trueKeys ⊆ {r.id} := by
    intro q hq
    change q ∈ (GoMap.mk (some (Finmap.insert r.id true ∅))).trueKeys at hq
    rw [GoMap.mem_trueKeys, GoMap.lookup_write (GoMap.write_make r.id true)] at hq
    by_contra hne
    rw [if_neg (by simpa using hne), GoMap.lookup_make] at hq
    cases hq
  have hcard := Finset.card_le_card hkeys
  have hlen := List.length_pos_iff.mpr hpeers
  rw [Finset.card_singleton] at hcard
  apply decide_eq_false
  unfold quorumSize clusterSize
  change ¬ (r.peers.length + 1) / 2 + 1 ≤ _
  omega

theorem becomeCandidate_moves (h : r.becomeCandidate = some r') :
    Moves inbox clock r.candidacy r' := by
  rcases becomeCandidate_cases h with ⟨hquorum, hlead⟩ | ⟨-, rfl⟩
  · exact becomeLeader_moves rfl hquorum hlead
  · exact .single (.canvass r.candidacy rfl)

theorem tickElection_cases (h : r.tickElection = some r') :
    (r.electionElapsed + 1 < r.electionTimeout ∧
      r' = { r with electionElapsed := r.electionElapsed + 1 }) ∨
    (r.electionTimeout ≤ r.electionElapsed + 1 ∧
      { r with electionElapsed := 0, leaderActive := false }.becomeCandidate = some r') := by
  unfold tickElection at h
  simp only at h
  split at h
  next hdue => exact .inr ⟨hdue, h⟩
  next hearly =>
    cases h
    exact .inl ⟨by omega, rfl⟩

theorem tick_cases (h : r.tick = some r') :
    (r.state = .leader ∧ r.tickHeartbeat = some r') ∨
      (r.state ≠ .leader ∧ r.tickElection = some r') := by
  unfold tick at h
  split at h
  next hstate => exact .inr ⟨by simp [hstate], h⟩
  next hstate => exact .inr ⟨by simp [hstate], h⟩
  next hstate => exact .inl ⟨hstate, h⟩

theorem tickHeartbeat_frame (h : r.tickHeartbeat = some r') :
    ∃ heartbeatElapsed heartbeatAcked msgs,
      r' = { r with heartbeatElapsed, heartbeatAcked, msgs } := by
  unfold tickHeartbeat at h
  simp only at h
  split at h
  · obtain ⟨out, -, rfl⟩ := broadcastHeartbeat_eq h
    exact ⟨_, _, _, rfl⟩
  · cases h
    exact ⟨_, _, _, rfl⟩

theorem tick_moves (hclock : clock r.currentTerm) (h : r.tick = some r') :
    Moves inbox clock r r' := by
  rcases tick_cases h with ⟨hstate, h⟩ | ⟨hstate, h⟩
  · unfold tickHeartbeat at h
    simp only at h
    split at h
    next => exact .tail (.single (.beat r 0 1 hstate hclock)) (.broadcast _ _ hstate h)
    next =>
      cases h
      exact .single (.beat r (r.heartbeatElapsed + 1) r.heartbeatAcked hstate hclock)
  · rcases tickElection_cases h with ⟨hearly, rfl⟩ | ⟨hdue, h⟩
    · exact .single (.wait r hstate hclock hearly)
    · exact .head (.stand r hstate hclock hdue) (becomeCandidate_moves h)

theorem propose_cases {data : List UInt8} {index : Option Nat}
    (h : r.propose data = some (index, r')) :
    (index = none ∧ r' = r) ∨
    (r.state = .leader ∧ index = some (r.lastLogIndex + 1) ∧ ∃ matchIndex : GoMap String Nat,
      (∀ peer, peer ≠ r.id → matchIndex.read peer = r.matchIndex.read peer) ∧
      broadcastHeartbeat { r with
        log := r.log ++ [{ index := r.lastLogIndex + 1, term := r.currentTerm, data }]
        matchIndex } = some r') := by
  unfold propose at h
  split at h
  · cases h
    exact .inl ⟨rfl, rfl⟩
  next hstate =>
    simp only [ne_eq, Decidable.not_not] at hstate
    simp only at h
    split at h
    next =>
      rw [Option.bind_eq_bind, Option.bind_some] at h
      obtain ⟨r₁, hcast, h⟩ := Option.bind_eq_some_iff.mp h
      cases h
      exact .inr ⟨hstate, rfl, r.matchIndex, fun _ _ => rfl, hcast⟩
    next =>
      obtain ⟨matchIndex, hmatch, h⟩ := Option.bind_eq_some_iff.mp h
      obtain ⟨r₁, hcast, h⟩ := Option.bind_eq_some_iff.mp h
      cases h
      refine .inr ⟨hstate, rfl, matchIndex, ?_, hcast⟩
      intro peer hpeer
      rw [GoMap.read_write hmatch, if_neg hpeer]

theorem propose_moves {data : List UInt8} {index : Option Nat}
    (h : r.propose data = some (index, r')) : Moves inbox clock r r' := by
  rcases propose_cases h with ⟨-, rfl⟩ | ⟨hstate, -, matchIndex, hmatch, hcast⟩
  · exact .refl
  · exact .tail (.single (.extend r data matchIndex hstate hmatch)) (.broadcast _ _ hstate hcast)

theorem handleRequestVote_moves (hin : inbox msg) (htype : msg.type = .requestVote)
    (hreal : msg.isPreVote = false) (hterm : msg.term ≤ r.currentTerm) :
    Moves inbox clock r (r.handleRequestVote msg) := by
  have hrefuse : Move inbox clock r (r.send
      { type := .requestVoteResp, sender := r.id, recipient := msg.sender,
        term := r.currentTerm, reject := true }) :=
    .refuse r msg _ hin rfl rfl rfl (.inl ⟨htype, rfl⟩) rfl rfl
  unfold handleRequestVote
  simp only [hreal, Bool.false_eq_true, if_false]
  split
  next => exact .single hrefuse
  next hidle =>
    split
    next => exact .single hrefuse
    next hstale =>
      split
      next hgrant =>
        refine .single (.grant r msg hin htype (by omega) ?_ hgrant.1 hgrant.2)
        simpa [hterm] using hidle
      next => exact .single hrefuse

def preTally (r : Raft) : GoMap String Bool :=
  match r.preVotes.table with
  | none => ⟨some (Finmap.insert r.id true ∅)⟩
  | some _ => r.preVotes

theorem handlePreVoteResp_eq (r : Raft) (msg : Message) :
    r.handlePreVoteResp msg =
      (r.preTally.write msg.sender (!msg.reject)).bind fun preVotes =>
        if r.quorumSize ≤ preVotes.trueKeys.card then { r with preVotes }.becomeCandidate
        else some { r with preVotes } := by
  unfold handlePreVoteResp preTally
  cases r.preVotes.table with
  | none =>
    rw [GoMap.write_make]
    rfl
  | some table => rfl

theorem preTally_cases (r : Raft) :
    r.preTally = r.preVotes ∨ GoMap.make.write r.id true = some r.preTally := by
  unfold preTally
  split
  · exact .inr (GoMap.write_make _ _)
  · exact .inl rfl

theorem handlePreVoteResp_cases (h : r.handlePreVoteResp msg = some r') :
    ∃ tally preVotes : GoMap String Bool,
      (tally = r.preVotes ∨ GoMap.make.write r.id true = some tally) ∧
      tally.write msg.sender (!msg.reject) = some preVotes ∧
      (r.quorumSize ≤ preVotes.trueKeys.card ∧
          { r with preVotes }.becomeCandidate = some r' ∨
        preVotes.trueKeys.card < r.quorumSize ∧ r' = { r with preVotes }) := by
  rw [handlePreVoteResp_eq] at h
  obtain ⟨preVotes, hwrite, h⟩ := Option.bind_eq_some_iff.mp h
  refine ⟨r.preTally, preVotes, r.preTally_cases, hwrite, ?_⟩
  split at h
  next hquorum => exact .inl ⟨hquorum, h⟩
  next hfew =>
    cases h
    exact .inr ⟨Nat.lt_of_not_le hfew, rfl⟩

theorem handleRequestVoteResp_moves (hin : inbox msg) (htype : msg.type = .requestVoteResp)
    (hreal : msg.isPreVote = false) (h : r.handleRequestVoteResp msg = some r') :
    Moves inbox clock r r' := by
  unfold handleRequestVoteResp at h
  simp only [hreal, Bool.false_eq_true, if_false] at h
  split at h
  · cases h
    exact .refl
  next hstate =>
    simp only [ne_eq, Decidable.not_not] at hstate
    split at h
    · cases h
      exact .refl
    next hterm =>
      simp only [ne_eq, Decidable.not_not] at hterm
      obtain ⟨votes, hvotes, h⟩ := Option.bind_eq_some_iff.mp h
      have htally : Move inbox clock r { r with votes } :=
        .tally r msg votes hin htype hstate hterm hvotes
      split at h
      next hquorum => exact .head htally (becomeLeader_moves hstate hquorum h)
      next =>
        cases h
        exact .single htally

theorem replicate_moves {reply : Message} (hin : inbox msg) (htype : msg.type = .appendEntries)
    (hterm : msg.term = r.currentTerm) (hstate : r.state = .follower)
    (hactive : msg.sender ≠ None → r.leaderActive = true)
    (hreply : reply =
      { type := .appendEntriesResp, sender := r.id, recipient := msg.sender,
        term := r.currentTerm, reject := true })
    (h : r.replicate reply msg = some r') : Moves inbox clock r r' := by
  subst hreply
  unfold replicate at h
  split at h
  next =>
    cases h
    exact .single (.refuse r msg _ hin rfl rfl rfl (.inr ⟨htype, rfl⟩) rfl rfl)
  next hgap =>
    split at h
    next =>
      cases h
      exact .single (.refuse r msg _ hin rfl rfl rfl (.inr ⟨htype, rfl⟩) rfl rfl)
    next hconflict =>
      obtain ⟨log, hlog, h⟩ := Option.bind_eq_some_iff.mp h
      cases h
      refine .single (.accept r msg log hin htype hterm hstate hactive ?_ hlog)
      by_cases hzero : msg.prevLogIndex = 0
      · exact .inl hzero
      · simp only [not_and, not_lt, ne_eq, Decidable.not_not] at hgap hconflict
        exact .inr ⟨hgap (by omega), hconflict (by omega)⟩

theorem handleAppendEntries_moves (hin : inbox msg) (htype : msg.type = .appendEntries)
    (hterm : msg.term ≤ r.currentTerm) (h : r.handleAppendEntries msg = some r') :
    Moves inbox clock r r' := by
  unfold handleAppendEntries at h
  simp only at h
  split at h
  next =>
    cases h
    exact .single (.refuse r msg _ hin rfl rfl rfl (.inr ⟨htype, rfl⟩) rfl rfl)
  next hstale =>
    have heq : msg.term = r.currentTerm := by omega
    refine .head (.heed r msg hin htype heq) ?_
    unfold heeding
    by_cases hstate : r.state = .follower
    · rw [if_neg (by simpa using hstate), Option.bind_eq_bind, Option.bind_some] at h
      rw [if_pos hstate]
      exact replicate_moves hin htype heq hstate (fun _ => rfl) rfl h
    · rw [if_pos (by simpa using hstate)] at h
      rw [if_neg hstate]
      obtain ⟨r₁, hr₁, h⟩ := Option.bind_eq_some_iff.mp h
      cases becomeFollower_eq_some hr₁
      refine replicate_moves hin htype rfl rfl ?_ rfl h
      intro hsender
      exact decide_eq_true hsender

theorem commitAt_moves {n : Nat} (hin : inbox msg) (htype : msg.type = .appendEntriesResp)
    (hstate : r.state = .leader) (hn : r.commitIndex < n) (hlast : n ≤ r.lastLogIndex) :
    Moves inbox clock r (r.commitAt n) := by
  unfold commitAt
  split
  next => exact .refl
  next hterm =>
    simp only [ne_eq, Decidable.not_not] at hterm
    split
    next hquorum => exact .single (.advance r msg n hin htype hstate hn hlast hterm hquorum)
    next => exact .refl

theorem commitAt_eq (r : Raft) (n : Nat) :
    r.commitAt n = r ∨ r.commitAt n = { r with commitIndex := n } := by
  unfold commitAt
  split
  · exact .inl rfl
  · split
    · exact .inr rfl
    · exact .inl rfl

theorem maybeAdvanceCommit_frame (r : Raft) :
    r.maybeAdvanceCommit = { r with commitIndex := r.maybeAdvanceCommit.commitIndex } := by
  have hfold : ∀ (l : List Nat) (r : Raft),
      l.foldl commitAt r = { r with commitIndex := (l.foldl commitAt r).commitIndex } := by
    intro l
    induction l with
    | nil => exact fun _ => rfl
    | cons n rest ih =>
      intro r
      rw [List.foldl_cons, ih]
      rcases commitAt_eq r n with heq | heq <;> rw [heq]
  exact hfold _ r

theorem foldl_commitAt_moves (hin : inbox msg) (htype : msg.type = .appendEntriesResp)
    (len : Nat) : ∀ (r : Raft) (k : Nat), r.state = .leader →
    r.commitIndex < k → k + len ≤ r.lastLogIndex + 1 →
    Moves inbox clock r ((List.range' k len).foldl commitAt r) := by
  induction len with
  | zero =>
    intro r k hstate hk hlen
    exact .refl
  | succ len ih =>
    intro r k hstate hk hlen
    rw [List.range'_succ, List.foldl_cons]
    refine .trans (commitAt_moves hin htype hstate hk (by omega)) ?_
    rcases commitAt_eq r k with heq | heq <;> rw [heq]
    · exact ih r (k + 1) hstate (by omega) (by omega)
    · exact ih _ (k + 1) hstate (Nat.lt_succ_self k)
        (show k + 1 + len ≤ r.lastLogIndex + 1 by omega)

theorem maybeAdvanceCommit_moves (hin : inbox msg) (htype : msg.type = .appendEntriesResp)
    (hstate : r.state = .leader) : Moves inbox clock r r.maybeAdvanceCommit := by
  unfold maybeAdvanceCommit
  by_cases hcommit : r.commitIndex ≤ r.lastLogIndex
  · exact foldl_commitAt_moves hin htype _ r _ hstate (Nat.lt_succ_self _) (by omega)
  · rw [show r.lastLogIndex - r.commitIndex = 0 by omega]
    exact .refl

theorem foldl_commitAt_covers (len : Nat) : ∀ (r : Raft) (k : Nat), r.commitIndex < k →
    r.commitIndex ≤ ((List.range' k len).foldl commitAt r).commitIndex ∧
    ∀ n, k ≤ n → n < k + len → r.logTerm n = r.currentTerm →
      r.quorumSize ≤ 1 + (r.peers.filter fun peer => n ≤ r.matchIndex.read peer).length →
      n ≤ ((List.range' k len).foldl commitAt r).commitIndex := by
  induction len with
  | zero =>
    intro r k _
    exact ⟨le_rfl, fun n hk hlt => by omega⟩
  | succ len ih =>
    intro r k hk
    rw [List.range'_succ, List.foldl_cons]
    have hnext : ∀ n, k ≤ n → n < k + (len + 1) → n = k ∨ k + 1 ≤ n ∧ n < k + 1 + len := by
      omega
    by_cases hcount : r.logTerm k = r.currentTerm ∧
        r.quorumSize ≤ 1 + (r.peers.filter fun peer => k ≤ r.matchIndex.read peer).length
    · have heq : r.commitAt k = { r with commitIndex := k } := by
        unfold commitAt
        rw [if_neg (by simpa using hcount.1), if_pos hcount.2]
      rw [heq]
      obtain ⟨hle, hcovers⟩ := ih { r with commitIndex := k } (k + 1) (Nat.lt_succ_self k)
      refine ⟨hk.le.trans hle, fun n hkn hn hterm hquorum => ?_⟩
      rcases hnext n hkn hn with rfl | ⟨hlo, hhi⟩
      · exact hle
      · exact hcovers n hlo hhi hterm hquorum
    · have heq : r.commitAt k = r := by
        unfold commitAt
        split
        · rfl
        next hterm =>
          rw [if_neg]
          exact fun hquorum => hcount ⟨not_not.mp hterm, hquorum⟩
      rw [heq]
      obtain ⟨hle, hcovers⟩ := ih r (k + 1) (by omega)
      refine ⟨hle, fun n hkn hn hterm hquorum => ?_⟩
      rcases hnext n hkn hn with rfl | ⟨hlo, hhi⟩
      · exact absurd ⟨hterm, hquorum⟩ hcount
      · exact hcovers n hlo hhi hterm hquorum

theorem maybeAdvanceCommit_covers (r : Raft) {n : Nat} (hlast : n ≤ r.lastLogIndex)
    (hterm : r.logTerm n = r.currentTerm)
    (hquorum : r.quorumSize ≤
      1 + (r.peers.filter fun peer => n ≤ r.matchIndex.read peer).length) :
    n ≤ r.maybeAdvanceCommit.commitIndex := by
  obtain ⟨hle, hcovers⟩ := foldl_commitAt_covers (r.lastLogIndex - r.commitIndex) r
    (r.commitIndex + 1) (Nat.lt_succ_self _)
  by_cases hold : n ≤ r.commitIndex
  · exact hold.trans hle
  · exact hcovers n (by omega) (by omega) hterm hquorum

theorem handleAppendEntriesResp_cases (h : r.handleAppendEntriesResp msg = some r') :
    (r' = r ∧ ¬ (r.state = .leader ∧ msg.term = r.currentTerm ∧ msg.reject = false)) ∨
    (∃ next nextIndex, r.state = .leader ∧ msg.reject = true ∧ (msg.term = r.currentTerm ∧
      (0 < msg.index ∧ next = msg.index + 1 ∨
        1 < r.nextIndex.read msg.sender ∧ next = r.nextIndex.read msg.sender - 1)) ∧
      r.nextIndex.write msg.sender next = some nextIndex ∧ r' = { r with nextIndex }) ∨
    (r.state = .leader ∧ msg.term = r.currentTerm ∧ msg.reject = false ∧
      ∃ matchIndex nextIndex,
        (matchIndex = r.matchIndex ∧ nextIndex = r.nextIndex ∨
          0 < msg.index ∧ r.matchIndex.write msg.sender msg.index = some matchIndex ∧
          r.nextIndex.write msg.sender (msg.index + 1) = some nextIndex) ∧
        r' = { r with
          matchIndex, nextIndex
          heartbeatAcked := r.heartbeatAcked + 1 }.maybeAdvanceCommit) := by
  unfold handleAppendEntriesResp at h
  split at h
  next hstate =>
    cases h
    exact .inl ⟨rfl, fun hcount => hstate hcount.1⟩
  next hstate =>
  simp only [ne_eq, Decidable.not_not] at hstate
  split at h
  next hterm =>
    cases h
    exact .inl ⟨rfl, fun hcount => hterm hcount.2.1⟩
  next hterm =>
  simp only [ne_eq, Decidable.not_not] at hterm
  split at h
  next hreject =>
    split at h
    next hpos =>
      obtain ⟨nextIndex, hnext, h⟩ := Option.bind_eq_some_iff.mp h
      cases h
      exact .inr (.inl ⟨_, nextIndex, hstate, hreject, ⟨hterm, .inl ⟨hpos, rfl⟩⟩, hnext, rfl⟩)
    next =>
      split at h
      next hmore =>
        obtain ⟨nextIndex, hnext, h⟩ := Option.bind_eq_some_iff.mp h
        cases h
        exact .inr (.inl ⟨_, nextIndex, hstate, hreject, ⟨hterm, .inr ⟨hmore, rfl⟩⟩, hnext, rfl⟩)
      next =>
        cases h
        exact .inl ⟨rfl, fun hcount => by simp [hreject] at hcount⟩
  next hreject =>
    simp only [Bool.not_eq_true] at hreject
    simp only at h
    split at h
    next hpos =>
      obtain ⟨matchIndex, hmatch, h⟩ := Option.bind_eq_some_iff.mp h
      obtain ⟨nextIndex, hnext, h⟩ := Option.bind_eq_some_iff.mp h
      cases h
      exact .inr (.inr ⟨hstate, hterm, hreject, matchIndex, nextIndex,
        .inr ⟨hpos, hmatch, hnext⟩, rfl⟩)
    next =>
      cases h
      exact .inr (.inr ⟨hstate, hterm, hreject, r.matchIndex, r.nextIndex, .inl ⟨rfl, rfl⟩, rfl⟩)

theorem handleAppendEntriesResp_moves (hin : inbox msg) (htype : msg.type = .appendEntriesResp)
    (h : r.handleAppendEntriesResp msg = some r') : Moves inbox clock r r' := by
  rcases handleAppendEntriesResp_cases h with ⟨rfl, -⟩ |
    ⟨next, nextIndex, hstate, -, ⟨-, hcursor⟩, hnext, rfl⟩ |
    ⟨hstate, hterm, hreject, matchIndex, nextIndex, ⟨rfl, rfl⟩ | ⟨hpos, hmatch, hnext⟩, rfl⟩
  · exact .refl
  · exact .single (.aim r _ _ nextIndex hstate (by omega) hnext)
  · refine .head (.count _ msg hin htype hstate) ?_
    exact maybeAdvanceCommit_moves hin htype hstate
  · refine .head (.matched r msg matchIndex hin htype hstate hterm hreject hpos hmatch) ?_
    refine .head (.aim _ _ _ nextIndex hstate (Nat.succ_pos _) hnext) ?_
    refine .head (.count _ msg hin htype hstate) ?_
    exact maybeAdvanceCommit_moves hin htype hstate

theorem step_moves (hin : inbox msg) (hreal : msg.isPreVote = false)
    (h : r.step msg = some r') : Moves inbox clock r r' := by
  unfold step at h
  obtain ⟨r₁, hr₁, h⟩ := Option.bind_eq_some_iff.mp h
  have hobserve : Moves inbox clock r r₁ ∧ msg.term ≤ r₁.currentTerm := by
    unfold observeTerm at hr₁
    simp only [hreal, Bool.false_eq_true, false_and, not_false_eq_true, and_true] at hr₁
    split at hr₁
    next hlt =>
      rw [becomeFollower_eq_some hr₁]
      exact ⟨.single (.observe r msg hin hlt), le_rfl⟩
    next hle =>
      cases hr₁
      exact ⟨.refl, by omega⟩
  refine hobserve.1.trans ?_
  unfold handle at h
  split at h
  next htype =>
    cases h
    exact handleRequestVote_moves hin htype hreal hobserve.2
  next htype => exact handleRequestVoteResp_moves hin htype hreal h
  next htype => exact handleAppendEntries_moves hin htype hobserve.2 h
  next htype => exact handleAppendEntriesResp_moves hin htype h
  next =>
    cases h
    exact .refl

theorem addPeer_frame (r : Raft) (nodeID : String) :
    r.addPeer nodeID = { r with peers := (r.addPeer nodeID).peers } ∧
      ∀ p ∈ r.peers, p ∈ (r.addPeer nodeID).peers := by
  unfold addPeer
  split
  · exact ⟨rfl, fun _ hp => hp⟩
  · split
    · exact ⟨rfl, fun _ hp => hp⟩
    · exact ⟨rfl, fun p hp => List.mem_append_left _ hp⟩

theorem applicableEntries_eq (r : Raft) :
    r.applicableEntries.2 = { r with lastApplied := r.applicableEntries.2.lastApplied } := by
  unfold applicableEntries
  split
  · rfl
  · simp only
    split
    · split <;> rfl
    · rfl

theorem heeding_state (r : Raft) (msg : Message) : (r.heeding msg).state = .follower := by
  unfold heeding
  split
  · assumption
  · rfl

theorem Move.keeps_office (hmove : Move inbox clock r r') (hclock : ∀ t, ¬ clock t)
    (hstate : r'.state ≠ .follower) :
    r.state ≠ .follower ∧ r'.currentTerm = r.currentTerm := by
  cases hmove with
  | stand _ hticks => exact absurd hticks (hclock _)
  | win hcandidate => exact ⟨by simp [hcandidate], rfl⟩
  | broadcast _ _ h =>
    obtain ⟨out, -, rfl⟩ := broadcastHeartbeat_eq h
    exact ⟨hstate, rfl⟩
  | observe => exact absurd rfl hstate
  | heed msg => exact absurd (heeding_state r msg) hstate
  | accept msg log _ _ _ hfollower =>
    rw [accepting_eq] at hstate
    exact absurd hfollower hstate
  | _ => exact ⟨hstate, rfl⟩

theorem Moves.keeps_office (hmoves : Moves inbox clock r r') (hclock : ∀ t, ¬ clock t)
    (hstate : r'.state ≠ .follower) :
    r.state ≠ .follower ∧ r'.currentTerm = r.currentTerm := by
  induction hmoves with
  | refl => exact ⟨hstate, rfl⟩
  | tail _ hmove ih =>
    obtain ⟨hstate₁, hterm⟩ := hmove.keeps_office hclock hstate
    exact ⟨(ih hstate₁).1, hterm.trans (ih hstate₁).2⟩

theorem Move.term_cases (hclock : ∀ t, ¬ clock t) (hmove : Move inbox clock r r') :
    r'.currentTerm = r.currentTerm ∨
      ∃ m, inbox m ∧ r.currentTerm < m.term ∧ r'.currentTerm = m.term := by
  cases hmove with
  | stand _ hticks => exact absurd hticks (hclock _)
  | broadcast _ _ h =>
    obtain ⟨out, -, rfl⟩ := broadcastHeartbeat_eq h
    exact .inl rfl
  | observe msg hin hlater => exact .inr ⟨msg, hin, hlater, rfl⟩
  | heed msg _ _ hterm =>
    left
    unfold heeding
    split
    · rfl
    · exact hterm
  | accept msg log =>
    rw [accepting_eq]
    exact .inl rfl
  | _ => exact .inl rfl

theorem Moves.term_cases (hclock : ∀ t, ¬ clock t) (hmoves : Moves inbox clock r r') :
    r'.currentTerm = r.currentTerm ∨
      ∃ m, inbox m ∧ r.currentTerm < m.term ∧ r'.currentTerm = m.term := by
  induction hmoves with
  | refl => exact .inl rfl
  | tail _ hmove ih =>
    rcases hmove.term_cases hclock with hsame | ⟨m, hin, hlater, hterm⟩
    · rwa [hsame]
    · rcases ih with hsame | ⟨m₁, -, hlater₁, hterm₁⟩
      · exact .inr ⟨m, hin, hsame ▸ hlater, hterm⟩
      · exact .inr ⟨m, hin, hlater₁.trans (hterm₁ ▸ hlater), hterm⟩

theorem Moves.keeps_term (hclock : ∀ t, ¬ clock t) (hinbox : ∀ m, inbox m → m.term ≤ r.currentTerm)
    (hmoves : Moves inbox clock r r') : r'.currentTerm = r.currentTerm := by
  rcases hmoves.term_cases hclock with hsame | ⟨m, hin, hlater, -⟩
  · exact hsame
  · exact absurd hlater (Nat.not_lt_of_le (hinbox m hin))

theorem Move.commitIndex_eq (hinbox : ∀ m, inbox m → m.type ≠ .appendEntries ∧
    m.type ≠ .appendEntriesResp) (hmove : Move inbox clock r r') :
    r'.commitIndex = r.commitIndex := by
  cases hmove with
  | broadcast _ _ h =>
    obtain ⟨out, -, rfl⟩ := broadcastHeartbeat_eq h
    rfl
  | heed msg hin htype => exact absurd htype (hinbox msg hin).1
  | accept msg log hin htype => exact absurd htype (hinbox msg hin).1
  | advance msg n hin htype => exact absurd htype (hinbox msg hin).2
  | _ => rfl

theorem Moves.commitIndex_eq (hinbox : ∀ m, inbox m → m.type ≠ .appendEntries ∧
    m.type ≠ .appendEntriesResp) (hmoves : Moves inbox clock r r') :
    r'.commitIndex = r.commitIndex := by
  induction hmoves with
  | refl => rfl
  | tail _ hmove ih => exact (hmove.commitIndex_eq hinbox).trans ih

theorem Move.commitIndex_le (hinbox : ∀ m, inbox m → m.type ≠ .appendEntries)
    (hmove : Move inbox clock r r') : r.commitIndex ≤ r'.commitIndex := by
  cases hmove with
  | broadcast _ _ h =>
    obtain ⟨out, -, rfl⟩ := broadcastHeartbeat_eq h
    exact le_rfl
  | heed msg hin htype => exact absurd htype (hinbox msg hin)
  | accept msg log hin htype => exact absurd htype (hinbox msg hin)
  | advance msg n _ _ _ hn => exact hn.le
  | _ => exact le_rfl

theorem Moves.commitIndex_le (hinbox : ∀ m, inbox m → m.type ≠ .appendEntries)
    (hmoves : Moves inbox clock r r') : r.commitIndex ≤ r'.commitIndex := by
  induction hmoves with
  | refl => exact le_rfl
  | tail _ hmove ih => exact ih.trans (hmove.commitIndex_le hinbox)

theorem propose_commitIndex {data : List UInt8} {index : Option Nat}
    (h : r.propose data = some (index, r')) : r'.commitIndex = r.commitIndex := by
  have hmoves : Moves (fun _ => False) (fun _ => False) r r' := propose_moves h
  exact hmoves.commitIndex_eq fun _ hno => hno.elim

theorem Move.lastApplied_eq (hmove : Move inbox clock r r') : r'.lastApplied = r.lastApplied := by
  cases hmove with
  | broadcast _ _ h =>
    obtain ⟨out, -, rfl⟩ := broadcastHeartbeat_eq h
    rfl
  | heed msg =>
    unfold heeding
    split <;> rfl
  | accept msg log => rw [accepting_eq]
  | _ => rfl

theorem Moves.lastApplied_eq (hmoves : Moves inbox clock r r') :
    r'.lastApplied = r.lastApplied := by
  induction hmoves with
  | refl => rfl
  | tail _ hmove ih => exact hmove.lastApplied_eq.trans ih

/-- What no move touches. -/
structure SameInstance (r r' : Raft) : Prop where
  id : r'.id = r.id
  peers : r'.peers = r.peers
  base : r'.baseElectionTimeout = r.baseElectionTimeout
  heartbeat : r'.heartbeatTimeout = r.heartbeatTimeout
  preVotes : r'.preVotes = r.preVotes

theorem SameInstance.refl (r : Raft) : SameInstance r r := ⟨rfl, rfl, rfl, rfl, rfl⟩

theorem SameInstance.trans {r₁ : Raft} (h : SameInstance r r₁) (h' : SameInstance r₁ r') :
    SameInstance r r' :=
  ⟨h'.id.trans h.id, h'.peers.trans h.peers, h'.base.trans h.base, h'.heartbeat.trans h.heartbeat,
    h'.preVotes.trans h.preVotes⟩

theorem Move.same (hmove : Move inbox clock r r') : SameInstance r r' := by
  cases hmove with
  | broadcast _ _ h =>
    obtain ⟨out, -, rfl⟩ := broadcastHeartbeat_eq h
    exact ⟨rfl, rfl, rfl, rfl, rfl⟩
  | heed msg =>
    unfold heeding
    split <;> exact ⟨rfl, rfl, rfl, rfl, rfl⟩
  | accept msg log =>
    rw [accepting_eq]
    exact ⟨rfl, rfl, rfl, rfl, rfl⟩
  | _ => exact ⟨rfl, rfl, rfl, rfl, rfl⟩

theorem Moves.same (hmoves : Moves inbox clock r r') : SameInstance r r' := by
  induction hmoves with
  | refl => exact .refl _
  | tail _ hmove ih => exact ih.trans hmove.same

end Raft
end Phalanx
